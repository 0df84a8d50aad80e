import Mathlib.Data.List.Basic
import Provenance.Text.Scan

/-!
# Numbers in a free layout

A text is laid out as some numbers when these are written in it one after the other, set apart by layout, with
nothing but white space behind the last one (`LaidOut`).  The scanner reads these numbers off such a text, and
off no other one (`laidOut_iff`).  Numbers with a character of the layout behind each are one way to write them
(`laidOut_spelled`).
-/

namespace Provenance.Text

/-! ## Digits and layout -/

theorem isWhite_of_isLayout {c : Char} (layout : isLayout c = true) : isWhite c = true := by
  simp only [isLayout, isBlank, Bool.or_eq_true, beq_iff_eq] at layout
  rcases layout with ((rfl | rfl) | rfl) | rfl <;> decide

/-- A digit is no white space. -/
theorem isDigit_eq_false {c : Char} (white : isWhite c = true) : c.isDigit = false := by
  simp only [Char.isDigit, Bool.and_eq_false_iff, decide_eq_false_iff_not, UInt32.le_iff_toNat_le]
  simp only [isWhite, Char.toNat, Bool.or_eq_true, Bool.and_eq_true, decide_eq_true_eq, beq_iff_eq] at white
  have zero : '0'.val.toNat = 48 := rfl
  have nine : '9'.val.toNat = 57 := rfl
  omega

theorem isLayout_eq_false {c : Char} (digit : c.isDigit = true) : isLayout c = false := by
  cases layout : isLayout c with
  | false => rfl
  | true => exact absurd digit (by simp [isDigit_eq_false (isWhite_of_isLayout layout)])

/-- Digits, perhaps with zeros in front, of a number in the range of words. -/
structure WrittenWord (digits : List Char) : Prop where
  some_digit : digits ≠ []
  isDigit : ∀ c ∈ digits, c.isDigit = true
  small : Numeral.digitsValue digits < wordLimit

/-- The longest start of a text of characters of one sort, and what comes behind it. -/
theorem takeWhile_dropWhile_eq_iff {sort : Char → Bool} {text before rest : List Char} :
    text.takeWhile sort = before ∧ text.dropWhile sort = rest ↔
      text = before ++ rest ∧ (∀ c ∈ before, sort c = true) ∧ ∀ c ∈ rest.head?, sort c = false := by
  constructor
  · rintro ⟨rfl, rfl⟩
    refine ⟨List.takeWhile_append_dropWhile.symm, fun c member => List.all_eq_true.1 List.all_takeWhile c member,
      fun c first => ?_⟩
    have stopped := List.head?_dropWhile_not sort text
    rw [Option.mem_def.1 first] at stopped
    exact stopped
  · rintro ⟨rfl, sorted, stopped⟩
    have stop : rest.takeWhile sort = [] ∧ rest.dropWhile sort = rest := by
      cases rest with
      | nil => exact ⟨rfl, rfl⟩
      | cons c rest =>
        have other := stopped c rfl
        exact ⟨List.takeWhile_cons_of_neg (by simp [other]), List.dropWhile_cons_of_neg (by simp [other])⟩
    rw [List.takeWhile_append_of_pos sorted, List.dropWhile_append_of_pos sorted, stop.1, stop.2, List.append_nil]
    exact ⟨rfl, rfl⟩

/-- What holds of the characters of a word holds of the first character of a text that begins with the word. -/
theorem forall_head?_append {property : Char → Prop} {word : List Char} (some_character : word ≠ [])
    (all : ∀ c ∈ word, property c) (text : List Char) : ∀ c ∈ (word ++ text).head?, property c := by
  rw [List.head?_append_of_ne_nil word some_character]
  exact fun c first => all c (List.mem_of_mem_head? first)

theorem scanDigits_eq_some {text digits rest : List Char} : scanDigits text = some (digits, rest) ↔
    text = digits ++ rest ∧ digits ≠ [] ∧ (∀ c ∈ digits, c.isDigit = true) ∧
      ∀ c ∈ rest.head?, c.isDigit = false := by
  have scanned : scanDigits text = some (digits, rest) ↔
      digits ≠ [] ∧ text.takeWhile Char.isDigit = digits ∧ text.dropWhile Char.isDigit = rest := by
    unfold scanDigits
    simp only [List.isEmpty_iff, Option.ite_none_left_eq_some, Option.some.injEq, Prod.mk.injEq]
    constructor
    · rintro ⟨some_digit, rfl, rfl⟩
      exact ⟨some_digit, rfl, rfl⟩
    · rintro ⟨some_digit, rfl, rfl⟩
      exact ⟨some_digit, rfl, rfl⟩
  rw [scanned, takeWhile_dropWhile_eq_iff, and_left_comm]

/-- All digits up to a character that is none are read as one number. -/
theorem unsigned_eq_some {text rest : List Char} {number : Nat} : unsigned text = some (number, rest) ↔
    ∃ digits, text = digits ++ rest ∧ WrittenWord digits ∧ number = Numeral.digitsValue digits ∧
      ∀ c ∈ rest.head?, c.isDigit = false := by
  constructor
  · intro read
    unfold unsigned at read
    split at read
    · rename_i digits rest' scanned
      simp only [Option.ite_none_right_eq_some, Option.some.injEq, Prod.mk.injEq] at read
      obtain ⟨small, rfl, rfl⟩ := read
      obtain ⟨same, some_digit, isDigit, stopped⟩ := scanDigits_eq_some.1 scanned
      exact ⟨digits, same, ⟨some_digit, isDigit, small⟩, rfl, stopped⟩
    · cases read
  · rintro ⟨digits, same, written, rfl, stopped⟩
    have scanned := scanDigits_eq_some.2 ⟨same, written.some_digit, written.isDigit, stopped⟩
    simp only [unsigned, scanned, written.small, if_true]

/-- A digit ends the layout in front of a number. -/
theorem skipLayout_append {before digits : List Char} (layout : ∀ c ∈ before, isLayout c = true)
    (written : WrittenWord digits) (rest : List Char) :
    skipLayout (before ++ (digits ++ rest)) = digits ++ rest := by
  have dark : ∀ c ∈ (digits ++ rest).head?, isLayout c = false :=
    forall_head?_append written.some_digit (fun c member => isLayout_eq_false (written.isDigit c member)) rest
  exact (takeWhile_dropWhile_eq_iff.2 ⟨rfl, layout, dark⟩).2

/-! ## Texts of numbers -/

/-- The text is made of these numbers, set apart by layout, and of white space behind them. -/
inductive LaidOut : List Char → List Nat → Prop where
  | nil {text : List Char} (white : allWhite text = true) : LaidOut text []
  | cons {before digits text : List Char} {numbers : List Nat} (layout : ∀ c ∈ before, isLayout c = true)
      (written : WrittenWord digits) (apart : ∀ c ∈ text.head?, isWhite c = true)
      (later : LaidOut text numbers) :
      LaidOut (before ++ (digits ++ text)) (Numeral.digitsValue digits :: numbers)

namespace LaidOut

variable {text : List Char} {numbers : List Nat}

/-- Each number takes a character. -/
theorem length_le (laid : LaidOut text numbers) : numbers.length ≤ text.length := by
  induction laid with
  | nil _ => exact Nat.zero_le _
  | cons layout written apart later ih =>
    have positive := List.length_pos_iff.2 written.some_digit
    simp only [List.length_cons, List.length_append]
    omega

theorem lt_wordLimit (laid : LaidOut text numbers) : ∀ number ∈ numbers, number < wordLimit := by
  induction laid with
  | nil _ => exact fun _ none => absurd none List.not_mem_nil
  | cons layout written apart later ih => exact List.forall_mem_cons.2 ⟨written.small, ih⟩

/-- A text of numbers begins with white space or with a digit. -/
theorem white_or_digit (laid : LaidOut text numbers) :
    ∀ c ∈ text.head?, isWhite c = true ∨ c.isDigit = true := by
  intro c first
  cases laid with
  | nil white => exact Or.inl (List.all_eq_true.1 white c (List.mem_of_mem_head? first))
  | @cons before digits text numbers layout written apart later =>
    have known : ∀ c ∈ before ++ digits, isWhite c = true ∨ c.isDigit = true := by
      intro c member
      rcases List.mem_append.1 member with blank | digit
      · exact Or.inl (isWhite_of_isLayout (layout c blank))
      · exact Or.inr (written.isDigit c digit)
    rw [← List.append_assoc] at first
    exact forall_head?_append (List.append_ne_nil_of_right_ne_nil _ written.some_digit) known text c first

/-- The numbers are read, and then nothing but white space is left. -/
theorem naturals (laid : LaidOut text numbers) {fuel : Nat} (enough : numbers.length ≤ fuel) :
    ∃ rest, Text.naturals fuel text = (numbers, rest) ∧ allWhite rest = true := by
  induction laid generalizing fuel with
  | @nil text white =>
    refine ⟨text, ?_, white⟩
    have none_ : unsigned (skipLayout text) = none := by
      refine Option.eq_none_iff_forall_ne_some.2 fun ⟨number, rest⟩ read => ?_
      obtain ⟨digits, same, written, _⟩ := unsigned_eq_some.1 read
      obtain ⟨c, others, rfl⟩ := List.exists_cons_of_ne_nil written.some_digit
      have member : c ∈ skipLayout text := same ▸ List.mem_append_left _ List.mem_cons_self
      have blank := List.all_eq_true.1 white c ((List.dropWhile_sublist isLayout).subset member)
      exact absurd (written.isDigit c List.mem_cons_self) (by simp [isDigit_eq_false blank])
    cases fuel with
    | zero => rfl
    | succ fuel => rw [Text.naturals, none_]
  | @cons before digits text numbers layout written apart later ih =>
    cases fuel with
    | zero => exact absurd enough (Nat.not_succ_le_zero _)
    | succ fuel =>
      obtain ⟨rest, read, white⟩ := ih (Nat.le_of_succ_le_succ enough)
      refine ⟨rest, ?_, white⟩
      have first : unsigned (digits ++ text) = some (Numeral.digitsValue digits, text) :=
        unsigned_eq_some.2 ⟨digits, rfl, written, rfl, fun c there => isDigit_eq_false (apart c there)⟩
      rw [Text.naturals, skipLayout_append layout written, first]
      simp only [read]

end LaidOut

/-- What is read off a text are numbers that stand in it, up to the rest. -/
theorem laidOut_of_naturals {fuel : Nat} {text rest : List Char} {numbers : List Nat}
    (read : naturals fuel text = (numbers, rest)) (white : allWhite rest = true) : LaidOut text numbers := by
  induction fuel generalizing text numbers with
  | zero =>
    obtain ⟨rfl, rfl⟩ := Prod.mk.inj read
    exact .nil white
  | succ fuel ih =>
    rw [naturals] at read
    cases first : unsigned (skipLayout text) with
    | none =>
      rw [first] at read
      obtain ⟨rfl, rfl⟩ := Prod.mk.inj read
      exact .nil white
    | some scanned =>
      obtain ⟨number, after⟩ := scanned
      rw [first] at read
      obtain ⟨rfl, rfl⟩ := Prod.mk.inj read
      obtain ⟨digits, same, written, rfl, stopped⟩ := unsigned_eq_some.1 first
      have later : LaidOut after (naturals fuel after).1 := ih rfl
      have whole : text = text.takeWhile isLayout ++ (digits ++ after) := by
        rw [← same, skipLayout, List.takeWhile_append_dropWhile]
      rw [whole]
      refine .cons (fun c member => List.all_eq_true.1 List.all_takeWhile c member) written (fun c there => ?_) later
      -- the scanner stopped at a character that is no digit
      refine (later.white_or_digit c there).resolve_right fun digit => ?_
      exact absurd digit (by simp [stopped c there])

/-- With fuel for each character the numbers of a text are read when it is laid out as numbers. -/
theorem laidOut_iff {text : List Char} {numbers : List Nat} : LaidOut text numbers ↔
    ∃ rest, naturals text.length text = (numbers, rest) ∧ allWhite rest = true := by
  constructor
  · exact fun laid => laid.naturals laid.length_le
  · rintro ⟨rest, read, white⟩
    exact laidOut_of_naturals read white

/-- A text is laid out as one list of numbers at most. -/
theorem LaidOut.unique {text : List Char} {numbers numbers' : List Nat} (laid : LaidOut text numbers)
    (laid' : LaidOut text numbers') : numbers = numbers' := by
  obtain ⟨rest, read, _⟩ := laidOut_iff.1 laid
  obtain ⟨rest', read', _⟩ := laidOut_iff.1 laid'
  exact (Prod.mk.inj (read.symm.trans read')).1

/-! ## Numbers that are spelled -/

/-- Numbers one after the other, each with a character behind it. -/
def spelled (numbers : List (Nat × Char)) : List Char :=
  numbers.flatMap fun (number, ending) => (toString number).toList ++ [ending]

theorem toList_toString (number : Nat) : (toString number).toList = Nat.toDigits 10 number := by
  rw [Nat.toString_eq_repr, Nat.toList_repr]

theorem digitsValue_toString (number : Nat) : Numeral.digitsValue (toString number).toList = number := by
  rw [toList_toString]
  exact Nat.ofDigitChars_ten_toDigits

theorem writtenWord_toString {number : Nat} (small : number < wordLimit) :
    WrittenWord (toString number).toList where
  some_digit := toList_toString number ▸ Nat.toDigits_ne_nil
  isDigit c member := Nat.isDigit_of_mem_toDigits (by decide) (by decide) (toList_toString number ▸ member)
  small := by rwa [digitsValue_toString]

/-- Numbers with layout behind them are laid out, also behind more layout. -/
theorem laidOut_spelled {numbers : List (Nat × Char)} (small : ∀ entry ∈ numbers, entry.1 < wordLimit)
    (layout : ∀ entry ∈ numbers, isLayout entry.2 = true) (before : List Char)
    (layout_before : ∀ c ∈ before, isLayout c = true) :
    LaidOut (before ++ spelled numbers) (numbers.map Prod.fst) := by
  induction numbers generalizing before with
  | nil =>
    refine .nil (List.all_eq_true.2 fun c member => isWhite_of_isLayout (layout_before c ?_))
    simpa [spelled] using member
  | cons entry numbers ih =>
    obtain ⟨number, ending⟩ := entry
    obtain ⟨number_small, small⟩ := List.forall_mem_cons.1 small
    obtain ⟨ending_layout, layout⟩ := List.forall_mem_cons.1 layout
    have later := ih small layout [ending] (List.forall_mem_singleton.2 ending_layout)
    have whole : before ++ spelled ((number, ending) :: numbers) =
        before ++ ((toString number).toList ++ ([ending] ++ spelled numbers)) := by
      simp [spelled]
    have laid := LaidOut.cons layout_before (writtenWord_toString number_small)
      (fun c first => by
        obtain rfl := Option.some.inj (Option.mem_def.1 first)
        exact isWhite_of_isLayout ending_layout) later
    rw [digitsValue_toString] at laid
    rw [whole]
    exact laid

end Provenance.Text
