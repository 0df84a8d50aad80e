import Provenance.Proofs.Text.Numbers

/-!
# Signed numbers on a line

A line lists numbers when they are written in it one after the other with blanks between two of them, and with
nothing but white space behind the last one (`Listed`).  The scanner of lists reads these numbers off such a
line, and off no other one (`listed_iff`).  White space at the end of the line makes no difference
(`listed_concat_iff`), and every number in the range of machine words can be written (`writtenInteger_toString`).
-/

namespace Provenance.Text

/-! ## Blanks -/

theorem isWhite_of_isBlank {c : Char} (blank : isBlank c = true) : isWhite c = true :=
  isWhite_of_isLayout (by simp [isLayout, blank])

theorem isBlank_eq_false {c : Char} (dark : isWhite c = false) : isBlank c = false := by
  cases blank : isBlank c with
  | false => rfl
  | true => simp [isWhite_of_isBlank blank] at dark

/-- At least one blank. -/
structure Blanks (text : List Char) : Prop where
  some_blank : text ≠ []
  isBlank : ∀ c ∈ text, isBlank c = true

/-- A word without white space ends the blanks in front of it. -/
theorem isBlank_head {word : List Char} (some_character : word ≠ []) (dark : ∀ c ∈ word, isWhite c = false)
    (text : List Char) : ∀ c ∈ (word ++ text).head?, isBlank c = false :=
  forall_head?_append some_character (fun c member => isBlank_eq_false (dark c member)) text

/-- Blanks end the digits in front of them. -/
theorem Blanks.isDigit_head {blanks : List Char} (blank : Blanks blanks) (text : List Char) :
    ∀ c ∈ (blanks ++ text).head?, c.isDigit = false :=
  forall_head?_append blank.some_blank
    (fun c member => isDigit_eq_false (isWhite_of_isBlank (blank.isBlank c member))) text

theorem scanBlanks_eq_some {text rest : List Char} : scanBlanks text = some rest ↔
    ∃ blanks, text = blanks ++ rest ∧ Blanks blanks ∧ ∀ c ∈ rest.head?, isBlank c = false := by
  have scanned : scanBlanks text = some rest ↔
      ∃ blanks, blanks ≠ [] ∧ text.takeWhile isBlank = blanks ∧ text.dropWhile isBlank = rest := by
    unfold scanBlanks skipBlanks
    simp only [List.isEmpty_iff, Option.ite_none_left_eq_some, Option.some.injEq]
    constructor
    · rintro ⟨some_blank, rfl⟩
      exact ⟨_, some_blank, rfl, rfl⟩
    · rintro ⟨_, some_blank, rfl, rfl⟩
      exact ⟨some_blank, rfl⟩
  rw [scanned]
  refine exists_congr fun blanks => ?_
  rw [takeWhile_dropWhile_eq_iff]
  constructor
  · rintro ⟨some_blank, same, blank, stopped⟩
    exact ⟨same, ⟨some_blank, blank⟩, stopped⟩
  · rintro ⟨same, ⟨some_blank, blank⟩, stopped⟩
    exact ⟨some_blank, same, blank, stopped⟩

/-! ## Signed numbers -/

/-- Digits, perhaps with zeros in front and a minus sign, of a number in the range of signed words. -/
inductive WrittenInteger : List Char → Int → Prop where
  | natural {digits : List Char} (some_digit : digits ≠ []) (isDigit : ∀ c ∈ digits, c.isDigit = true)
      (small : Numeral.digitsValue digits < signedLimit) : WrittenInteger digits (Numeral.digitsValue digits)
  | negative {digits : List Char} (some_digit : digits ≠ []) (isDigit : ∀ c ∈ digits, c.isDigit = true)
      (small : Numeral.digitsValue digits ≤ signedLimit) :
      WrittenInteger ('-' :: digits) (-(Numeral.digitsValue digits : Int))

theorem isWhite_of_isDigit {c : Char} (digit : c.isDigit = true) : isWhite c = false := by
  cases white : isWhite c with
  | false => rfl
  | true => simp [isDigit_eq_false white] at digit

namespace WrittenInteger

variable {word : List Char} {number : Int}

theorem ne_nil (written : WrittenInteger word number) : word ≠ [] := by
  cases written with
  | natural some_digit => exact some_digit
  | negative => exact List.cons_ne_nil _ _

/-- There is no white space in a number. -/
theorem dark (written : WrittenInteger word number) : ∀ c ∈ word, isWhite c = false := by
  cases written with
  | natural _ isDigit => exact fun c member => isWhite_of_isDigit (isDigit c member)
  | negative _ isDigit =>
    exact List.forall_mem_cons.2 ⟨rfl, fun c member => isWhite_of_isDigit (isDigit c member)⟩

end WrittenInteger

theorem signed_minus (text : List Char) :
    signed ('-' :: text) = (scanDigits text).bind fun (digits, rest) =>
      if Numeral.digitsValue digits ≤ signedLimit then some (-(Numeral.digitsValue digits : Int), rest)
      else none := by
  unfold signed
  cases scanned : scanDigits text with
  | none => simp only [scanned, Option.bind_none]
  | some found => simp only [scanned, Option.bind_some, if_true]

theorem signed_of_ne {text : List Char} (natural : text.head? ≠ some '-') :
    signed text = (scanDigits text).bind fun (digits, rest) =>
      if Numeral.digitsValue digits < signedLimit then some ((Numeral.digitsValue digits : Int), rest) else none := by
  unfold signed
  split
  rename_i negative after begun
  split at begun
  · exact absurd rfl natural
  · obtain ⟨rfl, rfl⟩ := Prod.mk.inj begun
    cases scanDigits text <;> rfl

/-- A number is read up to a character that is no digit. -/
theorem signed_eq_some {text rest : List Char} {number : Int} : signed text = some (number, rest) ↔
    ∃ word, text = word ++ rest ∧ WrittenInteger word number ∧ ∀ c ∈ rest.head?, c.isDigit = false := by
  constructor
  · intro read
    by_cases minus : text.head? = some '-'
    · obtain ⟨text, rfl⟩ := List.head?_eq_some_iff.1 minus
      rw [signed_minus, Option.bind_eq_some_iff] at read
      obtain ⟨⟨digits, rest'⟩, scanned, read⟩ := read
      simp only [Option.ite_none_right_eq_some, Option.some.injEq, Prod.mk.injEq] at read
      obtain ⟨small, rfl, rfl⟩ := read
      obtain ⟨rfl, some_digit, isDigit, stopped⟩ := scanDigits_eq_some.1 scanned
      exact ⟨'-' :: digits, rfl, .negative some_digit isDigit small, stopped⟩
    · rw [signed_of_ne minus, Option.bind_eq_some_iff] at read
      obtain ⟨⟨digits, rest'⟩, scanned, read⟩ := read
      simp only [Option.ite_none_right_eq_some, Option.some.injEq, Prod.mk.injEq] at read
      obtain ⟨small, rfl, rfl⟩ := read
      obtain ⟨rfl, some_digit, isDigit, stopped⟩ := scanDigits_eq_some.1 scanned
      exact ⟨digits, rfl, .natural some_digit isDigit small, stopped⟩
  · rintro ⟨word, rfl, written, stopped⟩
    cases written with
    | natural some_digit isDigit small =>
      have scanned := scanDigits_eq_some.2 ⟨rfl, some_digit, isDigit, stopped⟩
      have natural : (word ++ rest).head? ≠ some '-' := fun minus =>
        absurd (forall_head?_append some_digit isDigit rest '-' minus) (by decide)
      rw [signed_of_ne natural, scanned]
      exact if_pos small
    | @negative digits some_digit isDigit small =>
      have scanned := scanDigits_eq_some.2 ⟨rfl, some_digit, isDigit, stopped⟩
      rw [List.cons_append, signed_minus, scanned]
      exact if_pos small

/-- A signed machine word. -/
def IsSigned (number : Int) : Prop := -(signedLimit : Int) ≤ number ∧ number < signedLimit

instance (number : Int) : Decidable (IsSigned number) := inferInstanceAs (Decidable (_ ∧ _))

/-- The decimal digits of a number in range, with a minus sign when it is negative, are one way to write it. -/
theorem writtenInteger_toString {number : Int} (signed : IsSigned number) :
    WrittenInteger (toString number).toList number := by
  obtain ⟨least, greatest⟩ := signed
  have limit : signedLimit < wordLimit := by decide
  cases number with
  | ofNat n =>
    have small : n < signedLimit := Int.ofNat_lt.1 greatest
    have word := writtenWord_toString (Nat.lt_trans small limit)
    have value := digitsValue_toString n
    have written := WrittenInteger.natural word.some_digit word.isDigit (by rwa [value])
    rw [value] at written
    exact written
  | negSucc n =>
    have small : n + 1 ≤ signedLimit := by
      rw [Int.negSucc_eq] at least
      omega
    have word := writtenWord_toString (Nat.lt_of_le_of_lt small limit)
    have value := digitsValue_toString (n + 1)
    have written := WrittenInteger.negative word.some_digit word.isDigit (by rwa [value])
    rw [value] at written
    have spelled : (toString (Int.negSucc n)).toList = '-' :: (toString (n + 1)).toList := by
      show ("-" ++ toString (n + 1)).toList = _
      rw [String.toList_append]
      rfl
    rw [spelled]
    exact written

/-! ## Lists of numbers -/

/-- Numbers with blanks in front of each, and white space behind the last one. -/
inductive Spaced : List Char → List Int → Prop where
  | nil {text : List Char} (white : allWhite text = true) : Spaced text []
  | cons {blanks word text : List Char} {number : Int} {numbers : List Int} (blank : Blanks blanks)
      (written : WrittenInteger word number) (later : Spaced text numbers) :
      Spaced (blanks ++ (word ++ text)) (number :: numbers)

/-- Some numbers, with blanks between two of them and perhaps in front, and white space behind the last one. -/
inductive Listed : List Char → List Int → Prop where
  | mk {blanks word text : List Char} {number : Int} {numbers : List Int}
      (blank : ∀ c ∈ blanks, isBlank c = true) (written : WrittenInteger word number)
      (later : Spaced text numbers) : Listed (blanks ++ (word ++ text)) (number :: numbers)

/-- White space at the end of a text stands behind a word without white space. -/
theorem exists_concat_of_dark {before word rest text : List Char} {c : Char} (some_character : word ≠ [])
    (dark : ∀ c ∈ word, isWhite c = false) (white : isWhite c = true)
    (whole : text ++ [c] = before ++ (word ++ rest)) :
    ∃ rest', rest = rest' ++ [c] ∧ text = before ++ (word ++ rest') := by
  rcases List.eq_nil_or_concat rest with rfl | ⟨rest', last, rfl⟩
  · obtain ⟨others, last, rfl⟩ := (List.eq_nil_or_concat word).resolve_left some_character
    obtain rfl : c = last := by simpa using congrArg List.getLast? whole
    exact absurd white (by simp [dark c (by simp)])
  · have ends : text ++ [c] = (before ++ (word ++ rest')) ++ [last] := by simpa using whole
    obtain ⟨same, equal⟩ := List.append_inj' ends rfl
    exact ⟨rest', by rw [List.concat_eq_append, equal], same⟩

/-- There is no number in white space. -/
theorem signed_of_allWhite {text : List Char} (white : allWhite text = true) : signed text = none := by
  refine Option.eq_none_iff_forall_ne_some.2 fun ⟨number, rest⟩ read => ?_
  obtain ⟨word, rfl, written, _⟩ := signed_eq_some.1 read
  obtain ⟨first, others, rfl⟩ := List.exists_cons_of_ne_nil written.ne_nil
  have dark := written.dark first List.mem_cons_self
  simp [allWhite, dark] at white

namespace Spaced

variable {text : List Char} {numbers : List Int}

/-- Each number takes a character. -/
theorem length_le (spaced : Spaced text numbers) : numbers.length ≤ text.length := by
  induction spaced with
  | nil _ => exact Nat.zero_le _
  | cons blank written later ih =>
    have positive := List.length_pos_iff.2 written.ne_nil
    simp only [List.length_cons, List.length_append]
    omega

theorem isDigit_head (spaced : Spaced text numbers) : ∀ c ∈ text.head?, c.isDigit = false := by
  intro c first
  cases spaced with
  | nil white => exact isDigit_eq_false (List.all_eq_true.1 white c (List.mem_of_mem_head? first))
  | cons blank written later => exact blank.isDigit_head _ c first

/-- The numbers are read, and then nothing but white space is left. -/
theorem moreIntegers (spaced : Spaced text numbers) {fuel : Nat} (enough : numbers.length ≤ fuel) :
    ∃ rest, Text.moreIntegers fuel text = (numbers, rest) ∧ allWhite rest = true := by
  induction spaced generalizing fuel with
  | @nil text white =>
    refine ⟨text, ?_, white⟩
    cases fuel with
    | zero => rfl
    | succ fuel =>
      rw [Text.moreIntegers]
      split
      · rfl
      · rename_i after scanned
        obtain ⟨blanks, rfl, _⟩ := scanBlanks_eq_some.1 scanned
        have white_after : allWhite after = true :=
          List.all_eq_true.2 fun c member => List.all_eq_true.1 white c (List.mem_append_right blanks member)
        rw [signed_of_allWhite white_after]
  | @cons blanks word text number numbers blank written later ih =>
    cases fuel with
    | zero => exact absurd enough (Nat.not_succ_le_zero _)
    | succ fuel =>
      obtain ⟨rest, read, white⟩ := ih (Nat.le_of_succ_le_succ enough)
      refine ⟨rest, ?_, white⟩
      have skipped : scanBlanks (blanks ++ (word ++ text)) = some (word ++ text) :=
        scanBlanks_eq_some.2 ⟨blanks, rfl, blank, isBlank_head written.ne_nil written.dark text⟩
      have first : signed (word ++ text) = some (number, text) :=
        signed_eq_some.2 ⟨word, rfl, written, later.isDigit_head⟩
      simp only [Text.moreIntegers, skipped, first, read]

/-- White space at the end makes no difference. -/
theorem concat {c : Char} (white : isWhite c = true) (spaced : Spaced text numbers) :
    Spaced (text ++ [c]) numbers := by
  induction spaced with
  | nil white' => exact .nil (by simpa [allWhite, white] using white')
  | cons blank written later ih =>
    rw [List.append_assoc, List.append_assoc]
    exact .cons blank written ih

theorem of_concat {c : Char} (white : isWhite c = true) (spaced : Spaced (text ++ [c]) numbers) :
    Spaced text numbers := by
  generalize whole : text ++ [c] = line at spaced
  induction spaced generalizing text with
  | nil white' =>
    subst whole
    exact .nil (by simpa [allWhite, white] using white')
  | @cons blanks word rest number numbers blank written later ih =>
    obtain ⟨rest, rfl, rfl⟩ := exists_concat_of_dark written.ne_nil written.dark white whole
    exact .cons blank written (ih rfl)

end Spaced

/-- What is read off a line are numbers that stand in it, up to the rest. -/
theorem spaced_of_moreIntegers {fuel : Nat} {text rest : List Char} {numbers : List Int}
    (read : moreIntegers fuel text = (numbers, rest)) (white : allWhite rest = true) : Spaced text numbers := by
  induction fuel generalizing text numbers with
  | zero =>
    obtain ⟨rfl, rfl⟩ := Prod.mk.inj read
    exact .nil white
  | succ fuel ih =>
    rw [moreIntegers] at read
    split at read
    · obtain ⟨rfl, rfl⟩ := Prod.mk.inj read
      exact .nil white
    · rename_i after scanned
      split at read
      · obtain ⟨rfl, rfl⟩ := Prod.mk.inj read
        exact .nil white
      · rename_i number later found
        obtain ⟨rfl, rfl⟩ := Prod.mk.inj read
        obtain ⟨blanks, rfl, blank, _⟩ := scanBlanks_eq_some.1 scanned
        obtain ⟨word, rfl, written, _⟩ := signed_eq_some.1 found
        exact .cons blank written (ih rfl)

/-- The numbers of a line are read, with white space behind them, when it lists them. -/
theorem listed_iff {text : List Char} {numbers : List Int} : Listed text numbers ↔
    ∃ rest, integers text = some (numbers, rest) ∧ allWhite rest = true := by
  constructor
  · rintro ⟨blank, written, later⟩
    rename_i blanks word text number numbers
    obtain ⟨rest, read, white⟩ := later.moreIntegers later.length_le
    have skipped : skipBlanks (blanks ++ (word ++ text)) = word ++ text :=
      (takeWhile_dropWhile_eq_iff.2 ⟨rfl, blank, isBlank_head written.ne_nil written.dark text⟩).2
    have first : signed (word ++ text) = some (number, text) :=
      signed_eq_some.2 ⟨word, rfl, written, later.isDigit_head⟩
    exact ⟨rest, by simp only [integers, skipped, first, read], white⟩
  · rintro ⟨rest, read, white⟩
    unfold integers at read
    split at read
    · cases read
    · rename_i number after found
      obtain ⟨rfl, rfl⟩ := Prod.mk.inj (Option.some.inj read)
      have whole : text.takeWhile isBlank ++ skipBlanks text = text := List.takeWhile_append_dropWhile
      obtain ⟨word, same, written, _⟩ := signed_eq_some.1 found
      rw [← whole, same]
      exact .mk (fun c member => List.all_eq_true.1 List.all_takeWhile c member) written
        (spaced_of_moreIntegers rfl white)

/-- White space at the end of a line makes no difference. -/
theorem listed_concat_iff {text : List Char} {numbers : List Int} {c : Char} (white : isWhite c = true) :
    Listed (text ++ [c]) numbers ↔ Listed text numbers := by
  constructor
  · intro listed
    generalize whole : text ++ [c] = line at listed
    obtain ⟨blank, written, later⟩ := listed
    obtain ⟨rest, rfl, rfl⟩ := exists_concat_of_dark written.ne_nil written.dark white whole
    exact .mk blank written (later.of_concat white)
  · rintro ⟨blank, written, later⟩
    rw [List.append_assoc, List.append_assoc]
    exact .mk blank written (later.concat white)

/-! ## Lists that are spelled -/

/-- Numbers with a space in front of each. -/
def spacedOut (numbers : List Int) : List Char := numbers.flatMap fun number => ' ' :: (toString number).toList

theorem spacedOut_cons (number : Int) (numbers : List Int) :
    spacedOut (number :: numbers) = [' '] ++ ((toString number).toList ++ spacedOut numbers) := by
  simp [spacedOut]

theorem blanks_space : Blanks [' '] where
  some_blank := List.cons_ne_nil _ _
  isBlank := List.forall_mem_singleton.2 rfl

theorem spaced_spacedOut {numbers : List Int} (signed : ∀ number ∈ numbers, IsSigned number) :
    Spaced (spacedOut numbers) numbers := by
  induction numbers with
  | nil => exact .nil rfl
  | cons number numbers ih =>
    obtain ⟨first, signed⟩ := List.forall_mem_cons.1 signed
    rw [spacedOut_cons]
    exact .cons blanks_space (writtenInteger_toString first) (ih signed)

theorem listed_spacedOut {numbers : List Int} (some_number : numbers ≠ [])
    (signed : ∀ number ∈ numbers, IsSigned number) : Listed (spacedOut numbers) numbers := by
  obtain ⟨number, numbers, rfl⟩ := List.exists_cons_of_ne_nil some_number
  obtain ⟨first, signed⟩ := List.forall_mem_cons.1 signed
  rw [spacedOut_cons]
  exact .mk blanks_space.isBlank (writtenInteger_toString first) (spaced_spacedOut signed)

/-- Numbers stay on one line. -/
theorem notMem_spacedOut {numbers : List Int} (signed : ∀ number ∈ numbers, IsSigned number) :
    '\n' ∉ spacedOut numbers := by
  induction numbers with
  | nil => exact List.not_mem_nil
  | cons number numbers ih =>
    obtain ⟨first, signed⟩ := List.forall_mem_cons.1 signed
    have dark := (writtenInteger_toString first).dark '\n'
    rw [spacedOut_cons, List.mem_append, List.mem_append, List.mem_singleton]
    rintro (same | inside | inside)
    · exact absurd same (by decide)
    · exact absurd (dark inside) (by decide)
    · exact ih signed inside

end Provenance.Text
