import Mathlib.Data.List.Induction
import Provenance.Nnf.Text
import Provenance.Proofs.Nnf.Terms
import Provenance.Proofs.Outcome
import Provenance.Proofs.Text.Integers
import Provenance.Proofs.Text.Line

/-!
# The layout of formulas

A text is laid out as a formula when its lines, without those that are blank or begin with the letter `c`, are
a header and then one row for each node: a letter and the numbers of the node (`Nnf.Laid`).  A text is read as a
formula exactly when it is laid out as this formula, and the formula is complete: it has as many nodes as the
header says, children stand in front of their parents, and literals are in range (`Nnf.ofText_iff`).  A formula
whose numbers are machine words has such a text (`Nnf.laid_plainText`).
-/

namespace Provenance

open Text (Blanks Listed WrittenWord)

/-! ## Rows of nodes -/

namespace Literal

theorem toDimacs_ne_zero (l : Literal) : l.toDimacs ≠ 0 := by
  unfold toDimacs
  split
  · omega
  · omega

theorem toDimacs_ofDimacs {number : Int} (nonzero : number ≠ 0) : (ofDimacs number).toDimacs = number := by
  unfold ofDimacs toDimacs
  by_cases positive : 0 < number
  · rw [if_pos (decide_eq_true positive)]
    dsimp only
    omega
  · rw [if_neg (by simpa using positive)]
    dsimp only
    omega

end Literal

namespace NnfNode

/-- The letter in front of a node. -/
def letter : NnfNode → Char
  | .literal _ => 'L'
  | .and _ => 'A'
  | .or _ _ => 'O'

/-- The numbers of a node: a literal, or the children after their count, and for a disjunction first of all its
opposing variable, counted from one, or zero. -/
def numbers : NnfNode → List Int
  | .literal l => [l.toDimacs]
  | .and children => (children.length : Int) :: children.map Nat.cast
  | .or opposing children =>
    ((opposing.elim 0 (· + 1) : Nat) : Int) :: (children.length : Int) :: children.map Nat.cast

/-- A line that holds a node: its letter and then its numbers. -/
def Row (line : List Char) (node : NnfNode) : Prop :=
  ∃ text, line = node.letter :: text ∧ Listed text node.numbers

/-- White space at the end of the row makes no difference. -/
theorem row_concat_iff {line : List Char} {node : NnfNode} {c : Char} (white : Text.isWhite c = true) :
    node.Row (line ++ [c]) ↔ node.Row line := by
  constructor
  · rintro ⟨text, same, listed⟩
    cases line with
    | nil =>
      -- no letter is white space
      obtain rfl : c = node.letter := (List.cons.inj same).1
      cases node <;> simp [letter, Text.isWhite] at white
    | cons d line =>
      obtain ⟨rfl, rfl⟩ := List.cons.inj same
      exact ⟨line, rfl, (Text.listed_concat_iff white).1 listed⟩
  · rintro ⟨text, rfl, listed⟩
    exact ⟨text ++ [c], rfl, (Text.listed_concat_iff white).2 listed⟩

/-- The node may stand at a position: its children stand in front of it, and a literal is one of the variables,
if their number is known. -/
structure Fits (node : NnfNode) (varCount position : Nat) : Prop where
  before : ∀ child ∈ node.children, child < position
  known : ∀ l, node = .literal l → varCount = 0 ∨ l.index < varCount

end NnfNode

namespace NnfReading

variable {position line : Nat} {given : List Int}

theorem child_eq_ok {number : Int} {result : Nat} :
    child position number = .ok result ↔ number = result ∧ result < position := by
  simp only [child, Outcome.bind_eq_ok, Outcome.require_eq_ok, Except.ok.injEq, exists_const, Bool.and_eq_true,
    decide_eq_true_eq]
  constructor
  · rintro ⟨⟨nonneg, small⟩, rfl⟩
    exact ⟨(Int.toNat_of_nonneg nonneg).symm, by omega⟩
  · rintro ⟨rfl, small⟩
    exact ⟨⟨Int.natCast_nonneg result, Int.ofNat_lt.2 small⟩, Int.toNat_natCast result⟩

theorem mapM_child_eq_ok {children : List Nat} : given.mapM (child position) = .ok children ↔
    given = children.map Nat.cast ∧ ∀ child ∈ children, child < position := by
  rw [Outcome.mapM_eq_ok_iff]
  constructor
  · intro taken
    induction taken with
    | nil => exact ⟨rfl, fun _ none => absurd none List.not_mem_nil⟩
    | cons first _ ih =>
      obtain ⟨rfl, small⟩ := child_eq_ok.1 first
      exact ⟨congrArg _ ih.1, List.forall_mem_cons.2 ⟨small, ih.2⟩⟩
  · rintro ⟨rfl, small⟩
    exact List.forall₂_map_left_iff.2 (List.forall₂_same.2 fun child member =>
      child_eq_ok.2 ⟨rfl, small child member⟩)

theorem counted_eq_ok {children : List Nat} : counted position line given = .ok children ↔
    given = (children.length : Int) :: children.map Nat.cast ∧ ∀ child ∈ children, child < position := by
  cases given with
  | nil => simp [counted]
  | cons count given =>
    simp only [counted, Outcome.bind_eq_ok, Outcome.require_eq_ok, Bool.and_eq_true, decide_eq_true_eq,
      beq_iff_eq, exists_const, mapM_child_eq_ok, List.cons.injEq]
    constructor
    · rintro ⟨⟨nonneg, length⟩, rfl, small⟩
      rw [List.length_map] at length
      exact ⟨⟨by omega, rfl⟩, small⟩
    · rintro ⟨⟨rfl, rfl⟩, small⟩
      exact ⟨⟨Int.natCast_nonneg _, by simp⟩, rfl, small⟩

theorem literalNode_eq_ok {varCount : Nat} {node : NnfNode} : literalNode varCount line given = .ok node ↔
    ∃ l, node = .literal l ∧ given = [l.toDimacs] ∧ (varCount = 0 ∨ l.index < varCount) := by
  constructor
  · intro taken
    unfold literalNode at taken
    split at taken
    · rename_i number
      simp only [Outcome.bind_eq_ok, Outcome.require_eq_ok, bne_iff_ne, Bool.or_eq_true, beq_iff_eq,
        decide_eq_true_eq, exists_const, Except.ok.injEq] at taken
      obtain ⟨nonzero, known, rfl⟩ := taken
      exact ⟨_, rfl, by rw [Literal.toDimacs_ofDimacs nonzero], known⟩
    · simp at taken
  · rintro ⟨l, rfl, rfl, known⟩
    simp [literalNode, Outcome.bind_eq_ok, Literal.ofDimacs_toDimacs, known, Literal.toDimacs_ne_zero]

theorem opposing_eq_ok {number : Int} {disputed : Option Nat} :
    opposing line number = .ok disputed ↔ number = ((disputed.elim 0 (· + 1) : Nat) : Int) := by
  simp only [opposing, Outcome.bind_eq_ok, Outcome.require_eq_ok, decide_eq_true_eq, exists_const,
    Except.ok.injEq]
  constructor
  · rintro ⟨nonneg, rfl⟩
    split
    · assumption
    · simp only [Option.elim_some]
      omega
  · rintro rfl
    refine ⟨Int.natCast_nonneg _, ?_⟩
    cases disputed with
    | none => rfl
    | some v =>
      have positive : ((v + 1 : Nat) : Int) ≠ 0 := by omega
      exact (if_neg positive).trans (congrArg some (by simp))

theorem orNode_eq_ok {node : NnfNode} : orNode position line given = .ok node ↔
    ∃ disputed children, node = .or disputed children ∧ given = (NnfNode.or disputed children).numbers ∧
      ∀ child ∈ children, child < position := by
  constructor
  · intro taken
    unfold orNode at taken
    split at taken
    · rename_i first count given
      simp only [Outcome.bind_eq_ok, opposing_eq_ok, counted_eq_ok, Except.ok.injEq] at taken
      obtain ⟨_, _, disputed, rfl, children, ⟨listed, small⟩, rfl⟩ := taken
      exact ⟨disputed, children, rfl, congrArg _ listed, small⟩
    · simp at taken
  · rintro ⟨disputed, children, rfl, rfl, small⟩
    simp only [NnfNode.numbers, orNode, Outcome.bind_eq_ok]
    refine ⟨(), Outcome.require_eq_ok.2 (by simp), disputed, opposing_eq_ok.2 rfl, children,
      counted_eq_ok.2 ⟨rfl, small⟩, rfl⟩

/-- A line is read as a node when it is the row of this node, and the node may stand there. -/
theorem readNode_eq_ok {varCount number : Nat} {text : List Char} {node : NnfNode} :
    readNode varCount position (text, number) = .ok node ↔ node.Row text ∧ node.Fits varCount position := by
  constructor
  · intro taken
    cases text with
    | nil => simp [readNode] at taken
    | cons letter text =>
      simp only [readNode, Outcome.bind_eq_ok, Outcome.require_eq_ok, Outcome.ofOption_eq_ok,
        List.contains_iff_mem] at taken
      obtain ⟨_, known, ⟨given, rest⟩, read, _, white, taken⟩ := taken
      have listed : Listed text given := Text.listed_iff.2 ⟨rest, read, white⟩
      split at taken
      · obtain ⟨l, rfl, rfl, inside⟩ := literalNode_eq_ok.1 taken
        refine ⟨⟨text, rfl, listed⟩, fun _ none => absurd none List.not_mem_nil, ?_⟩
        rintro _ ⟨⟩
        exact inside
      · obtain ⟨children, counted, rfl⟩ := Outcome.map_eq_ok.1 taken
        obtain ⟨rfl, small⟩ := counted_eq_ok.1 counted
        exact ⟨⟨text, rfl, listed⟩, small, by rintro _ ⟨⟩⟩
      · rename_i not_literal not_and
        -- the third letter is what is left
        have letter : letter = 'O' := by
          have cases : letter = 'L' ∨ letter = 'A' ∨ letter = 'O' := by simpa using known
          exact (cases.resolve_left not_literal).resolve_left not_and
        obtain ⟨disputed, children, rfl, rfl, small⟩ := orNode_eq_ok.1 taken
        exact ⟨⟨text, by rw [letter]; rfl, listed⟩, small, by rintro _ ⟨⟩⟩
  · rintro ⟨⟨text, rfl, listed⟩, fits⟩
    obtain ⟨rest, read, white⟩ := Text.listed_iff.1 listed
    have known : node.letter ∈ "LAO".toList := by
      cases node <;> simp [NnfNode.letter]
    simp only [readNode, Outcome.bind_eq_ok, Outcome.require_eq_ok, Outcome.ofOption_eq_ok, List.contains_iff_mem]
    refine ⟨(), known, (node.numbers, rest), read, (), white, ?_⟩
    cases node with
    | literal l => exact literalNode_eq_ok.2 ⟨l, rfl, rfl, fits.known l rfl⟩
    | and children => exact Outcome.map_eq_ok.2 ⟨children, counted_eq_ok.2 ⟨rfl, fits.before⟩, rfl⟩
    | or disputed children => exact orNode_eq_ok.2 ⟨disputed, children, rfl, rfl, fits.before⟩

/-- Lines are read as nodes when they are their rows, and there are as many as the header says. -/
theorem readNodes_eq_ok {header : NnfHeader} {lines : List (List Char × Nat)} {nodes : List NnfNode}
    (small : position ≤ header.nodes) : readNodes header lines position = (nodes, .ok ()) ↔
      position + nodes.length = header.nodes ∧
        List.Forall₂ (fun line node => node.Row line.1) lines nodes ∧
        ∀ (offset : Nat) (node : NnfNode), nodes[offset]? = some node →
          node.Fits header.varCount (position + offset) := by
  induction lines generalizing position nodes with
  | nil =>
    simp only [readNodes, Prod.mk.injEq, Outcome.require_eq_ok, beq_iff_eq, List.forall₂_nil_left_iff]
    constructor
    · rintro ⟨rfl, full⟩
      exact ⟨full, rfl, fun _ _ found => by simp at found⟩
    · rintro ⟨full, rfl, _⟩
      exact ⟨rfl, full⟩
  | cons line lines ih =>
    obtain ⟨text, number⟩ := line
    rw [readNodes]
    by_cases full : header.nodes ≤ position
    · rw [if_pos full]
      refine iff_of_false (by simp [Outcome.fail]) ?_
      rintro ⟨count, rows, _⟩
      obtain ⟨node, nodes, _, _, rfl⟩ := List.forall₂_cons_left_iff.1 rows
      rw [List.length_cons] at count
      omega
    · rw [if_neg full]
      have inside : position + 1 ≤ header.nodes := by omega
      constructor
      · intro taken
        split at taken
        · simp at taken
        · rename_i node read
          obtain ⟨row, fits⟩ := readNode_eq_ok.1 read
          rcases ran : readNodes header lines (position + 1) with ⟨nodes', ending⟩
          simp only [ran, Prod.mk.injEq] at taken
          obtain ⟨rfl, rfl⟩ := taken
          obtain ⟨count, rows, others⟩ := (ih inside).1 ran
          refine ⟨by rw [List.length_cons]; omega, .cons row rows, fun offset other found => ?_⟩
          cases offset with
          | zero =>
            obtain rfl : node = other := by simpa using found
            exact fits
          | succ offset =>
            rw [← Nat.add_assoc, Nat.add_right_comm]
            exact others offset other (by simpa using found)
      · rintro ⟨count, all, fits⟩
        obtain ⟨node, nodes, row, rows, rfl⟩ := List.forall₂_cons_left_iff.1 all
        have read : readNode header.varCount position (text, number) = .ok node :=
          readNode_eq_ok.2 ⟨row, fits 0 node rfl⟩
        have others : readNodes header lines (position + 1) = (nodes, .ok ()) := by
          refine (ih inside).2 ⟨by rw [List.length_cons] at count; omega, rows, fun offset other found => ?_⟩
          rw [Nat.add_assoc, Nat.add_comm 1]
          exact fits (offset + 1) other (by simpa using found)
        simp only [read, others]

end NnfReading

/-! ## The row of a header -/

open Text in
/-- A line that begins with the word `nnf` and the three numbers of a header, blanks in front of each.  What comes
behind the last number is passed over. -/
inductive NnfHeader.Row : List Char → NnfHeader → Prop where
  | mk {first nodes second edges third varCount rest : List Char} (blank_first : Blanks first)
      (written_nodes : WrittenWord nodes) (blank_second : Blanks second) (written_edges : WrittenWord edges)
      (blank_third : Blanks third) (written_varCount : WrittenWord varCount)
      (stopped : ∀ c ∈ rest.head?, c.isDigit = false) :
      Row ("nnf".toList ++ first ++ nodes ++ second ++ edges ++ third ++ (varCount ++ rest))
        { varCount := Numeral.digitsValue varCount, nodes := Numeral.digitsValue nodes,
          edges := Numeral.digitsValue edges }

namespace Text

theorem scanText_eq_some {expected text rest : List Char} :
    scanText expected text = some rest ↔ text = expected ++ rest := by
  induction expected generalizing text with
  | nil => simp [scanText, eq_comm]
  | cons e expected ih =>
    cases text with
    | nil => simp [scanText]
    | cons c text =>
      simp only [scanText, beq_iff_eq, Option.ite_none_right_eq_some, ih, List.cons_append, List.cons.injEq,
        @eq_comm _ c]

theorem WrittenWord.dark {digits : List Char} (written : WrittenWord digits) :
    ∀ c ∈ digits, isWhite c = false :=
  fun c member => isWhite_of_isDigit (written.isDigit c member)

end Text

namespace NnfHeader

variable {line : List Char} {header : NnfHeader}

open Text

theorem row_iff : header.Row line ↔ NnfReading.scanHeader line = some header := by
  constructor
  · rintro ⟨blank_first, written_nodes, blank_second, written_edges, blank_third, written_varCount, stopped⟩
    rename_i first nodes second edges third varCount rest
    have ends : ∀ {word}, WrittenWord word → ∀ text, ∀ c ∈ (word ++ text).head?, isBlank c = false :=
      fun written => isBlank_head written.some_digit written.dark
    simp only [NnfReading.scanHeader, Option.bind_eq_bind, Option.bind_eq_some_iff, List.append_assoc]
    refine ⟨_, scanText_eq_some.2 rfl, _,
      scanBlanks_eq_some.2 ⟨first, rfl, blank_first, ends written_nodes _⟩, ⟨_, _⟩,
      unsigned_eq_some.2 ⟨nodes, rfl, written_nodes, rfl, blank_second.isDigit_head _⟩, _,
      scanBlanks_eq_some.2 ⟨second, rfl, blank_second, ends written_edges _⟩, ⟨_, _⟩,
      unsigned_eq_some.2 ⟨edges, rfl, written_edges, rfl, blank_third.isDigit_head _⟩, _,
      scanBlanks_eq_some.2 ⟨third, rfl, blank_third, ends written_varCount _⟩, ⟨_, _⟩,
      unsigned_eq_some.2 ⟨varCount, rfl, written_varCount, rfl, stopped⟩, rfl⟩
  · intro scanned
    simp only [NnfReading.scanHeader, Option.bind_eq_bind, Option.bind_eq_some_iff] at scanned
    obtain ⟨_, word, _, blanks, ⟨nodes, _⟩, read_nodes, _, blanks', ⟨edges, _⟩, read_edges, _, blanks'',
      ⟨varCount, _⟩, read_varCount, same⟩ := scanned
    obtain rfl := scanText_eq_some.1 word
    obtain ⟨first, rfl, blank_first, _⟩ := scanBlanks_eq_some.1 blanks
    obtain ⟨nodes, rfl, written_nodes, rfl, _⟩ := unsigned_eq_some.1 read_nodes
    obtain ⟨second, rfl, blank_second, _⟩ := scanBlanks_eq_some.1 blanks'
    obtain ⟨edges, rfl, written_edges, rfl, _⟩ := unsigned_eq_some.1 read_edges
    obtain ⟨third, rfl, blank_third, _⟩ := scanBlanks_eq_some.1 blanks''
    obtain ⟨varCount, rfl, written_varCount, rfl, stopped⟩ := unsigned_eq_some.1 read_varCount
    obtain rfl := Option.some.inj same
    have row := Row.mk blank_first written_nodes blank_second written_edges blank_third written_varCount stopped
    simpa only [List.append_assoc] using row

/-- White space at the end of the row makes no difference. -/
theorem row_concat_iff {c : Char} (white : isWhite c = true) : header.Row (line ++ [c]) ↔ header.Row line := by
  constructor
  · intro row
    generalize whole : line ++ [c] = longer at row
    obtain ⟨blank_first, written_nodes, blank_second, written_edges, blank_third, written_varCount, stopped⟩ :=
      row
    obtain ⟨rest, rfl, rfl⟩ := exists_concat_of_dark written_varCount.some_digit written_varCount.dark white whole
    refine .mk blank_first written_nodes blank_second written_edges blank_third written_varCount fun d there => ?_
    exact stopped d (by rw [List.head?_append, Option.mem_def.1 there]; rfl)
  · rintro ⟨blank_first, written_nodes, blank_second, written_edges, blank_third, written_varCount, stopped⟩
    rename_i rest
    have stopped' : ∀ d ∈ (rest ++ [c]).head?, d.isDigit = false := by
      intro d there
      cases rest with
      | nil =>
        obtain rfl := Option.some.inj (Option.mem_def.1 there)
        exact isDigit_eq_false white
      | cons e rest => exact stopped d there
    have row := Row.mk blank_first written_nodes blank_second written_edges blank_third written_varCount stopped'
    simpa only [List.append_assoc] using row

theorem row_trimEnd_iff : header.Row (trimEnd line) ↔ header.Row line := by
  induction line using List.reverseRecOn with
  | nil => rfl
  | append_singleton line c ih =>
    cases white : isWhite c with
    | true =>
      have trimmed : trimEnd (line ++ [c]) = trimEnd line := by simp [trimEnd, white]
      rw [trimmed, ih, row_concat_iff white]
    | false =>
      have kept : trimEnd (line ++ [c]) = line ++ [c] := by simp [trimEnd, white]
      rw [kept]

end NnfHeader

/-! ## The rows of a text -/

namespace Nnf

/-- The line is not blank and does not begin with the letter `c`. -/
def isRow (line : List Char) : Bool := !Text.allWhite line && line.head? != some 'c'

/-- The rows of a text: its lines without those that are blank or begin with the letter `c`. -/
def rows (text : String) : List (List Char) := (text.toList.splitOn '\n').filter isRow

/-- The rows are those of the header and of the nodes, in order. -/
def Laid (text : String) (formula : Nnf) : Prop :=
  ∃ first others, rows text = first :: others ∧ formula.header.Row first ∧
    List.Forall₂ (fun row node => NnfNode.Row row node) others formula.nodes

/-- The formula has as many nodes as its header says, children stand in front of their parents, and literals are
those of the variables, if their number is known. -/
structure Complete (formula : Nnf) : Prop where
  count : formula.nodes.length = formula.header.nodes
  ordered : Ordered formula.nodes
  known : ∀ l, .literal l ∈ formula.nodes → formula.header.varCount = 0 ∨ l.index < formula.header.varCount

theorem isRow_concat (line : List Char) : isRow (line ++ ['\r']) = isRow line := by
  have white : Text.isWhite '\r' = true := by decide
  cases line with
  | nil => decide
  | cons c line => simp [isRow, Text.allWhite, white]

/-- The row is a line, perhaps with a carriage return at the end that belongs to the end of the line. -/
def Ends (row : List Char) (line : List Char × Nat) : Prop := row = line.1 ∨ row = line.1 ++ ['\r']

namespace Ends

variable {row : List Char} {line : List Char × Nat}

theorem isRow_eq (ends : Ends row line) : isRow row = isRow line.1 := by
  rcases ends with rfl | rfl
  · rfl
  · exact isRow_concat line.1

theorem header_iff {header : NnfHeader} (ends : Ends row line) : header.Row row ↔ header.Row line.1 := by
  rcases ends with rfl | rfl
  · rfl
  · exact NnfHeader.row_concat_iff (by decide)

theorem node_iff {node : NnfNode} (ends : Ends row line) : node.Row row ↔ node.Row line.1 := by
  rcases ends with rfl | rfl
  · rfl
  · exact NnfNode.row_concat_iff (by decide)

theorem nodes_iff {rows : List (List Char)} {lines : List (List Char × Nat)} {nodes : List NnfNode}
    (ends : List.Forall₂ Ends rows lines) : List.Forall₂ (fun row node => NnfNode.Row row node) rows nodes ↔
      List.Forall₂ (fun line node => NnfNode.Row line.1 node) lines nodes := by
  induction ends generalizing nodes with
  | nil => rw [List.forall₂_nil_left_iff, List.forall₂_nil_left_iff]
  | cons first _ ih => simp only [List.forall₂_cons_left_iff, first.node_iff, ih]

end Ends

/-- The lines that count are the rows, but for a carriage return at the end. -/
theorem forall₂_rows (text : String) :
    List.Forall₂ Ends (rows text) (NnfReading.contentLines text) := by
  obtain ⟨pieces, split, lined⟩ := Text.forall₂_linesOf '\n' '\r' text.toList
  have kept : rows text = pieces.filter isRow := by
    have blank : isRow [] = false := by decide
    rcases split with split | split
    · rw [rows, split]
    · rw [rows, split, List.filter_append, List.filter_cons_of_neg (by simp [blank]), List.filter_nil,
        List.append_nil]
  change List.Forall₂ _ pieces (Text.lines text) at lined
  rw [← List.zipIdx_map_fst 1 (Text.lines text), List.forall₂_map_right_iff] at lined
  rw [kept]
  refine List.rel_filter (R := Ends) (q := fun line : List Char × Nat => isRow line.1)
    (fun row line ends => ?_) lined
  exact (congrArg (· = true) ends.isRow_eq).to_iff

theorem ofText_eq_ok {text : String} {formula : Nnf} : ofText text = .ok formula ↔
    ∃ first number lines, NnfReading.contentLines text = (first, number) :: lines ∧
      NnfReading.scanHeader (Text.trimEnd first) = some formula.header ∧
        NnfReading.readNodes formula.header lines 0 = (formula.nodes, .ok ()) := by
  simp only [ofText, NnfReading.ofText, Outcome.bind_eq_ok]
  cases counted : NnfReading.contentLines text with
  | nil => simp
  | cons line lines =>
    obtain ⟨first, number⟩ := line
    simp only [Outcome.bind_eq_ok, Outcome.ofOption_eq_ok, List.cons.injEq, Prod.mk.injEq, Except.ok.injEq]
    constructor
    · rintro ⟨_, ⟨header, scanned, rfl⟩, taken⟩
      obtain ⟨_, ended, rfl⟩ := Outcome.map_eq_ok.1 taken
      exact ⟨first, number, lines, ⟨⟨rfl, rfl⟩, rfl⟩, scanned, Prod.ext rfl ended⟩
    · rintro ⟨_, _, _, ⟨⟨rfl, rfl⟩, rfl⟩, scanned, read⟩
      refine ⟨⟨formula.header, formula.nodes, .ok ()⟩, ⟨formula.header, scanned, ?_⟩, rfl⟩
      rw [read]

theorem complete_iff {formula : Nnf} : formula.Complete ↔ formula.nodes.length = formula.header.nodes ∧
    ∀ (position : Nat) (node : NnfNode), formula.nodes[position]? = some node →
      node.Fits formula.header.varCount position := by
  constructor
  · intro complete
    refine ⟨complete.count, fun position node found => ⟨complete.ordered position node found, ?_⟩⟩
    rintro l rfl
    exact complete.known l (List.mem_of_getElem? found)
  · rintro ⟨count, fits⟩
    refine ⟨count, fun position node found => (fits position node found).before, fun l listed => ?_⟩
    obtain ⟨position, found⟩ := List.getElem?_of_mem listed
    exact (fits position _ found).known l rfl

/-- Carriage returns at the ends of lines make no difference. -/
theorem laid_iff {text : String} {formula : Nnf} : formula.Laid text ↔
    ∃ first number lines, NnfReading.contentLines text = (first, number) :: lines ∧ formula.header.Row first ∧
      List.Forall₂ (fun line node => NnfNode.Row line.1 node) lines formula.nodes := by
  have ends := forall₂_rows text
  constructor
  · rintro ⟨first, others, listed, row, rows⟩
    rw [listed, List.forall₂_cons_left_iff] at ends
    obtain ⟨⟨line, number⟩, lines, same, ends, counted⟩ := ends
    exact ⟨line, number, lines, counted, same.header_iff.1 row, (Ends.nodes_iff ends).1 rows⟩
  · rintro ⟨line, number, lines, counted, row, rows⟩
    rw [counted, List.forall₂_cons_right_iff] at ends
    obtain ⟨first, others, same, ends, listed⟩ := ends
    exact ⟨first, others, listed, same.header_iff.2 row, (Ends.nodes_iff ends).2 rows⟩

/-- A text is read as a formula exactly when it is laid out as the formula and the formula is complete. -/
theorem ofText_iff {text : String} {formula : Nnf} :
    ofText text = .ok formula ↔ formula.Laid text ∧ formula.Complete := by
  rw [ofText_eq_ok, laid_iff, complete_iff]
  constructor
  · rintro ⟨first, number, lines, counted, scanned, read⟩
    obtain ⟨count, rows, fits⟩ := (NnfReading.readNodes_eq_ok (Nat.zero_le _)).1 read
    simp only [Nat.zero_add] at count fits
    have row := NnfHeader.row_trimEnd_iff.1 (NnfHeader.row_iff.2 scanned)
    exact ⟨⟨first, number, lines, counted, row, rows⟩, count, fits⟩
  · rintro ⟨⟨first, number, lines, counted, row, rows⟩, count, fits⟩
    have scanned := NnfHeader.row_iff.1 (NnfHeader.row_trimEnd_iff.2 row)
    refine ⟨first, number, lines, counted, scanned, (NnfReading.readNodes_eq_ok (Nat.zero_le _)).2 ?_⟩
    simp only [Nat.zero_add]
    exact ⟨count, rows, fits⟩

/-! ## Plain texts -/

/-- The row of a header in its plain form, a space in front of each number. -/
def plainHeader (header : NnfHeader) : List Char :=
  "nnf".toList ++ [header.nodes, header.edges, header.varCount].flatMap fun number =>
    [' '] ++ (toString number).toList

/-- The rows of a formula in its plain form: the header, and then each node. -/
def plainRows (formula : Nnf) : List (List Char) :=
  plainHeader formula.header :: formula.nodes.map fun node => node.letter :: Text.spacedOut node.numbers

/-- A formula in its plain form, one row on a line. -/
def plainText (formula : Nnf) : String := String.ofList (['\n'].intercalate formula.plainRows)

/-- The numbers of the formula are machine words. -/
structure InRange (formula : Nnf) : Prop where
  header : ∀ number ∈ [formula.header.nodes, formula.header.edges, formula.header.varCount],
    number < Text.wordLimit
  nodes : ∀ node ∈ formula.nodes, ∀ number ∈ node.numbers, Text.IsSigned number

theorem row_plainHeader {header : NnfHeader}
    (small : ∀ number ∈ [header.nodes, header.edges, header.varCount], number < Text.wordLimit) :
    header.Row (plainHeader header) := by
  simp only [List.forall_mem_cons] at small
  obtain ⟨small_nodes, small_edges, small_varCount, _⟩ := small
  have row := NnfHeader.Row.mk Text.blanks_space (Text.writtenWord_toString small_nodes) Text.blanks_space
    (Text.writtenWord_toString small_edges) Text.blanks_space (Text.writtenWord_toString small_varCount)
    (fun c none => absurd none (Option.not_mem_none c) : ∀ c ∈ ([] : List Char).head?, c.isDigit = false)
  simp only [Text.digitsValue_toString] at row
  simpa only [plainHeader, List.flatMap_cons, List.flatMap_nil, List.append_nil, List.append_assoc] using row

theorem notMem_plainHeader {header : NnfHeader}
    (small : ∀ number ∈ [header.nodes, header.edges, header.varCount], number < Text.wordLimit) :
    '\n' ∉ plainHeader header := by
  rw [plainHeader, List.mem_append, List.mem_flatMap]
  rintro (inside | ⟨number, member, inside⟩)
  · exact absurd inside (by decide)
  · rcases List.mem_append.1 inside with inside | inside
    · exact absurd inside (by decide)
    · have dark := (Text.writtenWord_toString (small number member)).dark '\n' inside
      exact absurd dark (by decide)

/-- The rows are found again in the text. -/
theorem rows_plainText {formula : Nnf} (range : formula.InRange) : rows formula.plainText = formula.plainRows := by
  have whole : ∀ row ∈ formula.plainRows, '\n' ∉ row ∧ isRow row = true := by
    simp only [plainRows, List.forall_mem_cons, List.forall_mem_map]
    refine ⟨⟨notMem_plainHeader range.header, rfl⟩, fun node member => ⟨?_, ?_⟩⟩
    · rw [List.mem_cons, not_or]
      exact ⟨by cases node <;> simp [NnfNode.letter], Text.notMem_spacedOut (range.nodes node member)⟩
    · cases node <;> rfl
  rw [rows, plainText, String.toList_ofList, List.splitOn_intercalate '\n' (fun row member => (whole row member).1)
    (List.cons_ne_nil _ _), List.filter_eq_self.2 fun row member => (whole row member).2]

/-- A formula of machine words has a text that is laid out as the formula. -/
theorem laid_plainText {formula : Nnf} (range : formula.InRange) : formula.Laid formula.plainText := by
  refine ⟨_, _, rows_plainText range, row_plainHeader range.header, ?_⟩
  rw [List.forall₂_map_left_iff, List.forall₂_same]
  intro node member
  have some_number : node.numbers ≠ [] := by cases node <;> exact List.cons_ne_nil _ _
  exact ⟨_, rfl, Text.listed_spacedOut some_number (range.nodes node member)⟩

/-- A text is read as a formula exactly when it is laid out as the formula and the formula is complete.  A formula
of machine words is laid out in its plain form. -/
theorem ofText_iff_laid (formula : Nnf) :
    (∀ text, ofText text = .ok formula ↔ formula.Laid text ∧ formula.Complete) ∧
      (formula.InRange → formula.Laid formula.plainText) :=
  ⟨fun _ => ofText_iff, laid_plainText⟩

/-- Six nodes over two variables, of every letter. -/
def sixNodes : Nnf where
  header := { varCount := 2, nodes := 6, edges := 5 }
  nodes := [.literal (.pos 0), .literal (.neg 1), .and [0, 1], .literal (.neg 0), .or (some 0) [2, 3], .and []]

/-- The formula between remarks and blank lines, with more blanks than are needed. -/
def remarkedNodes : String :=
  "c two variables\n\nnnf  6 5\t2 \nL 1\nL   -2\r\nc a conjunction\nA 2 0  1\n   \nL -1\nO 1 2 2 3  \nA 0\n"

theorem ofText_remarkedNodes : ofText remarkedNodes = .ok sixNodes ∧
    sixNodes.Laid remarkedNodes ∧ sixNodes.Complete ∧ sixNodes.Laid sixNodes.plainText := by
  have read : ofText remarkedNodes = .ok sixNodes := by decide +kernel
  obtain ⟨laid, complete⟩ := ((ofText_iff_laid sixNodes).1 remarkedNodes).1 read
  exact ⟨read, laid, complete, (ofText_iff_laid sixNodes).2 ⟨by decide, by decide⟩⟩

end Nnf

end Provenance
