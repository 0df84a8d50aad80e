/-!
# White space

The characters of the Unicode property `White_Space`, and cutting text at them. Two narrower sets
are used by the readers: blanks within a line, and blanks that may also end one.
-/

namespace Provenance.Text

/-- The Unicode property `White_Space`. -/
def isWhite (c : Char) : Bool :=
  let n := c.toNat
  (9 ≤ n && n ≤ 13) || n == 0x20 || n == 0x85 || n == 0xA0 || n == 0x1680 ||
    (0x2000 ≤ n && n ≤ 0x200A) || n == 0x2028 || n == 0x2029 || n == 0x202F || n == 0x205F ||
    n == 0x3000

/-- A blank within a line: a space or a tab. -/
def isBlank (c : Char) : Bool := c == ' ' || c == '\t'

/-- A blank of a free layout: a space, a tab or an end of line. -/
def isLayout (c : Char) : Bool := isBlank c || c == '\r' || c == '\n'

theorem isWhite_of_isWhitespace {c : Char} (white : c.isWhitespace) : isWhite c := by
  simp only [Char.isWhitespace, Bool.or_eq_true, decide_eq_true_eq] at white
  rcases white with ((rfl | rfl) | rfl) | rfl <;> decide

/-- Drops white space at the start. -/
def trimStart (text : List Char) : List Char := text.dropWhile isWhite

/-- Drops white space at the end. -/
def trimEnd (text : List Char) : List Char := (text.reverse.dropWhile isWhite).reverse

/-- Drops white space at both ends. -/
def trim (text : List Char) : List Char := trimEnd (trimStart text)

/-- Whether there is nothing but white space. -/
def allWhite (text : List Char) : Bool := text.all isWhite

/-- The maximal runs without white space, from left to right, `current` being the run already
begun, last character first. -/
def wordsFrom (current : List Char) : List Char → List (List Char)
  | [] => if current.isEmpty then [] else [current.reverse]
  | c :: rest =>
    if isWhite c then
      if current.isEmpty then wordsFrom [] rest else current.reverse :: wordsFrom [] rest
    else wordsFrom (c :: current) rest

/-- The maximal runs without white space, from left to right. -/
def words (text : List Char) : List (List Char) := wordsFrom [] text

end Provenance.Text
