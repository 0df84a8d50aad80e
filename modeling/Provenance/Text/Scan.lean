import Provenance.Numeral
import Provenance.Text.Blank

/-!
# Scanners

A scanner takes the start of a list of characters and answers what it read with the rest, or
nothing. Integers are read as machine words: a value out of range is not read at all. Readers of
whole texts (`readNatural`, `readFloat?`) stand beside them.
-/

namespace Provenance.Text

/-- What a scanner answers: a value and the rest of the text. -/
abbrev Scanned (β : Type) := Option (β × List Char)

/-- One more than the greatest unsigned word. -/
def wordLimit : Nat := Nat.pow 2 64

/-- One more than the greatest signed word. -/
def signedLimit : Nat := Nat.pow 2 63

/-! ## Pieces -/

/-- Expects the characters of `expected`. -/
def scanText : (expected : List Char) → List Char → Option (List Char)
  | [], rest => some rest
  | e :: expected, c :: rest => if e == c then scanText expected rest else none
  | _ :: _, [] => none

/-- Expects the letters of `expected`, given in lower case, in either case. -/
def scanWord : (expected : List Char) → List Char → Option (List Char)
  | [], rest => some rest
  | e :: expected, c :: rest => if e == c.toLower then scanWord expected rest else none
  | _ :: _, [] => none

/-- Drops blanks. -/
def skipBlanks (text : List Char) : List Char := text.dropWhile isBlank

/-- Drops blanks and ends of lines. -/
def skipLayout (text : List Char) : List Char := text.dropWhile isLayout

/-- Expects at least one blank. -/
def scanBlanks (text : List Char) : Option (List Char) :=
  if (text.takeWhile isBlank).isEmpty then none else some (skipBlanks text)

/-- Expects at least one decimal digit. -/
def scanDigits (text : List Char) : Scanned (List Char) :=
  let digits := text.takeWhile Char.isDigit
  if digits.isEmpty then none else some (digits, text.dropWhile Char.isDigit)

/-- Expects at least one letter of the Latin alphabet. -/
def scanLetters (text : List Char) : Scanned (List Char) :=
  let letters := text.takeWhile Char.isAlpha
  if letters.isEmpty then none else some (letters, text.dropWhile Char.isAlpha)

/-- Expects a line feed, alone or after a carriage return, or the end of the text. -/
def scanBreak : List Char → Scanned (List Char)
  | [] => some ([], [])
  | '\n' :: rest => some (['\n'], rest)
  | '\r' :: '\n' :: rest => some (['\r', '\n'], rest)
  | _ => none

/-- Expects the end of a line, perhaps after blanks. -/
def endOfLine (text : List Char) : Scanned (List Char) := scanBreak (skipBlanks text)

/-! ## Integers -/

/-- Expects an unsigned word. -/
def unsigned (text : List Char) : Scanned Nat :=
  match scanDigits text with
  | some (digits, rest) =>
    let value := Numeral.digitsValue digits
    if value < wordLimit then some (value, rest) else none
  | none => none

/-- Expects a signed word, with a minus sign when it is negative. -/
def signed (text : List Char) : Scanned Int :=
  let (negative, text) := match text with
    | '-' :: rest => (true, rest)
    | _ => (false, text)
  match scanDigits text with
  | some (digits, rest) =>
    let value := Numeral.digitsValue digits
    if negative then if value ≤ signedLimit then some (-(value : Int), rest) else none
    else if value < signedLimit then some ((value : Int), rest) else none
  | none => none

/-- The signed words that follow, each after blanks, and the rest from the blanks after the last
one on; `fuel` bounds their number. -/
def moreIntegers : (fuel : Nat) → List Char → List Int × List Char
  | 0, text => ([], text)
  | fuel + 1, text =>
    match scanBlanks text with
    | none => ([], text)
    | some after =>
      match signed after with
      | none => ([], text)
      | some (value, rest) =>
        let (values, rest) := moreIntegers fuel rest
        (value :: values, rest)

/-- Expects at least one signed word, the first perhaps after blanks and each other after at least
one. Every word takes a character, so the length of the text bounds their number. -/
def integers (text : List Char) : Scanned (List Int) :=
  match signed (skipBlanks text) with
  | none => none
  | some (value, rest) =>
    let (values, rest) := moreIntegers rest.length rest
    some (value :: values, rest)

/-- The unsigned words of a free layout, and the rest after the last one. -/
def naturals : (fuel : Nat) → List Char → List Nat × List Char
  | 0, text => ([], text)
  | fuel + 1, text =>
    match unsigned (skipLayout text) with
    | none => ([], text)
    | some (value, rest) =>
      let (values, rest) := naturals fuel rest
      (value :: values, rest)

/-- Why a whole text is no integer. -/
inductive IntegerDefect where
  | empty
  | invalidDigit
  | tooLarge
  deriving DecidableEq, Repr

/-- The wording of a defect. -/
def IntegerDefect.message : IntegerDefect → String
  | .empty => "cannot parse integer from empty string"
  | .invalidDigit => "invalid digit found in string"
  | .tooLarge => "number too large to fit in target type"

/-- The value of digits read after `value`; the first character that is no digit or leads out of
range decides. -/
def readDigits (limit : Nat) (value : Nat) : List Char → Except IntegerDefect Nat
  | [] => .ok value
  | c :: rest =>
    if c.isDigit then
      let value := 10 * value + (c.toNat - '0'.toNat)
      if value < limit then readDigits limit value rest else .error .tooLarge
    else .error .invalidDigit

/-- The natural number below `limit` that is the whole text, perhaps after a plus sign. -/
def readNatural (limit : Nat) (text : List Char) : Except IntegerDefect Nat :=
  match text with
  | [] => .error .empty
  | '+' :: c :: rest => readDigits limit 0 (c :: rest)
  | _ => readDigits limit 0 text

/-- The signed word that is the whole text. -/
def readInteger? (text : List Char) : Option Int :=
  match text with
  | '-' :: c :: rest =>
    match readDigits (signedLimit + 1) 0 (c :: rest) with
    | .ok value => some (-(value : Int))
    | .error _ => none
  | _ =>
    match readNatural signedLimit text with
    | .ok value => some value
    | .error _ => none

/-! ## Numbers with a fraction -/

/-- A sign, if there is one: whether it is a minus. -/
def scanSign : List Char → Option Bool × List Char
  | '+' :: rest => (some false, rest)
  | '-' :: rest => (some true, rest)
  | text => (none, text)

/-- Digits, perhaps with a point and digits behind it, or a point and at least one digit. -/
def scanMantissa (text : List Char) : Scanned (List Char × List Char) :=
  match scanDigits text with
  | some (whole, '.' :: rest) =>
    some ((whole, rest.takeWhile Char.isDigit), rest.dropWhile Char.isDigit)
  | some (whole, rest) => some ((whole, []), rest)
  | none =>
    match text with
    | '.' :: rest => (scanDigits rest).map fun (fraction, rest) => (([], fraction), rest)
    | _ => none

/-- What a scanner of numbers answers when the text may begin like a number and not be one. -/
inductive NumberScan where
  | found (value : Numeral) (rest : List Char)
  | absent
  /-- An exponent mark without digits behind it: no other reading is tried. -/
  | broken

/-- Expects a number: an optional sign, a mantissa and an optional exponent, or one of the words
`nan` and `inf` without a sign, in either case. -/
def scanNumber (text : List Char) : NumberScan :=
  let (sign, unsignedText) := scanSign text
  let negative := sign == some true
  match scanMantissa unsignedText with
  | some ((whole, fraction), mark :: rest) =>
    if mark == 'e' || mark == 'E' then
      let (sign, rest) := scanSign rest
      match scanDigits rest with
      | some (digits, rest) =>
        let power : Int := Numeral.digitsValue digits
        .found (Numeral.ofDigits negative whole fraction
          (if sign == some true then -power else power)) rest
      | none => .broken
    else .found (Numeral.ofDigits negative whole fraction 0) (mark :: rest)
  | some ((whole, fraction), []) => .found (Numeral.ofDigits negative whole fraction 0) []
  | none =>
    match scanWord "nan".toList text, scanWord "inf".toList text with
    | some rest, _ => .found .notANumber rest
    | none, some rest => .found (.infinity false) rest
    | none, none => .absent

/-- The number that is the whole text: an optional sign before a mantissa with an optional
exponent or before one of the words `nan`, `inf` and `infinity`, in either case. -/
def readFloat? (text : List Char) : Option Numeral :=
  let (sign, rest) := scanSign text
  let negative := sign == some true
  let word := String.ofList (rest.map Char.toLower)
  if word == "nan" then some .notANumber
  else if word == "inf" || word == "infinity" then some (.infinity negative)
  else if (scanMantissa rest).isNone then none
  else
    match scanNumber text with
    | .found value [] => some value
    | _ => none

end Provenance.Text
