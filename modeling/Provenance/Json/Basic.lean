import Provenance.Numeral

/-!
# JSON values

A value keeps the written form of its numbers, since some readers take only integers, and keeps
whether a string could be decoded: an escaped surrogate without its partner stands for no text. The
fields of an object stay in the order they were written, repeated ones included.
-/

namespace Provenance

/-- A JSON value. -/
inductive Json where
  | null
  | bool (value : Bool)
  /-- A number as written. -/
  | number (written : String)
  /-- A string; no text when it holds a surrogate without its partner. -/
  | string (text : Option String)
  | array (items : List Json)
  | object (fields : List (Option String × Json))
  deriving Inhabited

namespace Json

/-- The string of a text. -/
def text (s : String) : Json := .string (some s)

/-- The number of a natural. -/
def nat (n : Nat) : Json := .number (toString n)

/-- The number of an integer. -/
def int (n : Int) : Json := .number (toString n)

/-- The object of fields. -/
def record (fields : List (String × Json)) : Json :=
  .object (fields.map fun (name, value) => (some name, value))

/-- The text of a string that has one. -/
def text? : Json → Option String
  | .string text => text
  | _ => none

/-- The items of an array. -/
def items? : Json → Option (List Json)
  | .array items => some items
  | _ => none

/-- The first field of an object with a name. -/
def field? (json : Json) (name : String) : Option Json :=
  match json with
  | .object fields => fields.lookup (some name)
  | _ => none

/-- The characters of a written integer, a lone negative zero excepted. -/
def integerOf? (written : List Char) : Option Int :=
  match written with
  | ['-', '0'] => none
  | '-' :: digits =>
    if digits.all Char.isDigit then some (-(Numeral.digitsValue digits : Int)) else none
  | digits => if digits.all Char.isDigit then some (Numeral.digitsValue digits) else none

/-- The value of a number written as an integer. -/
def integer? : Json → Option Int
  | .number written => integerOf? written.toList
  | _ => none

/-- The value of a number written as a natural number. -/
def natural? (json : Json) : Option Nat :=
  match json.integer? with
  | some (.ofNat n) => some n
  | _ => none

end Json

end Provenance
