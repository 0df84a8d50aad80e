import Provenance.Json.Basic

/-!
# Printing JSON

Two layouts: everything on one line in ASCII, and one item a line with an indentation of two
spaces, characters beyond ASCII as they are.
-/

namespace Provenance.Json

/-- A code unit as four hexadecimal digits. -/
def hexUnit (u : Nat) : List Char :=
  let digits := Nat.toDigits 16 u
  List.replicate (4 - digits.length) '0' ++ digits

/-- An escape by code units, a pair of them for a character beyond the first plane. -/
def unitEscape (c : Char) : List Char :=
  let n := c.toNat
  let unit (u : Nat) : List Char := '\\' :: 'u' :: hexUnit u
  if n < 0x10000 then unit n
  else unit (0xD800 + (n - 0x10000) / 1024) ++ unit (0xDC00 + (n - 0x10000) % 1024)

/-- The written form of a character of a string. -/
def escape (ascii : Bool) (c : Char) : List Char :=
  match c with
  | '"' => ['\\', '"']
  | '\\' => ['\\', '\\']
  | '\x08' => ['\\', 'b']
  | '\x0c' => ['\\', 'f']
  | '\n' => ['\\', 'n']
  | '\r' => ['\\', 'r']
  | '\t' => ['\\', 't']
  | c => if c.toNat < 0x20 || (ascii && 0x7F ≤ c.toNat) then unitEscape c else [c]

/-- A string in quotes; a string without text is written empty. -/
def quote (ascii : Bool) (text : Option String) : String :=
  String.ofList ('"' :: (text.getD "").toList.flatMap (escape ascii) ++ ['"'])

mutual

/-- A value on one line. -/
def compact : Json → String
  | .null => "null"
  | .bool value => if value then "true" else "false"
  | .number written => written
  | .string text => quote true text
  | .array items => "[" ++ compactItems items ++ "]"
  | .object fields => "\x7b" ++ compactFields fields ++ "\x7d"

/-- Items on one line. -/
def compactItems : List Json → String
  | [] => ""
  | [item] => compact item
  | item :: items => compact item ++ "," ++ compactItems items

/-- Fields on one line. -/
def compactFields : List (Option String × Json) → String
  | [] => ""
  | [(name, value)] => quote true name ++ ":" ++ compact value
  | (name, value) :: fields =>
    quote true name ++ ":" ++ compact value ++ "," ++ compactFields fields

end

/-- A line break and the indentation of a depth. -/
def newline (depth : Nat) : String := "\n" ++ String.ofList (List.replicate (2 * depth) ' ')

mutual

/-- A value over several lines, at a depth of nesting. -/
def pretty (depth : Nat) : Json → String
  | .null => "null"
  | .bool value => if value then "true" else "false"
  | .number written => written
  | .string text => quote false text
  | .array [] => "[]"
  | .array (item :: items) =>
    "[" ++ prettyItems (depth + 1) (item :: items) ++ newline depth ++ "]"
  | .object [] => "\x7b\x7d"
  | .object (field :: fields) =>
    "\x7b" ++ prettyFields (depth + 1) (field :: fields) ++ newline depth ++ "\x7d"

/-- Items, each on its own line. -/
def prettyItems (depth : Nat) : List Json → String
  | [] => ""
  | [item] => newline depth ++ pretty depth item
  | item :: items => newline depth ++ pretty depth item ++ "," ++ prettyItems depth items

/-- Fields, each on its own line. -/
def prettyFields (depth : Nat) : List (Option String × Json) → String
  | [] => ""
  | [(name, value)] => newline depth ++ quote false name ++ ": " ++ pretty depth value
  | (name, value) :: fields =>
    newline depth ++ quote false name ++ ": " ++ pretty depth value ++ "," ++
      prettyFields depth fields

end

end Provenance.Json
