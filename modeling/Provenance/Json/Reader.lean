import Provenance.Json.Basic
import Provenance.Text.Scan

/-!
# Reading JSON

The strict grammar: no comments, no trailing commas, no leading zeros, no raw control characters
in strings, nothing behind the value. Every nested value takes a character, so the length of the
text bounds the depth.
-/

namespace Provenance.Json

open Text (Scanned)

/-- Blanks between tokens. -/
def isSpace (c : Char) : Bool := c == ' ' || c == '\t' || c == '\n' || c == '\r'

/-- Drops blanks. -/
def skipSpace (text : List Char) : List Char := text.dropWhile isSpace

/-! ## Strings -/

/-- The value of a hexadecimal digit. -/
def hexDigit? (c : Char) : Option Nat :=
  if '0' ≤ c ∧ c ≤ '9' then some (c.toNat - '0'.toNat)
  else if 'a' ≤ c ∧ c ≤ 'f' then some (c.toNat - 'a'.toNat + 10)
  else if 'A' ≤ c ∧ c ≤ 'F' then some (c.toNat - 'A'.toNat + 10)
  else none

/-- Expects four hexadecimal digits. -/
def scanUnit : List Char → Scanned Nat
  | a :: b :: c :: d :: rest =>
    match hexDigit? a, hexDigit? b, hexDigit? c, hexDigit? d with
    | some a, some b, some c, some d => some (((a * 16 + b) * 16 + c) * 16 + d, rest)
    | _, _, _, _ => none
  | _ => none

/-- Whether a code unit is the first of a pair. -/
def isHighSurrogate (u : Nat) : Bool := 0xD800 ≤ u && u ≤ 0xDBFF

/-- Whether a code unit is the second of a pair. -/
def isLowSurrogate (u : Nat) : Bool := 0xDC00 ≤ u && u ≤ 0xDFFF

/-- The character that a letter behind a backslash stands for. -/
def simpleEscape? : Char → Option Char
  | '"' => some '"'
  | '\\' => some '\\'
  | '/' => some '/'
  | 'b' => some '\x08'
  | 'f' => some '\x0c'
  | 'n' => some '\n'
  | 'r' => some '\r'
  | 't' => some '\t'
  | _ => none

/-- What is behind a backslash: a character, or none for a surrogate without its partner. -/
def scanEscape (text : List Char) : Scanned (Option Char) :=
  match text with
  | 'u' :: rest =>
    match scanUnit rest with
    | none => none
    | some (unit, rest) =>
      if isLowSurrogate unit then some (none, rest)
      else if isHighSurrogate unit then
        match rest with
        | '\\' :: 'u' :: after =>
          match scanUnit after with
          | some (low, after) =>
            if isLowSurrogate low then
              some (some (Char.ofNat (0x10000 + (unit - 0xD800) * 1024 + (low - 0xDC00))), after)
            else some (none, rest)
          | none => some (none, rest)
        | _ => some (none, rest)
      else some (some (Char.ofNat unit), rest)
  | c :: rest => (simpleEscape? c).map fun c => (some c, rest)
  | [] => none

/-- The characters of a string up to its closing quote; `done` holds those already read, in
reverse, or nothing once a surrogate had no partner. -/
def scanString : (fuel : Nat) → (done : Option (List Char)) → List Char → Scanned (Option String)
  | 0, _, _ => none
  | _ + 1, _, [] => none
  | fuel + 1, done, c :: rest =>
    if c == '"' then some (done.map fun done => String.ofList done.reverse, rest)
    else if c == '\\' then
      match scanEscape rest with
      | some (escaped, rest) =>
        let done := match done, escaped with
          | some done, some c => some (c :: done)
          | _, _ => none
        scanString fuel done rest
      | none => none
    else if c.toNat < 0x20 then none
    else scanString fuel (done.map (c :: ·)) rest

/-! ## Numbers -/

/-- Expects the digits behind a point, if there is one. -/
def scanFraction : List Char → Scanned (List Char)
  | '.' :: rest => (Text.scanDigits rest).map fun (digits, rest) => ('.' :: digits, rest)
  | text => some ([], text)

/-- Expects an exponent, if its mark is there. -/
def scanExponent (text : List Char) : Scanned (List Char) :=
  match text with
  | mark :: rest =>
    if mark == 'e' || mark == 'E' then
      let (sign, digits) := match rest with
        | '+' :: rest => (['+'], rest)
        | '-' :: rest => (['-'], rest)
        | _ => ([], rest)
      (Text.scanDigits digits).map fun (digits, rest) => (mark :: sign ++ digits, rest)
    else some ([], text)
  | [] => some ([], [])

/-- Expects a number. -/
def scanNumber (text : List Char) : Option (String × List Char) := do
  let (sign, text) := match text with
    | '-' :: rest => (['-'], rest)
    | _ => ([], text)
  let (whole, text) ← match text with
    | '0' :: rest => some (['0'], rest)
    | _ => Text.scanDigits text
  if (text.head?.map Char.isDigit).getD false then none
  else
    let (fraction, text) ← scanFraction text
    let (exponent, text) ← scanExponent text
    some (String.ofList (sign ++ whole ++ fraction ++ exponent), text)

/-! ## Values -/

mutual

/-- Expects a value, perhaps after blanks. -/
def scanValue : (fuel : Nat) → List Char → Scanned Json
  | 0, _ => none
  | fuel + 1, text =>
    match skipSpace text with
    | '"' :: rest => (scanString rest.length (some []) rest).map fun (s, rest) => (.string s, rest)
    | '[' :: rest =>
      match skipSpace rest with
      | ']' :: rest => some (.array [], rest)
      | rest => (scanItems fuel rest).map fun (items, rest) => (.array items, rest)
    | '\x7b' :: rest =>
      match skipSpace rest with
      | '\x7d' :: rest => some (.object [], rest)
      | rest => (scanFields fuel rest).map fun (fields, rest) => (.object fields, rest)
    | text =>
      match Text.scanText "null".toList text with
      | some rest => some (.null, rest)
      | none =>
        match Text.scanText "true".toList text with
        | some rest => some (.bool true, rest)
        | none =>
          match Text.scanText "false".toList text with
          | some rest => some (.bool false, rest)
          | none => (scanNumber text).map fun (written, rest) => (.number written, rest)

/-- Expects the items of an array up to its closing bracket. -/
def scanItems : (fuel : Nat) → List Char → Scanned (List Json)
  | 0, _ => none
  | fuel + 1, text =>
    match scanValue fuel text with
    | none => none
    | some (item, rest) =>
      match skipSpace rest with
      | ',' :: rest => (scanItems fuel rest).map fun (items, rest) => (item :: items, rest)
      | ']' :: rest => some ([item], rest)
      | _ => none

/-- Expects the fields of an object up to its closing brace. -/
def scanFields : (fuel : Nat) → List Char → Scanned (List (Option String × Json))
  | 0, _ => none
  | fuel + 1, text =>
    match skipSpace text with
    | '"' :: rest =>
      match scanString rest.length (some []) rest with
      | none => none
      | some (name, rest) =>
        match skipSpace rest with
        | ':' :: rest =>
          match scanValue fuel rest with
          | none => none
          | some (value, rest) =>
            match skipSpace rest with
            | ',' :: rest =>
              (scanFields fuel rest).map fun (fields, rest) => ((name, value) :: fields, rest)
            | '\x7d' :: rest => some ([(name, value)], rest)
            | _ => none
        | _ => none
    | _ => none

end

/-- The value that is the whole text. -/
def read? (text : List Char) : Option Json :=
  match scanValue (2 * text.length + 2) text with
  | some (json, rest) => if (skipSpace rest).isEmpty then some json else none
  | none => none

/-! ## Numerals -/

/-- Takes digits behind `value` as long as they fit a machine word; what is left starts with the
first digit that does not fit. -/
def takeDigits (value : Nat) : List Char → Nat × List Char
  | [] => (value, [])
  | digit :: rest =>
    let longer := 10 * value + (digit.toNat - '0'.toNat)
    if longer < Text.wordLimit then takeDigits longer rest else (value, digit :: rest)

/-- The power of ten behind an exponent mark; zero where there is none. -/
def exponentOf : List Char → Int
  | [] => 0
  | _ :: rest =>
    let (sign, digits) := Text.scanSign rest
    let power : Int := Numeral.digitsValue digits
    if sign == some true then -power else power

/-- A written number as a numeral. Only digits that fit a machine word count; those that do not are
dropped, before the point for a power of ten each. -/
def numeral? : Json → Option Numeral
  | .number written => do
    let (sign, text) := Text.scanSign written.toList
    let ((whole, fraction), rest) ← Text.scanMantissa text
    let (value, dropped) := takeDigits 0 whole
    let (value, left) := takeDigits value fraction
    let places : Int := fraction.length - left.length
    some (.scaled (sign == some true) value (dropped.length - places + exponentOf rest))
  | _ => none

end Provenance.Json
