import Provenance.Json.Reader
import Provenance.Record.Basic

/-!
# Records in JSON

A record is an object with the fields `id`, `gate`, `children`, `prob` and `key`, or an array of
their values in this order. The name and the kind must be there. `children` may be left out,
`prob` and `key` may also be null; in an array only values at the end may be left out. Other fields
are passed over, and none of the five may be repeated.
-/

namespace Provenance.Record

/-- A kind: its word, or an object with the word as only field and null as its value. -/
def kindOf? : Json → Option Kind
  | .string (some word) => Kind.ofWord? word
  | .object [(some word, .null)] => Kind.ofWord? word
  | _ => none

/-- The texts of an array of strings. -/
def textsOf? (json : Json) : Option (List String) := json.items?.bind (·.mapM Json.text?)

/-- A number in the range of doubles, or null. -/
def probOf? : Json → Option (Option Numeral)
  | .null => some none
  | json =>
    match json.numeral? with
    | some numeral => if numeral.inRange then some (some numeral) else none
    | none => none

/-- A key, or null. -/
def keyOf? : Json → Option (Option Nat)
  | .null => some none
  | json =>
    match json.natural? with
    | some key => if key < keyLimit then some (some key) else none
    | none => none

/-- The record of the values of its fields, where they were given. -/
def ofValues? (id kind children prob key : Option Json) : Option Record := do
  let id ← (← id).text?
  let kind ← kindOf? (← kind)
  let children ← match children with
    | some json => textsOf? json
    | none => some []
  let prob ← match prob with
    | some json => probOf? json
    | none => some none
  let key ← match key with
    | some json => keyOf? json
    | none => some none
  some { id, kind, children, prob, key }

/-- The names of the fields. -/
def fieldNames : List String := ["id", "gate", "children", "prob", "key"]

/-- Whether every name is well formed and no field of a record is given twice. -/
def wellNamed (fields : List (Option String × Json)) : Bool :=
  fields.all (·.1.isSome) &&
    fieldNames.all fun name => (fields.filter (·.1 == some name)).length ≤ 1

/-- The record of a JSON value. -/
def ofJson? (json : Json) : Option Record :=
  match json with
  | .object fields =>
    if wellNamed fields then
      ofValues? (json.field? "id") (json.field? "gate") (json.field? "children")
        (json.field? "prob") (json.field? "key")
    else none
  | .array items =>
    if items.length ≤ fieldNames.length then
      ofValues? items[0]? items[1]? items[2]? items[3]? items[4]?
    else none
  | _ => none

/-- The record of a line. -/
def ofLine? (line : List Char) : Option Record := (Json.read? line).bind ofJson?

end Provenance.Record
