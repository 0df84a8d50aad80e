/-!
# Reading UTF-8

Bytes become characters by the table of well-formed sequences. The strict reader refuses
ill-formed bytes; the lenient one writes the replacement character once for each longest piece
that starts a well-formed sequence without finishing it, or for a byte that starts none.
-/

namespace Provenance.Text.Utf8

/-- The character that stands for ill-formed bytes. -/
def replacement : Char := Char.ofNat 0xFFFD

/-- For a leading byte: how many bytes follow it, the range of the first of them, and the bits it
contributes. -/
def lead? (byte : Nat) : Option (Nat × Nat × Nat × Nat) :=
  if byte < 0x80 then some (0, 0, 0, byte)
  else if 0xC2 ≤ byte ∧ byte ≤ 0xDF then some (1, 0x80, 0xBF, byte - 0xC0)
  else if byte = 0xE0 then some (2, 0xA0, 0xBF, 0)
  else if byte = 0xED then some (2, 0x80, 0x9F, 0xD)
  else if 0xE1 ≤ byte ∧ byte ≤ 0xEF then some (2, 0x80, 0xBF, byte - 0xE0)
  else if byte = 0xF0 then some (3, 0x90, 0xBF, 0)
  else if 0xF1 ≤ byte ∧ byte ≤ 0xF3 then some (3, 0x80, 0xBF, byte - 0xF0)
  else if byte = 0xF4 then some (3, 0x80, 0x8F, 4)
  else none

/-- Where a decoder stands between bytes. -/
structure Pending where
  /-- How many bytes of the current character are still owed; none between characters. -/
  owed : Nat := 0
  /-- The least value of the next byte. -/
  low : Nat := 0x80
  /-- The greatest value of the next byte. -/
  high : Nat := 0xBF
  /-- The bits of the current character so far. -/
  bits : Nat := 0

/-- What a byte between two characters does: a finished character, a started one, or nothing
well-formed. -/
def start (byte : Nat) : Option Char × Pending :=
  match lead? byte with
  | none => (some replacement, {})
  | some (0, _, _, bits) => (some (Char.ofNat bits), {})
  | some (owed, low, high, bits) => (none, { owed, low, high, bits })

/-- The characters of `bytes`, pieces that are not well formed replaced. -/
def lenientFrom (pending : Pending) : List UInt8 → List Char
  | [] => if pending.owed = 0 then [] else [replacement]
  | byte :: rest =>
    let byte := byte.toNat
    if pending.owed = 0 then
      let (finished, pending) := start byte
      finished.toList ++ lenientFrom pending rest
    else if pending.low ≤ byte ∧ byte ≤ pending.high then
      let bits := pending.bits * 64 + byte % 64
      if pending.owed = 1 then Char.ofNat bits :: lenientFrom {} rest
      else lenientFrom { owed := pending.owed - 1, bits } rest
    else
      let (finished, pending) := start byte
      replacement :: finished.toList ++ lenientFrom pending rest

/-- The text of `bytes`, pieces that are not well formed replaced. -/
def lenient (bytes : ByteArray) : String := String.ofList (lenientFrom {} bytes.toList)

/-- The text of well-formed bytes. -/
def strict? (bytes : ByteArray) : Option String := String.fromUTF8? bytes

end Provenance.Text.Utf8
