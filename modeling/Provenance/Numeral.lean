/-!
# Written numbers

A number as a reader finds it: a sign, decimal digits and a power of ten, or one of the words for
an infinity and for the value that is no number. Nothing is rounded here; a scalar type rounds
when it takes the numeral over, in one step or, where the format says so, in two.
-/

namespace Provenance

/-- A written number. -/
inductive Numeral where
  /-- `digits * 10 ^ exponent`, negated when `negative`. -/
  | decimal (negative : Bool) (digits : Nat) (exponent : Int)
  /-- The same number, but to be rounded in two steps: first the digits, then their product or
  quotient with the power of ten. -/
  | scaled (negative : Bool) (digits : Nat) (exponent : Int)
  /-- An infinity. -/
  | infinity (negative : Bool)
  /-- The word for a value that is no number. -/
  | notANumber
  deriving DecidableEq, Repr, Inhabited

namespace Numeral

/-- The numeral of a natural number. -/
def ofNat (n : Nat) : Numeral := .decimal false n 0

/-- The value of a list of decimal digits, the most significant first. -/
def digitsValue (digits : List Char) : Nat :=
  digits.foldl (fun value digit => 10 * value + (digit.toNat - '0'.toNat)) 0

/-- The numeral with the given digits before and after the point, times a power of ten. -/
def ofDigits (negative : Bool) (whole fraction : List Char) (power : Int) : Numeral :=
  .decimal negative (digitsValue (whole ++ fraction)) (power - fraction.length)

/-- The value with its sign. -/
def withSign (negative : Bool) (magnitude : Float) : Float :=
  if negative then -magnitude else magnitude

/-- Powers of ten beyond this carry every nonzero numeral of few digits out of the range of
doubles. -/
def powerLimit : Nat := 400

/-- The double nearest to `digits * 10 ^ exponent`, a tie going to the even neighbour. Exponents far
out of range are answered without computing the power of ten. -/
def nearest (digits : Nat) (exponent : Int) : Float :=
  let size : Int := digits.log2 + 1
  if digits = 0 then 0.0
  else if exponent > powerLimit then 1.0 / 0.0
  else if exponent + size < -powerLimit then 0.0
  else Float.ofScientific digits (exponent < 0) exponent.natAbs

/-- The greatest power of ten in the range of doubles. -/
def greatestPower : Nat := 308

/-- A double times `10 ^ exponent`: one product, or quotients by the greatest power until the rest
is in range. Digits that fit a machine word leave nothing after two such quotients, so three
`rounds` are enough. -/
def scale (x : Float) : (rounds : Nat) → (exponent : Int) → Float
  | 0, _ => x
  | rounds + 1, exponent =>
    if 0 ≤ exponent then
      if exponent ≤ greatestPower then x * nearest 1 exponent
      else if x == 0.0 then x
      else 1.0 / 0.0
    else if -exponent ≤ greatestPower then x / nearest 1 (-exponent)
    else scale (x / nearest 1 greatestPower) rounds (exponent + greatestPower)

/-- The double that a numeral stands for. -/
def toFloat : Numeral → Float
  | .notANumber => 0.0 / 0.0
  | .infinity negative => withSign negative (1.0 / 0.0)
  | .decimal negative digits exponent => withSign negative (nearest digits exponent)
  | .scaled negative digits exponent => withSign negative (scale (nearest digits 0) 3 exponent)

/-- Whether the numeral is in the range of doubles. -/
def inRange (numeral : Numeral) : Bool := numeral.toFloat.isFinite

/-- The exact value of a numeral that has one. -/
def toRat? : Numeral → Option Rat
  | .decimal negative digits exponent | .scaled negative digits exponent =>
    let magnitude : Rat := digits * (10 : Rat) ^ exponent
    some (if negative then -magnitude else magnitude)
  | _ => none

end Numeral

end Provenance
