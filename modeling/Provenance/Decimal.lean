/-!
# Decimal text of doubles

A double is printed with the fewest decimal digits that read back as the same double, and among
those with the nearest to its value. `Magnitude` decodes the bits into `mantissa * 2 ^ exponent`;
`Magnitude.shortest` tests, for one digit, two digits and so on, the two neighbours of the value
on that decimal grid, in exact arithmetic. A `DecimalStyle` says how chosen digits are written.
-/

namespace Provenance

/-! ## Decoding -/

/-- A positive double: `mantissa * 2 ^ exponent`. -/
structure Magnitude where
  /-- At most 53 bits. -/
  mantissa : Nat
  /-- The power of two. -/
  exponent : Int
  /-- Whether the next double below is only half as far as the next above. -/
  narrow : Bool
  deriving DecidableEq, Repr

/-- What the bits of a double stand for, apart from its sign. -/
inductive FloatClass where
  | zero
  | positive (magnitude : Magnitude)
  | infinity
  | notANumber

/-- Whether the sign bit is set. -/
def signBit (x : Float) : Bool := x.toBits >>> 63 == 1

/-- The class of a double, from its bits. -/
def FloatClass.of (x : Float) : FloatClass :=
  let bits := x.toBits.toNat % Nat.pow 2 63
  let biased : Nat := bits / Nat.pow 2 52
  let fraction : Nat := bits % Nat.pow 2 52
  if biased = 2047 then (if fraction = 0 then .infinity else .notANumber)
  else if biased = 0 then
    if fraction = 0 then .zero else .positive ⟨fraction, -1074, false⟩
  else .positive ⟨Nat.pow 2 52 + fraction, (biased : Int) - 1075, fraction = 0 ∧ 1 < biased⟩

/-! ## The fewest digits -/

/-- Decimal digits with the place of their point: `digits * 10 ^ exponent`. -/
structure Digits where
  digits : Nat
  exponent : Int
  deriving DecidableEq, Repr

/-- Which of two equally near decimals is written. -/
inductive Tie where
  | up
  | toEven
  deriving DecidableEq, Repr

namespace Magnitude

/-- `x * 2 ^ e * 10 ^ p` as a fraction of naturals. -/
def ratio (x : Nat) (e p : Int) : Nat × Nat :=
  (x * Nat.pow 2 e.toNat * Nat.pow 10 p.toNat, Nat.pow 2 (-e).toNat * Nat.pow 10 (-p).toNat)

/-- The point is behind this many digits: the least `place` with `value < 10 ^ place`, searched
from an estimate by the binary length. -/
def place (m : Magnitude) : Int :=
  let estimate := (m.exponent + m.mantissa.log2) * 30103 / 100000
  let below (place : Int) : Bool :=
    let (numerator, denominator) := ratio m.mantissa m.exponent (-place)
    numerator < denominator
  if below (estimate - 1) then estimate - 1
  else if below estimate then estimate
  else if below (estimate + 1) then estimate + 1
  else estimate + 2

/-- The neighbour of the value on the grid of multiples of `10 ^ power` that reads back, if one
does; of two that do, the nearer one. A decimal reads back when it is nearer to the value than to
the next doubles, or half way to one of them and the mantissa is even. -/
def onGrid? (m : Magnitude) (tie : Tie) (power : Int) : Option Nat :=
  let (value, unit) := ratio (4 * m.mantissa) (m.exponent - 2) (-power)
  let (low, _) := ratio (4 * m.mantissa - if m.narrow then 1 else 2) (m.exponent - 2) (-power)
  let (high, _) := ratio (4 * m.mantissa + 2) (m.exponent - 2) (-power)
  let even := m.mantissa % 2 = 0
  let readsBack (n : Nat) : Bool :=
    if even then low ≤ n * unit && n * unit ≤ high else low < n * unit && n * unit < high
  let down := value / unit
  let up := down + 1
  if readsBack down && down != 0 then
    if readsBack up then
      let fromDown := value - down * unit
      let toUp := up * unit - value
      if fromDown < toUp then some down
      else if toUp < fromDown then some up
      else match tie with
        | .up => some up
        | .toEven => some (if down % 2 = 0 then down else up)
    else some down
  else if readsBack up then some up
  else none

/-- Divides out trailing zeros, at most `count` of them. -/
def trim : (count : Nat) → Digits → Digits
  | 0, d => d
  | count + 1, d =>
    if d.digits % 10 = 0 && d.digits != 0 then trim count ⟨d.digits / 10, d.exponent + 1⟩ else d

/-- The coarsest of the grids with `from`, `from + 1`, … digits that holds a decimal reading
back; seventeen digits always do. -/
def search (m : Magnitude) (tie : Tie) : (remaining : Nat) → (power : Int) → Digits
  | 0, power => ⟨m.mantissa, power⟩
  | remaining + 1, power =>
    match m.onGrid? tie power with
    | some digits => ⟨digits, power⟩
    | none => search m tie remaining (power - 1)

/-- The fewest digits that read back, and among those the nearest to the value. -/
def shortest (m : Magnitude) (tie : Tie) : Digits := trim 20 (m.search tie 17 (m.place - 1))

end Magnitude

/-! ## Writing -/

/-- How the digits of a number are written. -/
structure DecimalStyle where
  /-- Which of two equally near decimals is taken. -/
  tie : Tie
  /-- Without exponent are written numbers whose point stands behind `place` digits, for these
  places. -/
  positional : Int → Bool
  /-- Whether a whole number ends in `.0`. -/
  wholeMark : Bool

namespace DecimalStyle

/-- In formulas, messages and weights: never an exponent, whole numbers bare. -/
def plain : DecimalStyle := ⟨.up, fun _ => true, false⟩

/-- In result files: whole numbers end in `.0`; numbers below `0.00001` or from `10 ^ 16` on have
an exponent. -/
def result : DecimalStyle := ⟨.toEven, fun place => -5 < place && place ≤ 16, true⟩

/-- The text of positive digits. -/
def render (style : DecimalStyle) (d : Digits) : String :=
  let figures := (Nat.toDigits 10 d.digits)
  let count : Int := figures.length
  let place := count + d.exponent
  let zeros (n : Int) : List Char := List.replicate n.toNat '0'
  let whole (text : List Char) : List Char := if style.wholeMark then text ++ ".0".toList else text
  String.ofList <|
    if style.positional place then
      if 0 ≤ d.exponent then whole (figures ++ zeros d.exponent)
      else if 0 < place then figures.take place.toNat ++ '.' :: figures.drop place.toNat
      else '0' :: '.' :: zeros (-place) ++ figures
    else
      let mantissa := if count = 1 then figures else figures.take 1 ++ '.' :: figures.drop 1
      mantissa ++ 'e' :: (toString (place - 1)).toList

/-- The text of a double. -/
def text (style : DecimalStyle) (x : Float) : String :=
  let sign := if signBit x then "-" else ""
  match FloatClass.of x with
  | .notANumber => "NaN"
  | .infinity => sign ++ "inf"
  | .zero => sign ++ if style.wholeMark then "0.0" else "0"
  | .positive magnitude => sign ++ style.render (magnitude.shortest style.tie)

end DecimalStyle

end Provenance
