import Polyphony.Number.Exact

/-! # Floats in decimal

A float is written with the fewest digits that read back as the same float, or with
a fixed number of places. Both texts are positional and come from exact natural
arithmetic on the mantissa and the exponent.
-/
namespace Polyphony.Number

/-- The value `digits * 10 ^ exponent`. -/
structure Decimal where
  digits : Nat
  exponent : Int
deriving DecidableEq, Repr

/-- The reals that round to `mantissa * 2 ^ exponent`, in units of a quarter of the
last place. The gap below a power of two is half as wide. -/
structure Interval where
  low : Nat
  middle : Nat
  high : Nat
  closed : Bool

def Interval.around (x : Exact) : Interval where
  low := 4 * x.mantissa - if x.mantissa = 1 <<< 52 ∧ -1074 < x.exponent then 1 else 2
  middle := 4 * x.mantissa
  high := 4 * x.mantissa + 2
  closed := x.mantissa % 2 = 0

/-- Whether `a` lies in the interval whose points are scaled by `unit`. -/
def Interval.holds (i : Interval) (unit a : Nat) : Bool :=
  if i.closed then i.low * unit ≤ a && a ≤ i.high * unit
  else i.low * unit < a && a < i.high * unit

/-- The nearest multiple of `step` that lies in the interval, if one of the two
neighbours of the middle does. A tie goes to the upper one. -/
def Interval.nearest? (i : Interval) (unit step : Nat) : Option Nat :=
  let value := i.middle * unit
  let below := value / step
  let above := below + 1
  match i.holds unit (below * step), i.holds unit (above * step) with
  | true, true => some (if value - below * step < above * step - value then below else above)
  | true, false => some below
  | false, true => some above
  | false, false => none

/-- Try the decimal grids from `10 ^ k` downwards. -/
def Interval.search (i : Interval) (exponent : Int) : Nat → Int → Decimal
  | 0, k => ⟨0, k⟩
  | fuel + 1, k =>
    let unit := 2 ^ exponent.toNat * 10 ^ (-k).toNat
    let step := 2 ^ (-exponent).toNat * 10 ^ k.toNat
    match i.nearest? unit step with
    | some digits => ⟨digits, k⟩
    | none => i.search exponent fuel (k - 1)

/-- The decimal with the fewest digits among those that read back as `x`, and of these
the nearest to it. The first grid tried is coarser than `x`, and a grid of seventeen
digits always has a point in the interval. -/
def Exact.shortest (x : Exact) : Decimal :=
  let binary : Int := x.mantissa.log2 + x.exponent
  (Interval.around x).search (x.exponent - 2) 24 (binary * 1233 / 4096 + 2)

/-- A quotient rounded to the nearest natural, a half to the even one. -/
def roundQuotient (a b : Nat) : Nat :=
  let q := a / b
  let r := a % b
  if 2 * r < b then q else if b < 2 * r then q + 1 else if q % 2 = 0 then q else q + 1

def Exact.rounded (x : Exact) (places : Nat) : Decimal where
  digits := roundQuotient ((x.mantissa * Nat.pow 10 places) <<< x.exponent.toNat)
    (1 <<< (-x.exponent).toNat)
  exponent := -places

/-- Positional text: all digits, and a point if the exponent is negative. -/
def Decimal.positional (d : Decimal) : List Char :=
  let digits := Nat.toDigits 10 d.digits
  if 0 ≤ d.exponent then digits ++ List.replicate d.exponent.toNat '0'
  else
    let places := (-d.exponent).toNat
    let padded := List.replicate (places + 1 - digits.length) '0' ++ digits
    padded.take (padded.length - places) ++ '.' :: padded.drop (padded.length - places)

/-- The same value without zeros at the end of the places. -/
def Decimal.strip : Nat → Decimal → Decimal
  | 0, d => d
  | fuel + 1, d =>
    if d.exponent < 0 ∧ d.digits % 10 = 0 then strip fuel ⟨d.digits / 10, d.exponent + 1⟩ else d

def writeWith (text : Exact → List Char) (x : Float) : String :=
  if x.isNaN then "NaN"
  else
    let exact := Exact.ofFloat x
    let size := if x.isFinite then text exact else "inf".toList
    String.ofList (if exact.negative then '-' :: size else size)

/-- A float with the fewest digits that read back, never with an exponent. -/
def write : Float → String :=
  writeWith fun x =>
    if x.mantissa = 0 then ['0'] else (x.shortest.strip 24).positional

def writeFixed (places : Nat) : Float → String :=
  writeWith fun x => (x.rounded places).positional

end Polyphony.Number
