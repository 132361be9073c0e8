/-! # Floats as exact binary fractions

A finite float is a natural mantissa times a power of two. Remainders and the
fractional part are computed on this form, so that neither of them rounds.
-/
namespace Polyphony.Number

/-- The value `± mantissa * 2 ^ exponent`. -/
structure Exact where
  negative : Bool
  mantissa : Nat
  exponent : Int
deriving DecidableEq, Repr

def Exact.ofFloat (x : Float) : Exact :=
  let bits := x.toBits.toNat
  let biased : Nat := bits >>> 52 % 2048
  let fraction : Nat := bits % (1 <<< 52)
  if biased = 0 then ⟨decide (1 <<< 63 ≤ bits), fraction, -1074⟩
  else ⟨decide (1 <<< 63 ≤ bits), 1 <<< 52 + fraction, (biased : Int) - 1075⟩

/-- The float `2 ^ e` for an exponent from -1074 to 1023. -/
def powerOfTwo (e : Int) : Float :=
  if -1022 ≤ e then Float.ofBits (UInt64.ofNat ((e + 1023).toNat <<< 52))
  else Float.ofBits (UInt64.ofNat (1 <<< (e + 1074).toNat))

/-- The float `± m * 2 ^ e`. Nothing is rounded when `m` has at most 53 bits and
the value is a multiple of the least positive float. -/
def Exact.toFloat (x : Exact) : Float :=
  let size := Float.ofNat x.mantissa * powerOfTwo x.exponent
  if x.negative then -size else size

/-- The remainder of two mantissas over the smaller of their exponents. -/
def Exact.mod (x y : Exact) : Exact :=
  let e := min x.exponent y.exponent
  ⟨x.negative, x.mantissa <<< (x.exponent - e).toNat % (y.mantissa <<< (y.exponent - e).toNat), e⟩

/-- What is left of `x` after taking away `y` as often as it fits, with the sign of `x`. -/
def remainder (x y : Float) : Float :=
  if !x.isFinite || y.isNaN || y == 0 then 0 / 0
  else if !y.isFinite then x
  else ((Exact.ofFloat x).mod (Exact.ofFloat y)).toFloat

/-- The part of a float before its point. Floats from `2 ^ 63` on are whole. -/
def wholePart (x : Float) : Float :=
  if x.abs < 9223372036854775808.0 then
    if x < 0 then -(-x).toUInt64.toFloat else x.toUInt64.toFloat
  else x

def fractionalPart (x : Float) : Float := x - wholePart x

/-- The sum of a list from left to right. It starts from the negative zero, the one
float that every other float absorbs. -/
def total (xs : List Float) : Float := xs.foldl (· + ·) (-0.0)

end Polyphony.Number
