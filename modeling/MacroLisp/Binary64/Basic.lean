namespace MacroLisp

/-- A number in the 64 bit binary format. The bits are kept as they are, so the two zeros differ and
so do the two signs of a NaN. -/
structure Binary64 where
  bits : UInt64
  deriving DecidableEq, Repr

namespace Binary64

def exp2 (n : Nat) : Nat := Nat.pow 2 n

def exp10 (n : Nat) : Nat := Nat.pow 10 n

variable (x y : Binary64)

def isNegative : Bool := exp2 63 ≤ x.bits.toNat

def exponentField : Nat := x.bits.toNat / exp2 52 % exp2 11

def fractionField : Nat := x.bits.toNat % exp2 52

def isNaN : Bool := x.exponentField == 2047 && x.fractionField != 0

def isInfinite : Bool := x.exponentField == 2047 && x.fractionField == 0

def isFinite : Bool := x.exponentField != 2047

def isZero : Bool := x.exponentField == 0 && x.fractionField == 0

/-- Every finite number with a nonzero exponent field has a leading one that is not stored. -/
def mantissa : Nat := if x.exponentField = 0 then x.fractionField else x.fractionField + exp2 52

def exponent : Int := if x.exponentField = 0 then -1074 else x.exponentField - 1075

/-- Equality of values: a NaN equals nothing and the two zeros are equal. -/
def valueEq : Bool :=
  !x.isNaN && !y.isNaN && (x.bits == y.bits || (x.isZero && y.isZero))

def isBelowZero : Bool := x.isNegative && !x.isZero && !x.isNaN

def ofParts (negative : Bool) (magnitude : Nat) : Binary64 :=
  ⟨UInt64.ofNat ((if negative then exp2 63 else 0) + magnitude)⟩

def withSign (negative : Bool) : Binary64 := ofParts negative (x.bits.toNat % exp2 63)

def infinityMagnitude : Nat := 2047 * exp2 52

def infinity (negative : Bool) : Binary64 := ofParts negative infinityMagnitude

def nan (negative : Bool) : Binary64 := ofParts negative (2047 * exp2 52 + exp2 51)

def zero (negative : Bool) : Binary64 := ofParts negative 0

/-- The quotient to the nearest natural number, a half to the even neighbour. -/
def divNearest (num den : Nat) : Nat :=
  let q := num / den
  let r := num % den
  if 2 * r < den then q else if den < 2 * r then q + 1 else q + q % 2

/-- The `e` with `2 ^ e ≤ num / den < 2 ^ (e + 1)`, for positive arguments. -/
def floorLog2 (num den : Nat) : Int :=
  let e : Int := (num.log2 : Int) - den.log2
  if num * exp2 (-e).toNat < den * exp2 e.toNat then e - 1 else e

/-- The bits below the sign of the number nearest to `num / den`. A mantissa that rounds up to the
next power of two carries into the exponent field, as it should, and past the last exponent lies
infinity. -/
def magnitudeOfRatio (num den : Nat) : Nat :=
  if num = 0 then 0 else
    let q := max (floorLog2 num den - 52) (-1074)
    let m := divNearest (num * exp2 (-q).toNat) (den * exp2 q.toNat)
    min ((q + 1074).toNat * exp2 52 + m) infinityMagnitude

/-- The number nearest to `num / den`, a half to the even mantissa. -/
def ofRatio (negative : Bool) (num den : Nat) : Binary64 :=
  ofParts negative (magnitudeOfRatio num den)

def ofInt (n : Int) : Binary64 := ofRatio (n < 0) n.natAbs 1

/-- A finite number as a fraction: numerator and positive denominator of its absolute value. -/
def ratio : Nat × Nat :=
  (x.mantissa * exp2 x.exponent.toNat, exp2 (-x.exponent).toNat)

def isIntegral : Bool := x.isFinite && x.ratio.1 % x.ratio.2 == 0

def floor : Int :=
  let (num, den) := x.ratio
  if x.isNegative then -(((num + den - 1) / den : Nat) : Int) else (num / den : Nat)

/-- The floor, held within the 64 bit integers. A NaN gives zero. -/
def floorInt64 : Int64 :=
  if x.isNaN then 0
  else if x.isInfinite then if x.isNegative then Int64.minValue else Int64.maxValue
  else Int64.ofInt (max Int64.minValue.toInt (min Int64.maxValue.toInt x.floor))

def sqrt : Binary64 := ⟨(Float.ofBits x.bits).sqrt.toBits⟩

end Binary64

end MacroLisp
