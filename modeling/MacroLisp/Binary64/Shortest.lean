import MacroLisp.Binary64.Basic

namespace MacroLisp.Binary64

structure Decimal where
  digits : Nat
  exponent : Int
  deriving DecidableEq, Repr

inductive Tie
  | up
  | even
  deriving DecidableEq, Repr

/-- The decimals that read back as a number: the fractions from `low / scale` to `high / scale`,
around the number itself, `value / scale`. The ends belong to it when `closed` holds. -/
structure Interval where
  low : Nat
  value : Nat
  high : Nat
  scale : Nat
  closed : Bool

/-- The interval of a finite positive number. It reaches half way to both neighbours; below a power
of two the neighbour is only half as far. An end rounds to the even mantissa. -/
def interval (x : Binary64) : Interval :=
  let m := x.mantissa
  let up := exp2 x.exponent.toNat
  let below := if x.fractionField = 0 ∧ 1 < x.exponentField then 1 else 2
  { low := (4 * m - below) * up
    value := 4 * m * up
    high := (4 * m + 2) * up
    scale := 4 * exp2 (-x.exponent).toNat
    closed := m % 2 = 0 }

namespace Interval

variable (i : Interval)

def holds (c : Nat) (k : Int) : Bool :=
  let at' := c * exp10 k.toNat * i.scale
  let factor := exp10 (-k).toNat
  if i.closed then i.low * factor ≤ at' && at' ≤ i.high * factor
  else i.low * factor < at' && at' < i.high * factor

/-- The multiple of `10 ^ k` in the interval that is nearest to the number, if there is one. -/
def onGrid (tie : Tie) (k : Int) : Option Decimal :=
  let num := i.value * exp10 (-k).toNat
  let den := i.scale * exp10 k.toNat
  let c := num / den
  let r := num % den
  match i.holds c k, i.holds (c + 1) k with
  | false, false => none
  | true, false => some ⟨c, k⟩
  | false, true => some ⟨c + 1, k⟩
  | true, true =>
    if 2 * r < den then some ⟨c, k⟩
    else if den < 2 * r then some ⟨c + 1, k⟩
    else match tie with
      | .up => some ⟨c + 1, k⟩
      | .even => some ⟨c + c % 2, k⟩

def topExponent : Int :=
  ((i.value * exp10 400 / i.scale).repr.length : Int) - 400

end Interval

/-- The decimal with the fewest digits that reads back as `x`, a finite number other than zero, and
of those the nearest. Eighteen grids suffice: seventeen digits always tell two numbers apart. -/
def shortest (tie : Tie) (x : Binary64) : Decimal :=
  let i := x.interval
  let top := i.topExponent
  ((List.range 20).findSome? fun (n : Nat) => i.onGrid tie (top - n)).getD ⟨0, 0⟩

end MacroLisp.Binary64
