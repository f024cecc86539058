import MacroLisp.Binary64.Text

namespace MacroLisp.Json

/-- Digits and the power of ten that scales them. -/
structure Scaled where
  significand : Nat
  exponent : Int

namespace Scaled

def fits (s : Scaled) (d : Char) : Bool := 10 * s.significand + (d.toNat - '0'.toNat) < UInt64.size

/-- Digits before the point: one that no longer fits counts as a power of ten, and so do all after
it. -/
def addWhole (s : Scaled) (full : Bool) : List Char → Scaled
  | [] => s
  | d :: ds =>
    if !full && s.fits d then addWhole ⟨10 * s.significand + (d.toNat - '0'.toNat), s.exponent⟩ false ds
    else addWhole { s with exponent := s.exponent + 1 } true ds

def addFraction (s : Scaled) : List Char → Scaled
  | [] => s
  | d :: ds =>
    if s.fits d then addFraction ⟨10 * s.significand + (d.toNat - '0'.toNat), s.exponent - 1⟩ ds
    else s

end Scaled

def times (x y : Binary64) : Binary64 := .ofRatio false (x.ratio.1 * y.ratio.1) (x.ratio.2 * y.ratio.2)

def quotient (x y : Binary64) : Binary64 := .ofRatio false (x.ratio.1 * y.ratio.2) (x.ratio.2 * y.ratio.1)

def powerOfTen (n : Nat) : Binary64 := .ofRatio false (Binary64.exp10 n) 1

/-- Scales by a power of ten, in one step if the power is finite. Dividing twice by the greatest
finite power gives zero. A number too large is refused. -/
def scaleDown : Nat → Binary64 → Nat → Binary64
  | 0, f, _ => f
  | fuel + 1, f, n =>
    if n ≤ 308 then quotient f (powerOfTen n)
    else if f.isZero then f
    else scaleDown fuel (quotient f (powerOfTen 308)) (n - 308)

def Scaled.value? (s : Scaled) : Option Binary64 :=
  let f := Binary64.ofInt s.significand
  if s.exponent < 0 then some (scaleDown 4 f s.exponent.natAbs)
  else if s.exponent ≤ 308 then
    let r := times f (powerOfTen s.exponent.toNat)
    if r.isInfinite then none else some r
  else if s.significand = 0 then some f
  else none

structure NumberParts where
  negative : Bool
  whole : List Char
  fraction : List Char
  exponent : List Char

def numberParts (text : String) : NumberParts :=
  let (negative, cs) := match text.toList with
    | '-' :: cs => (true, cs)
    | cs => (false, cs)
  let whole := cs.takeWhile Char.isDigit
  let rest := cs.dropWhile Char.isDigit
  { negative, whole
    fraction := rest.takeWhile fun c => c ≠ 'e' ∧ c ≠ 'E'
    exponent := rest.dropWhile fun c => c ≠ 'e' ∧ c ≠ 'E' }

/-- The integer, if the text has neither a fraction nor an exponent. The text `-0` names the
negative zero, which is no integer. -/
def int? (text : String) : Option Int :=
  let p := numberParts text
  let n : Int := Binary64.natOfDigits p.whole
  if !p.fraction.isEmpty || !p.exponent.isEmpty then none
  else if p.negative then if n = 0 then none else some (-n)
  else some n

/-- A written exponent beyond 31 bits is too large, or takes any number to zero. -/
def exponentLimit : Int := 2147483647

def float? (text : String) : Option Binary64 := do
  let p := numberParts text
  let s := ((Scaled.mk 0 0).addWhole false p.whole).addFraction (p.fraction.drop 1)
  let e := (Binary64.exponentOfText (p.exponent.drop 1)).getD 0
  if exponentLimit < e then
    if s.significand = 0 then return .zero p.negative else none
  else if e < -exponentLimit then return .zero p.negative
  else return (← { s with exponent := s.exponent + e }.value?).withSign p.negative

end MacroLisp.Json
