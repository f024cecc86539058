import MacroLisp.Binary64.Shortest

namespace MacroLisp.Binary64

def natOfDigits (ds : List Char) : Nat :=
  ds.foldl (fun n d => 10 * n + (d.toNat - '0'.toNat)) 0

/-- The number nearest to `digits * 10 ^ exponent`. Beyond the two bounds on the magnitude the
answer is infinity or zero, and no power of ten is formed. -/
def ofDecimal (negative : Bool) (digits : Nat) (exponent : Int) : Binary64 :=
  let magnitude := (digits.repr.length : Int) + exponent
  if digits = 0 then zero negative
  else if 400 < magnitude then infinity negative
  else if magnitude < -400 then zero negative
  else ofRatio negative (digits * exp10 exponent.toNat) (exp10 (-exponent).toNat)

def exponentOfText (cs : List Char) : Option Int :=
  let signed := match cs with
    | '-' :: ds => (true, ds)
    | '+' :: ds => (false, ds)
    | ds => (false, ds)
  if signed.2.isEmpty || !signed.2.all Char.isDigit then none
  else some (if signed.1 then -(natOfDigits signed.2) else natOfDigits signed.2)

def ofText? (cs : List Char) : Option Binary64 :=
  let (negative, body) := match cs with
    | '-' :: rest => (true, rest)
    | '+' :: rest => (false, rest)
    | rest => (false, rest)
  let whole := body.takeWhile Char.isDigit
  let (fraction, tail) := match body.dropWhile Char.isDigit with
    | '.' :: rest => (rest.takeWhile Char.isDigit, rest.dropWhile Char.isDigit)
    | rest => ([], rest)
  if whole.isEmpty && fraction.isEmpty then none
  else
    let number (e : Int) := ofDecimal negative (natOfDigits (whole ++ fraction)) (e - fraction.length)
    match tail with
    | [] => some (number 0)
    | c :: rest => if c = 'e' ∨ c = 'E' then (exponentOfText rest).map number else none

def signText (x : Binary64) : String := if x.isNegative then "-" else ""

def Decimal.positional (d : Decimal) : String :=
  let ds := d.digits.repr
  let places := (-d.exponent).toNat
  if 0 ≤ d.exponent then ds ++ String.ofList (List.replicate d.exponent.toNat '0')
  else if places < ds.length then
    String.ofList (ds.toList.take (ds.length - places)) ++ "." ++
      String.ofList (ds.toList.drop (ds.length - places))
  else "0." ++ String.ofList (List.replicate (places - ds.length) '0') ++ ds

/-- The text of a number in a node. A number without a fraction part is written in full and ends in
`.0`, so that it never reads back as an integer; any other has its shortest digits, with no
exponent. -/
def text (x : Binary64) : String :=
  if x.isNaN then "NaN"
  else if x.isInfinite then x.signText ++ "inf"
  else if x.isIntegral then x.signText ++ (x.ratio.1 / x.ratio.2).repr ++ ".0"
  else x.signText ++ (x.shortest .up).positional

def Decimal.scientific (d : Decimal) : String :=
  let ds := d.digits.repr
  let e := d.exponent + (ds.length - 1 : Nat)
  let lead := String.ofList (ds.toList.take 1)
  let rest := String.ofList (ds.toList.drop 1)
  (if rest.isEmpty then lead else lead ++ "." ++ rest) ++
    (if e < 0 then "e-" else "e+") ++ e.natAbs.repr

/-- The text of a finite number in a data file: positional, with a fraction part, for the scientific
exponents from -5 to 15. There is no text for the others. -/
def dataText? (x : Binary64) : Option String :=
  if !x.isFinite then none
  else if x.isZero then some (x.signText ++ "0.0")
  else
    let d := x.shortest .even
    let e := d.exponent + (d.digits.repr.length - 1 : Nat)
    if e < -5 ∨ 15 < e then some (x.signText ++ d.scientific)
    else some (x.signText ++ d.positional ++ if 0 ≤ d.exponent then ".0" else "")

end MacroLisp.Binary64
