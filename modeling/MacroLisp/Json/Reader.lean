import MacroLisp.Json.Basic

namespace MacroLisp.Json

def isBlank (c : Char) : Bool := c = ' ' ∨ c = '\t' ∨ c = '\r' ∨ c = '\n'

def skipBlanks (cs : List Char) : List Char := cs.dropWhile isBlank

def hexValue? (c : Char) : Option Nat :=
  if c.isDigit then some (c.toNat - '0'.toNat)
  else if 'a' ≤ c ∧ c ≤ 'f' then some (c.toNat - 'a'.toNat + 10)
  else if 'A' ≤ c ∧ c ≤ 'F' then some (c.toNat - 'A'.toNat + 10)
  else none

def codeUnit? (a b c d : Char) : Option Nat := do
  return (((← hexValue? a) * 16 + (← hexValue? b)) * 16 + (← hexValue? c)) * 16 + (← hexValue? d)

def simpleEscape? : Char → Option Char
  | '"' => some '"'
  | '\\' => some '\\'
  | '/' => some '/'
  | 'b' => some '\x08'
  | 'f' => some '\x0c'
  | 'n' => some '\n'
  | 'r' => some '\r'
  | 't' => some '\t'
  | _ => none

/-- The inside of a string up to its closing quote, as code points and code units, and what follows. -/
def stringUnits : List Char → Option (List Nat × List Char)
  | '"' :: cs => some ([], cs)
  | '\\' :: 'u' :: a :: b :: c :: d :: cs => do
    let u ← codeUnit? a b c d
    let (us, rest) ← stringUnits cs
    return (u :: us, rest)
  | '\\' :: e :: cs => do
    let c ← simpleEscape? e
    let (us, rest) ← stringUnits cs
    return (c.toNat :: us, rest)
  | c :: cs =>
    if c = '\\' ∨ c.toNat < 32 then none
    else (stringUnits cs).map fun (us, rest) => (c.toNat :: us, rest)
  | [] => none

def isHighSurrogate (n : Nat) : Bool := 0xd800 ≤ n && n < 0xdc00

def isLowSurrogate (n : Nat) : Bool := 0xdc00 ≤ n && n < 0xe000

/-- Joins surrogate pairs. There is no string with half a pair. -/
def charsOfUnits : List Nat → Option (List Char)
  | [] => some []
  | h :: l :: us =>
    if isHighSurrogate h && isLowSurrogate l then
      (charsOfUnits us).map (Char.ofNat (0x10000 + (h - 0xd800) * 0x400 + (l - 0xdc00)) :: ·)
    else if isHighSurrogate h || isLowSurrogate h then none
    else (charsOfUnits (l :: us)).map (Char.ofNat h :: ·)
  | [u] => if isHighSurrogate u || isLowSurrogate u then none else some [Char.ofNat u]

def stringOfUnits (us : List Nat) : Option String := (charsOfUnits us).map String.ofList

def digits? (cs : List Char) : Option (List Char × List Char) :=
  let ds := cs.takeWhile Char.isDigit
  if ds.isEmpty then none else some (ds, cs.drop ds.length)

def whole? (cs : List Char) : Option (List Char × List Char) := do
  let (ds, rest) ← digits? cs
  if ds.head? = some '0' ∧ ds ≠ ['0'] then none else return (ds, rest)

def fraction? : List Char → Option (List Char × List Char)
  | '.' :: cs => do
    let (ds, rest) ← digits? cs
    return ('.' :: ds, rest)
  | cs => some ([], cs)

def exponent? : List Char → Option (List Char × List Char)
  | e :: cs =>
    if e = 'e' ∨ e = 'E' then
      match cs with
      | '-' :: cs => (digits? cs).map fun (ds, rest) => (e :: '-' :: ds, rest)
      | '+' :: cs => (digits? cs).map fun (ds, rest) => (e :: '+' :: ds, rest)
      | cs => (digits? cs).map fun (ds, rest) => (e :: ds, rest)
    else some ([], e :: cs)
  | [] => some ([], [])

def numberText? (cs : List Char) : Option (List Char × List Char) := do
  let (sign, cs) := match cs with
    | '-' :: cs => (['-'], cs)
    | cs => ([], cs)
  let (whole, cs) ← whole? cs
  let (fraction, cs) ← fraction? cs
  let (exponent, cs) ← exponent? cs
  return (sign ++ whole ++ fraction ++ exponent, cs)

def word? (w : String) (j : Json) (cs : List Char) : Option (Json × List Char) :=
  (w.toList.isPrefixOf? cs).map fun rest => (j, rest)

mutual

def value : Nat → List Char → Option (Json × List Char)
  | 0, _ => none
  | fuel + 1, cs =>
    match cs with
    | 'n' :: _ => word? "null" null cs
    | 't' :: _ => word? "true" (bool true) cs
    | 'f' :: _ => word? "false" (bool false) cs
    | '"' :: cs => do
      let (us, rest) ← stringUnits cs
      return (string (stringOfUnits us), rest)
    | '[' :: cs =>
      match skipBlanks cs with
      | ']' :: rest => some (array [], rest)
      | cs => do
        let (items, rest) ← itemList fuel cs
        return (array items, rest)
    | '{' :: cs =>
      match skipBlanks cs with
      | '}' :: rest => some (object [], rest)
      | cs => do
        let (members, rest) ← memberList fuel cs
        return (object members, rest)
    | cs => do
      let (text, rest) ← numberText? cs
      return (number (String.ofList text), rest)

def itemList : Nat → List Char → Option (List Json × List Char)
  | 0, _ => none
  | fuel + 1, cs => do
    let (j, cs) ← value fuel cs
    match skipBlanks cs with
    | ']' :: rest => return ([j], rest)
    | ',' :: cs =>
      let (js, rest) ← itemList fuel (skipBlanks cs)
      return (j :: js, rest)
    | _ => none

def memberList : Nat → List Char → Option (List (Option String × Json) × List Char)
  | 0, _ => none
  | fuel + 1, cs => do
    match cs with
    | '"' :: cs =>
      let (us, cs) ← stringUnits cs
      match skipBlanks cs with
      | ':' :: cs =>
        let (j, cs) ← value fuel (skipBlanks cs)
        match skipBlanks cs with
        | '}' :: rest => return ([(stringOfUnits us, j)], rest)
        | ',' :: cs =>
          let (ms, rest) ← memberList fuel (skipBlanks cs)
          return ((stringOfUnits us, j) :: ms, rest)
        | _ => none
      | _ => none
    | _ => none

end

def parse? (text : String) : Option Json := do
  let cs := text.toList
  let (j, rest) ← value (2 * cs.length + 2) (skipBlanks cs)
  if (skipBlanks rest).isEmpty then return j else none

end MacroLisp.Json
