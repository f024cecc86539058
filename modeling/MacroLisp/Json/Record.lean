import MacroLisp.Json.Basic
import MacroLisp.Json.Number

namespace MacroLisp.Json

def nestingLimit : Nat := 127

def string? : Json → Option String
  | string s => s
  | _ => none

def bool? : Json → Option Bool
  | bool b => some b
  | _ => none

def nat64? : Json → Option Nat
  | number text => (int? text).bind fun n => if 0 ≤ n ∧ n.toNat < UInt64.size then some n.toNat else none
  | _ => none

def int64? : Json → Option Int64
  | number text => (int? text).bind fun n =>
    if Int64.minValue.toInt ≤ n ∧ n ≤ Int64.maxValue.toInt then some (Int64.ofInt n) else none
  | _ => none

def binary64? : Json → Option Binary64
  | number text => float? text
  | _ => none

/-- The members of an object by name. A name that is no string makes the object unusable. -/
def named? (members : List (Option String × Json)) : Option (List (String × Json)) :=
  members.mapM fun (name, j) => name.map fun n => (n, j)

def fields? (names : List String) : Json → Option (List (Option Json))
  | object members => do
    let ms ← named? members
    names.mapM fun n =>
      match ms.filter fun m => m.1 = n with
      | [] => some none
      | [m] => some (some m.2)
      | _ => none
  | array items =>
    if items.length ≤ names.length then
      some (items.map some ++ List.replicate (names.length - items.length) none)
    else none
  | _ => none

def tagged? : Json → Option (String × Json)
  | object [(some tag, j)] => some (tag, j)
  | _ => none

end MacroLisp.Json
