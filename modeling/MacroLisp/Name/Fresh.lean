import MacroLisp.Name.Mangle

namespace MacroLisp

/-- A mangling function and the number of names given out so far. -/
structure NameSupply where
  mangle : String → String
  count : Nat

namespace NameSupply

def reserved : List Char := "_hy_gensym_".toList

def escapedReserved : List Char := '_' :: Name.escapeMark ++ reserved.drop 1

def isReserved (name : String) : Bool := reserved.isPrefixOf name.toList

def new (mangle : String → String) : NameSupply := ⟨mangle, 0⟩

/-- The part of a hint that goes into a name: one reserved beginning is dropped, then all
underscores and hyphens. -/
def hintBody (hint : List Char) : List Char :=
  ((reserved.isPrefixOf? hint).getD hint).dropWhile fun c => c = '_' ∨ c = '-'

def rawName (hint : List Char) (n : Nat) : List Char :=
  match hintBody hint with
  | [] => reserved ++ n.repr.toList
  | body => reserved ++ body ++ '_' :: n.repr.toList

def withReserved (mangled : List Char) : List Char :=
  match escapedReserved.isPrefixOf? mangled with
  | some rest => reserved ++ rest
  | none => if reserved.isPrefixOf mangled then mangled else reserved ++ mangled

def fresh (s : NameSupply) (hint : String) : String × NameSupply :=
  let n := s.count + 1
  let raw := String.ofList (rawName hint.toList n)
  (String.ofList (withReserved (s.mangle raw).toList), { s with count := n })

end NameSupply

end MacroLisp
