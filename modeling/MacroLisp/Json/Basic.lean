namespace MacroLisp

/-- A JSON value. A string has no value if its escapes name half a surrogate pair; that is an error
only where the string is used. -/
inductive Json
  | null
  | bool (value : Bool)
  | number (text : String)
  | string (value : Option String)
  | array (items : List Json)
  | object (members : List (Option String × Json))
  deriving Repr, Inhabited

namespace Json

def ofString (s : String) : Json := string (some s)

def ofNat (n : Nat) : Json := number n.repr

def ofInt (n : Int) : Json := number (toString n)

def record (members : List (String × Json)) : Json :=
  object (members.map fun (name, value) => (some name, value))

end Json

end MacroLisp
