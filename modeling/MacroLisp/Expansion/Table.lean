import MacroLisp.Expansion.Action
import MacroLisp.Reader.Build
import MacroLisp.Name.Mangle

namespace MacroLisp

/-- A macro under its mangled name, with the module that defined it, which may not be the one that
uses it. -/
structure MacroBinding where
  name : String
  module : String
  expander : Expander
  doc : Option String

inductive Provenance
  | local
  | module
  | core
  deriving DecidableEq, Repr

abbrev Bindings := Std.TreeMap String MacroBinding

structure MacroTable where
  module : String
  macros : Bindings
  exports : Option (List String)
  readers : ReaderMacros
  mangle : String → String

namespace MacroTable

variable (t : MacroTable)

def new (module : String) (mangle : String → String) : MacroTable :=
  ⟨module, ∅, none, ∅, mangle⟩

def getMangled? (name : String) : Option MacroBinding := t.macros[name]?

def get? (name : String) : Option MacroBinding := t.getMangled? (t.mangle name)

def containsMangled (name : String) : Bool := t.macros.contains name

def contains (name : String) : Bool := t.containsMangled (t.mangle name)

def insert (b : MacroBinding) : MacroTable := { t with macros := t.macros.insert b.name b }

def binding (name : String) (expander : Expander) (doc : Option String) : MacroBinding :=
  ⟨t.mangle name, t.module, expander, doc⟩

def install (name : String) (expander : Expander) (doc : Option String) : MacroTable :=
  t.insert (t.binding name expander doc)

def erase (name : String) : MacroTable := { t with macros := t.macros.erase (t.mangle name) }

def names : List String := t.macros.keys

def size : Nat := t.macros.size

def isEmpty : Bool := t.macros.isEmpty

def setExports (names : List String) : MacroTable := { t with exports := some (names.map t.mangle) }

/-- The declared exports, or every name that does not begin with an underscore. -/
def exported : List String :=
  t.exports.getD (t.names.filter fun name => !name.startsWith "_")

def getReader? (tag : String) : Option ReaderMacro := t.readers[tag]?

def insertReader (m : ReaderMacro) : MacroTable := { t with readers := t.readers.insert m.tag m }

def installReader (tag : String) (apply : Node → Except String Node) : MacroTable :=
  t.insertReader ⟨tag, t.module, apply⟩

def readerTags : List String := t.readers.keys

def lookup (name : String) : Option (Provenance × MacroBinding) :=
  (t.getMangled? name).map fun b => (.module, b)

end MacroTable

end MacroLisp
