import MacroLisp.Modules.Library
import MacroLisp.Text.Fields
import Std.Data.TreeMap.Basic

namespace MacroLisp

abbrev Namespace := Std.TreeMap String Value

/-- What a module is made from: its attributes, and a function that runs on them when the module is
first loaded. -/
structure ModuleDef where
  attributes : Namespace
  initializer : Namespace → Namespace

structure NotFound where
  name : String
  deriving DecidableEq, Repr

namespace NotFound

def code (_ : NotFound) : String := "quasi::runtime::not_found"

def message (e : NotFound) : String := "'" ++ e.name ++ "' not found"

end NotFound

namespace ModuleDef

def ofList (attributes : List (String × Value)) : ModuleDef :=
  ⟨attributes.foldl (fun ns (name, v) => ns.insert name v) ∅, id⟩

def create (d : ModuleDef) : Namespace := d.initializer d.attributes

end ModuleDef

/-- The definitions, the modules made from them, and how often each has been made. -/
structure ModuleStore where
  definitions : Std.TreeMap String ModuleDef
  loaded : Std.TreeMap String Namespace
  created : Std.TreeMap String Nat

namespace ModuleStore

variable (s : ModuleStore)

def empty : ModuleStore := ⟨∅, ∅, ∅⟩

/-- Adds a definition or replaces it. A module that is loaded stays as it is. -/
def register (name : String) (d : ModuleDef) : ModuleStore :=
  { s with definitions := s.definitions.insert name d }

def isLoaded (path : String) : Bool := s.loaded.contains path

def timesCreated (path : String) : Nat := s.created.getD path 0

/-- The dotted path of components that are given innermost first. -/
def pathOf (components : List String) : String := ".".intercalate components.reverse

def create (path : String) (d : ModuleDef) : ModuleStore :=
  { s with
    loaded := s.loaded.insert path d.create
    created := s.created.insert path (s.timesCreated path + 1) }

def bind (parent child path : String) : ModuleStore :=
  match s.loaded[parent]? with
  | some ns => { s with loaded := s.loaded.insert parent (ns.insert child (.module path)) }
  | none => s

/-- Loads the module with the given components, innermost first, after those above it. -/
def loadComponents : List String → ModuleStore → Except NotFound Unit × ModuleStore
  | [], s => (.ok (), s)
  | child :: parents, s =>
    let path := pathOf (child :: parents)
    if s.isLoaded path then (.ok (), s)
    else
      match loadComponents parents s with
      | (.error e, s) => (.error e, s)
      | (.ok (), s) =>
        match s.definitions[path]? with
        | none => (.error ⟨path⟩, s)
        | some d =>
          let s := s.create path d
          (.ok (), if parents.isEmpty then s else s.bind (pathOf parents) child path)

/-- Loads the module at a dotted path. A path with an empty component names no module. -/
def load (path : String) : Except NotFound Unit × ModuleStore :=
  if s.isLoaded path then (.ok (), s)
  else
    let components := Text.fields '.' path
    if components.any String.isEmpty then (.error ⟨path⟩, s)
    else loadComponents components.reverse s

def getAttr (module name : String) : Except NotFound Value :=
  match s.loaded[module]?.bind fun ns => ns[name]? with
  | some v => .ok v
  | none => .error ⟨module ++ "." ++ name⟩

def pi : Binary64 := ⟨0x400921fb54442d18⟩

def standard : ModuleStore :=
  let math := .ofList [("pi", .float pi), ("sqrt", .function Library.sqrtFunction),
    ("floor", .function Library.floorFunction)]
  let os := .ofList [("sep", .string "/")]
  let path := .ofList [("sep", .string "/"), ("join", .function Library.joinFunction)]
  ((empty.register "math" math).register "os" os).register "os.path" path

end ModuleStore

end MacroLisp
