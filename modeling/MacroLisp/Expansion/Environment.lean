import MacroLisp.Expansion.Table

namespace MacroLisp

/-- The macros that are visible in a module: those of the open local scopes, innermost first, then those of the module,
then the core. -/
structure MacroEnv where
  table : MacroTable
  core : MacroTable
  /-- Innermost first. -/
  scopes : List Bindings

namespace MacroEnv

variable (env : MacroEnv)

def new (table core : MacroTable) : MacroEnv := ⟨table, core, []⟩

def module : String := env.table.module

def pushScope : MacroEnv := { env with scopes := ∅ :: env.scopes }

def popScope : MacroEnv := { env with scopes := env.scopes.drop 1 }

/-- Defines a macro in the innermost open scope, or in the module if none is open. -/
def installLocal (name : String) (expander : Expander) : MacroEnv :=
  let b := env.table.binding name expander none
  match env.scopes with
  | scope :: scopes => { env with scopes := scope.insert b.name b :: scopes }
  | [] => { env with table := env.table.insert b }

def lookup (name : String) : Option (Provenance × MacroBinding) :=
  match env.scopes.findSome? fun scope => scope[name]? with
  | some b => some (.local, b)
  | none =>
    match env.table.getMangled? name with
    | some b => some (.module, b)
    | none => (env.core.getMangled? name).map fun b => (.core, b)

/-- What is visible without local scopes: the macros of the module, then those of the core that they
do not hide, each part sorted by name. -/
def visible : List (Provenance × MacroBinding) :=
  (env.table.macros.values.map fun b => (.module, b)) ++
    ((env.core.macros.values.filter fun b => !env.table.containsMangled b.name).map fun b => (.core, b))

end MacroEnv

def Provenance.label : Provenance → String
  | .local => "local"
  | .module => "module"
  | .core => "core"

end MacroLisp
