import MacroLisp.Expansion.Environment
import MacroLisp.Reader.Basic

namespace MacroLisp

inductive Assignments
  | all
  | exports
  | names (pairs : List (String × String))

inductive ReaderAssignments
  | all
  | names (tags : List String)

inductive RequireError
  | missingName (name module : String)
  | undefinedReader (tag : String)
  deriving DecidableEq, Repr

namespace RequireError

def code : RequireError → String
  | missingName .. => "quasi::macros::require"
  | undefinedReader _ => "quasi::macros::undefined_reader"

def message : RequireError → String
  | missingName name module => "could not require name " ++ name ++ " from " ++ module
  | undefinedReader tag => "reader " ++ tag ++ " is not defined"

end RequireError

def Assignments.pairs (source : MacroTable) : Assignments → List (String × String)
  | all => source.names.map fun name => (name, name)
  | exports => source.exported.map fun name => (name, name)
  | names pairs => pairs

def ReaderAssignments.tags (source : MacroTable) : ReaderAssignments → List String
  | all => source.readerTags
  | names tags => tags

namespace MacroTable

variable (source : MacroTable)

/-- The key of a macro that is taken over under the given name, which may be qualified. -/
def requiredKey (target : MacroTable) (qualifier : Option String) (newName : String) : String :=
  match qualifier with
  | some q => target.mangle (q ++ "." ++ newName)
  | none => target.mangle newName

/-- Takes over macros one after the other. They keep the module that defined them. -/
def requirePairs (qualifier : Option String) :
    List (String × String) → MacroTable → Except RequireError Unit × MacroTable
  | [], target => (.ok (), target)
  | (name, newName) :: pairs, target =>
    match source.get? name with
    | none => (.error (.missingName name source.module), target)
    | some b =>
      requirePairs qualifier pairs
        (target.insert { b with name := requiredKey target qualifier newName })

/-- Takes over macros and tells whether there were any to take. A module takes nothing from itself. -/
def require (assignments : Assignments) (qualifier : Option String) (target : MacroTable) :
    Except RequireError Bool × MacroTable :=
  let pairs := assignments.pairs source
  if source.module = target.module ∨ pairs = [] then (.ok false, target)
  else
    let (result, target) := source.requirePairs qualifier pairs target
    (result.map fun _ => true, target)

def requireReaderTags : List String → MacroTable → Except RequireError Unit × MacroTable
  | [], target => (.ok (), target)
  | tag :: tags, target =>
    match source.getReader? tag with
    | none => (.error (.missingName tag source.module), target)
    | some m => requireReaderTags tags (target.insertReader m)

def requireReaders (assignments : ReaderAssignments) (target : MacroTable) :
    Except RequireError Bool × MacroTable :=
  if source.module = target.module then (.ok false, target)
  else
    let (result, target) := source.requireReaderTags (assignments.tags source) target
    (result.map fun _ => true, target)

def enableTags : List String → Reader → Except RequireError Unit × Reader
  | [], r => (.ok (), r)
  | tag :: tags, r =>
    match source.getReader? tag with
    | none => (.error (.undefinedReader tag), r)
    | some m => enableTags tags (r.enable m)

def enableReaders (assignments : ReaderAssignments) (r : Reader) : Except RequireError Unit × Reader :=
  source.enableTags (assignments.tags source) r

end MacroTable

def MacroEnv.require (env : MacroEnv) (source : MacroTable) (assignments : Assignments) (qualifier : Option String) :
    Except RequireError Bool × MacroEnv :=
  let (result, table) := source.require assignments qualifier env.table
  (result, { env with table })

end MacroLisp
