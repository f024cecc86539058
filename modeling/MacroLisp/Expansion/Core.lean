import MacroLisp.Expansion.Environment

namespace MacroLisp.Core

def module : String := "quasi.core"

def atLeastOne (name : String) (call : MacroCall) : Action (Node × List Node) :=
  match call.args with
  | first :: rest => return (first, rest)
  | [] => .refuse (name ++ " requires at least 1 argument(s), got 0")

/-- A single form as it is, any other number of them in a block. -/
def block (body : List Node) (s : Span) : Node :=
  match body with
  | [single] => single
  | _ => .form (.symbol "do" s :: body) s

def expandWhen : Expander := fun call => do
  let (test, body) ← atLeastOne "when" call
  let s := call.form.span
  return .form (.form [.symbol "if" s, test, block body s, .symbol "None" s] s)

def expandUnless : Expander := fun call => do
  let (test, body) ← atLeastOne "unless" call
  let s := call.form.span
  return .form (.form [.symbol "if" s, test, .symbol "None" s, block body s] s)

/-- Puts a value into a call as its first argument. Anything but a call becomes one of the value
alone. -/
def threadFirst (value step : Node) : Node :=
  match step with
  | .sequence .paren (head :: args) s => .form (head :: value :: args) s
  | n => .form [n, value] n.span

def threadLast (value step : Node) : Node :=
  match step with
  | .sequence .paren (head :: args) s => .form (head :: args ++ [value]) s
  | n => .form [n, value] n.span

def expandThread (name : String) (thread : Node → Node → Node) : Expander := fun call => do
  let (value, steps) ← atLeastOne name call
  return .form (steps.foldl thread value)

mutual

/-- Replaces the symbols that have a new name, except in quoted data. -/
def rename (renames : List (String × Node)) : Node → Node
  | .symbol name s => (renames.lookup name).getD (.symbol name s)
  | .sequence d items s =>
    if (Node.sequence d items s).isCallTo "quote" then .sequence d items s
    else .sequence d (renameAll renames items) s
  | n => n

def renameAll (renames : List (String × Node)) : List Node → List Node
  | [] => []
  | n :: ns => rename renames n :: renameAll renames ns

end

@[simp] theorem renameAll_eq_map (renames : List (String × Node)) (ns : List Node) :
    renameAll renames ns = ns.map (rename renames) := by
  induction ns with
  | nil => rfl
  | cons n ns ih => simp [renameAll, ih]

def freshNames (renames : List (String × Node)) : List Node → Action (List (String × Node))
  | [] => return renames
  | .symbol name _ :: names => do
    let n ← .gensym name
    freshNames ((name, n) :: renames) names
  | n :: _ => .refuse ("with-gensyms names must be symbols, got " ++ n.text)

def expandWithGensyms : Expander := fun call => do
  let (names, body) ← atLeastOne "with-gensyms" call
  match names.itemsIn? .bracket with
  | some names =>
    let renames ← freshNames [] names
    return .form (block (renameAll renames body) call.form.span)
  | none => .refuse "with-gensyms needs a [names] list"

def table : MacroTable :=
  [("when", expandWhen), ("unless", expandUnless), ("->", expandThread "->" threadFirst),
    ("->>", expandThread "->>" threadLast), ("with-gensyms", expandWithGensyms)].foldl
    (fun t (name, expander) => t.install name expander none) (.new module Name.mangle)

end MacroLisp.Core

namespace MacroLisp

def MacroEnv.ofModule (module : String) : MacroEnv := .new (.new module Name.mangle) Core.table

end MacroLisp
