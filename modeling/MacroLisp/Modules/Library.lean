import MacroLisp.Modules.Value

namespace MacroLisp

abbrev Behaviour := List Value → Except CallError Value

/-- The functions known so far; the key of a function is its place. -/
structure Library where
  behaviours : List Behaviour

namespace Library

def numberArgument (function : String) (args : List Value) : Except CallError Binary64 :=
  match args with
  | [v] =>
    match v.number? with
    | some x => .ok x
    | none => .error (.badArguments function ("must be a real number, not " ++ v.kind))
  | _ => .error (.badArguments function ("expected 1 argument, got " ++ args.length.repr))

def sqrt : Behaviour := fun args => do
  let x ← numberArgument "sqrt" args
  if x.isBelowZero then .error (.badArguments "sqrt" "math domain error") else return .float x.sqrt

def floor : Behaviour := fun args => do
  let x ← numberArgument "floor" args
  return .int x.floorInt64

/-- A part that begins at the root replaces what came before; others are set apart by one slash. -/
def joinPath (path part : String) : String :=
  if part.startsWith "/" then part
  else if path.isEmpty || path.endsWith "/" then path ++ part
  else path ++ "/" ++ part

def join : Behaviour := fun args => do
  let path ← args.foldlM (fun path v =>
    match v.string? with
    | some part => .ok (joinPath path part)
    | none => .error (.badArguments "join" ("expected str, not " ++ v.kind))) ""
  return .string path

def standard : Library := ⟨[sqrt, floor, join]⟩

def sqrtFunction : HostFunction := ⟨"sqrt", 0⟩

def floorFunction : HostFunction := ⟨"floor", 1⟩

def joinFunction : HostFunction := ⟨"join", 2⟩

def add (l : Library) (name : String) (b : Behaviour) : HostFunction × Library :=
  (⟨name, l.behaviours.length⟩, ⟨l.behaviours ++ [b]⟩)

def call (l : Library) (v : Value) (args : List Value) : Except CallError Value :=
  match v with
  | .function f =>
    match l.behaviours[f.key]? with
    | some b => b args
    | none => .error (.notCallable v.kind)
  | _ => .error (.notCallable v.kind)

end Library

end MacroLisp
