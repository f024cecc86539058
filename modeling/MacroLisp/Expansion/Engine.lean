import MacroLisp.Expansion.Process
import MacroLisp.Expansion.Environment

namespace MacroLisp

structure Expansion where
  lookup : String → Option (Provenance × MacroBinding)
  mangle : String → String
  limit : Option Nat

structure Step where
  name : String
  provenance : Provenance
  input : Node
  output : Node

structure Expanded where
  node : Node
  verbatim : Bool

/-- How far to go, and what a final value means: the node itself, or that the call stays as it is. -/
structure Mode where
  once : Bool
  keepsVerbatim : Bool

namespace Mode

def full : Mode := ⟨false, false⟩

def single : Mode := ⟨true, false⟩

def value : Mode := ⟨false, true⟩

end Mode

abbrev ExpandM := Process Step ExpansionError

namespace Expansion

variable (x : Expansion)

def callee? (n : Node) : Option (Provenance × MacroBinding) :=
  n.head?.bind fun head => x.lookup (x.mangle head)

def blame (b : MacroBinding) (form : Node) : Failure → ExpansionError
  | .message text => .macroFailed b.name form text
  | .expansion e => e

def invoke (expand : Bool → Node → ExpandM Node) (b : MacroBinding) (form : Node) : ExpandM MacroOutput :=
  ((b.expander ⟨b.module, form, (form.form?.getD []).drop 1⟩).run expand).mapError (blame b form)

/-- Expands at the head, `steps` steps having been made. Only a limit bounds these, so there is no answer where the fuel
does not suffice. -/
def head : Nat → Mode → Nat → Node → ExpandM Expanded
  | 0, _, _, _ => .unfinished
  | fuel + 1, mode, steps, tree =>
    match x.callee? tree with
    | none => return ⟨tree, false⟩
    | some (provenance, b) =>
      match x.limit.filter (· ≤ steps) with
      | some limit => .throw (.stepLimit limit tree)
      | none => do
        let nested (once : Bool) (form : Node) : ExpandM Node :=
          Expanded.node <$> head fuel (if once then .single else .full) 0 form
        match ← invoke nested b tree with
        | .form output =>
          let output := output.placedAt tree.span
          .record ⟨b.name, provenance, tree, output⟩
          if mode.once then return ⟨output, false⟩ else head fuel mode (steps + 1) output
        | .verbatim value =>
          if mode.keepsVerbatim then return ⟨value, true⟩ else return ⟨tree, false⟩

def macroexpand (fuel : Nat) (n : Node) : ExpandM Node := Expanded.node <$> x.head fuel .full 0 n

/-- Expands like `macroexpand`; a final value takes the place of its call. -/
def macroexpandValue (fuel : Nat) (n : Node) : ExpandM Node := Expanded.node <$> x.head fuel .value 0 n

def macroexpandOnce (fuel : Nat) (n : Node) : ExpandM Node := Expanded.node <$> x.head fuel .single 0 n

section Template

variable (expand : Node → ExpandM Node)

mutual

/-- Walks the data of a template at a level of nesting, and expands the operands of holes that
belong to its first level. -/
def template : Nat → Node → ExpandM Node
  | level, .sequence .paren [.symbol h s, operand] span =>
    if h = "unquote" ∨ h = "unquote-splice" then
      if level = 1 then return .form [.symbol h s, ← expand operand] span
      else return .form [.symbol h s, ← template (level - 1) operand] span
    else if h = "quasiquote" then return .form [.symbol h s, ← template (level + 1) operand] span
    else return .form [.symbol h s, ← template level operand] span
  | level, .sequence d items span => return .sequence d (← templateItems level items) span
  | _, n => return n

def templateItems : Nat → List Node → ExpandM (List Node)
  | _, [] => return []
  | level, n :: ns => return (← template level n) :: (← templateItems level ns)

end

end Template

/-- Expands every call in a tree, outermost first. Quoted data and final values stay as they are,
and of a template only the holes are expanded. -/
def all : Nat → Node → ExpandM Node
  | 0, _ => .unfinished
  | fuel + 1, n => do
    let expanded ← x.head fuel .value 0 n
    if expanded.verbatim || expanded.node.isCallTo "quote" then return expanded.node
    else if expanded.node.isCallTo "quasiquote" then template (all fuel) 0 expanded.node
    else match expanded.node with
      | .sequence d items span => return .sequence d (← items.mapM (all fuel)) span
      | n => return n

end Expansion

end MacroLisp
