import MacroLisp.Host.Expr
import Mathlib.Logic.Function.Basic

namespace MacroLisp.Host

abbrev Store (V : Type) := String → Option V

/-- Evaluation may fail, and what it stored before stays. -/
abbrev Eval (V ε α : Type) := ExceptT ε (StateM (Store V)) α

/-- Values, errors and arithmetic are left open, and so is what no variable, operator, condition or assignment to a name
has a part in. -/
structure Semantics (V ε : Type) where
  constant : Constant → V
  binary : BinaryOp → V → V → Except ε V
  unary : UnaryOp → V → Except ε V
  truth : V → Except ε Bool
  unbound : String → ε
  other : Expr → Eval V ε V
  assignOther : Expr → V → Eval V ε Unit
  imports : List Alias → Eval V ε Unit

/-- The truth of an operand at which the evaluation of a boolean operation goes on. -/
def BoolOp.goesOn : BoolOp → Bool
  | and => true
  | or => false

namespace Semantics

variable {V ε : Type} (S : Semantics V ε)

def load (id : String) : Eval V ε V := do
  match (← get) id with
  | some v => return v
  | none => throw (S.unbound id)

def assign (id : String) (v : V) : Eval V ε Unit := modify fun σ ↦ Function.update σ id (some v)

def holds (v : V) : Eval V ε Bool := ofExcept (S.truth v)

def combine (op : BinaryOp) (v w : V) : Eval V ε V := ofExcept (S.binary op v w)

def apply (op : UnaryOp) (v : V) : Eval V ε V :=
  if op = .not then do return S.constant (.bool !(← S.holds v)) else ofExcept (S.unary op v)

mutual

def eval : Expr → Eval V ε V
  | .constant c => return S.constant c
  | .name id _ => S.load id
  | .binary left op right => do
    let v ← eval left
    let w ← eval right
    S.combine op v w
  | .unary op operand => do
    let v ← eval operand
    S.apply op v
  | .boolean op values => operands op values
  | .conditional test body orelse => do
    let v ← eval test
    if ← S.holds v then eval body else eval orelse
  | e => S.other e

def operands (op : BoolOp) : List Expr → Eval V ε V
  | [] => return S.constant .none
  | [e] => eval e
  | e :: es => do
    let v ← eval e
    if (← S.holds v) = op.goesOn then operands op es else return v

end

def assignTo (v : V) : Expr → Eval V ε Unit
  | .name id _ => assign id v
  | target => S.assignOther target v

mutual

def exec : Stmt → Eval V ε Unit
  | .expr value => do
    let _ ← S.eval value
  | .assign targets value => do
    let v ← S.eval value
    targets.forM (S.assignTo v)
  | .imports names => S.imports names
  | .ifElse test body orelse => do
    let v ← S.eval test
    if ← S.holds v then execAll body else execAll orelse

def execAll : List Stmt → Eval V ε Unit
  | [] => return ()
  | s :: ss => do
    exec s
    execAll ss

end

variable {ss ss' : List Stmt}

theorem execAll_append : S.execAll (ss ++ ss') = (do S.execAll ss; S.execAll ss') := by
  induction ss with
  | nil => simp [execAll]
  | cons s ss ih => simp [execAll, ih]

theorem execAll_singleton (s : Stmt) : S.execAll [s] = S.exec s := by
  simp [execAll]

def finish (ss : List Stmt) (e : Expr) : Eval V ε V := do
  S.execAll ss
  S.eval e

@[simp] theorem finish_nil (e : Expr) : S.finish [] e = S.eval e := by
  simp [finish, execAll]

theorem finish_append (e : Expr) : S.finish (ss ++ ss') e = (do S.execAll ss; S.finish ss' e) := by
  simp [finish, execAll_append]

theorem finish_unary (e : Expr) (op : UnaryOp) :
    S.finish ss (.unary op e) = (do
      let v ← S.finish ss e
      S.apply op v) := by
  simp [finish, eval]

theorem finish_binary (e e' : Expr) (op : BinaryOp) :
    S.finish ss (.binary e op e') = (do
      let v ← S.finish ss e
      let w ← S.eval e'
      S.combine op v w) := by
  simp [finish, eval]

theorem finish_conditional (t b o : Expr) :
    S.finish ss (.conditional t b o) = (do
      let v ← S.finish ss t
      if ← S.holds v then S.eval b else S.eval o) := by
  simp [finish, eval]

theorem finish_expr (e e' : Expr) :
    S.finish (ss ++ .expr e :: ss') e' = (do
      let _ ← S.finish ss e
      S.finish ss' e') := by
  simp [finish, execAll, execAll_append, exec]

theorem finish_assign (id : String) (e e' : Expr) :
    S.finish (ss ++ .assign [.name id .store] e :: ss') e' = (do
      let v ← S.finish ss e
      assign id v
      S.finish ss' e') := by
  simp [finish, execAll, execAll_append, exec, assignTo]

theorem finish_ifElse (t e : Expr) (bs os : List Stmt) :
    S.finish (ss ++ [.ifElse t bs os]) e = (do
      let v ← S.finish ss t
      if ← S.holds v then S.finish bs e else S.finish os e) := by
  rw [finish_append]
  simp only [finish, execAll_singleton, exec, bind_assoc]
  refine bind_congr fun _ ↦ bind_congr fun v ↦ bind_congr fun c ↦ ?_
  cases c <;> rfl

end Semantics

end MacroLisp.Host
