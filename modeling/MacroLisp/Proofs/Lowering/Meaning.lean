import MacroLisp.Lowering.Basic
import MacroLisp.Proofs.Host.Execution

namespace MacroLisp.Meaning

open Host (BinaryOp UnaryOp BoolOp Eval Semantics)

inductive Special
  | operator (op : BinaryOp)
  | invert
  | not
  | logic (op : BoolOp)
  | choice
  | sequence
  | assignment

def special? : String → Option Special
  | "+" => some (.operator .add)
  | "-" => some (.operator .sub)
  | "*" => some (.operator .mult)
  | "@" => some (.operator .matMult)
  | "/" => some (.operator .div)
  | "//" => some (.operator .floorDiv)
  | "%" => some (.operator .mod)
  | "**" => some (.operator .pow)
  | "<<" => some (.operator .leftShift)
  | ">>" => some (.operator .rightShift)
  | "|" => some (.operator .bitOr)
  | "^" => some (.operator .bitXor)
  | "&" => some (.operator .bitAnd)
  | "~" => some .invert
  | "not" => some .not
  | "and" => some (.logic .and)
  | "or" => some (.logic .or)
  | "if" => some .choice
  | "do" => some .sequence
  | "setv" => some .assignment
  | _ => none

def neutral? : BinaryOp → Option Host.Constant
  | .add => some (.int 0)
  | .mult => some (.int 1)
  | _ => none

def truthOf : BoolOp → Host.Constant
  | .and => .bool true
  | .or => .none

variable {V ε : Type} (S : Semantics V ε)

variable (F : Node → Eval V ε V)

def alone (n : Node) (v : V) : BinaryOp → Eval V ε V
  | .add => S.apply .plus v
  | .sub => S.apply .minus v
  | .mult => return v
  | .div => S.combine .div (S.constant (.int 1)) v
  | _ => F n

def constantOf? : String → Option Host.Constant
  | "None" => some .none
  | "True" => some (.bool true)
  | "False" => some (.bool false)
  | _ => none

mutual

def eval : Node → Eval V ε V
  | .literal (.int n) _ => return S.constant (.int n)
  | .literal (.float x) _ => return S.constant (.float x)
  | .literal (.string s) _ => return S.constant (.string s)
  | .symbol name _ =>
    match constantOf? name with
    | some c => return S.constant c
    | none => S.load (Name.mangle name)
  | .sequence .paren (.symbol head s :: args) s' =>
    let n := .sequence .paren (.symbol head s :: args) s'
    match special? head with
    | some (.operator op) => operation n op args
    | some .invert => sole n .invert args
    | some .not => sole n .not args
    | some (.logic op) => logic op args
    | some .choice => choice n args
    | some .sequence => sequence args
    | some .assignment => assignments args
    | none => F n
  | n => F n

def operation (n : Node) (op : BinaryOp) : List Node → Eval V ε V
  | [] =>
    match neutral? op with
    | some c => return S.constant c
    | none => F n
  | [arg] => do
    let v ← eval arg
    alone S F n v op
  | arg :: args => do
    let v ← eval arg
    if op = .pow then raise v args else fold op v args

def fold (op : BinaryOp) (v : V) : List Node → Eval V ε V
  | [] => return v
  | arg :: args => do
    let w ← eval arg
    let v ← S.combine op v w
    fold op v args

def raise (v : V) : List Node → Eval V ε V
  | [] => return v
  | arg :: args => do
    let w ← eval arg
    let w ← raise w args
    S.combine .pow v w

def sole (n : Node) (op : UnaryOp) : List Node → Eval V ε V
  | [arg] => do
    let v ← eval arg
    S.apply op v
  | _ => F n

def logic (op : BoolOp) : List Node → Eval V ε V
  | [] => return S.constant (truthOf op)
  | [arg] => eval arg
  | arg :: args => do
    let v ← eval arg
    if (← S.holds v) = op.goesOn then logic op args else return v

def choice (n : Node) : List Node → Eval V ε V
  | [test, body] => do
    let v ← eval test
    if ← S.holds v then eval body else return S.constant .none
  | [test, body, orelse] => do
    let v ← eval test
    if ← S.holds v then eval body else eval orelse
  | _ => F n

def sequence : List Node → Eval V ε V
  | [] => return S.constant .none
  | [last] => eval last
  | n :: ns => do
    let _ ← eval n
    sequence ns

def assignments : List Node → Eval V ε V
  | .symbol target _ :: source :: rest => do
    let v ← eval source
    Semantics.assign (Name.mangle target) v
    assignments rest
  | _ => return S.constant .none

end

end MacroLisp.Meaning
