import MacroLisp.Host.Expr
import MacroLisp.Lowering.Error
import MacroLisp.Name.Mangle
import MacroLisp.Text.Fields

namespace MacroLisp.Lowering

open Host (Expr BinaryOp CompareOp)

def model (kind : String) (argument : Expr) : Expr :=
  .call (((Expr.load "hy").attr "models").attr kind) [argument] []

def literal : Literal → Expr
  | .int n => .int n
  | .float x => .constant (.float x)
  | .string s => .string s
  | .keyword k => model "Keyword" (.string k)

def quotedLiteral : Literal → Expr
  | .int n => model "Integer" (.int n)
  | .float x => model "Float" (.constant (.float x))
  | .string s => model "String" (.string s)
  | .keyword k => model "Keyword" (.string k)

def constant? : String → Option Expr
  | "None" => some .none
  | "True" => some (.bool true)
  | "False" => some (.bool false)
  | _ => none

def chain (first : String) (rest : List String) : Expr :=
  rest.foldl (fun e component => e.attr (Name.mangle component)) (.load (Name.mangle first))

/-- The value of a symbol: a constant, a name, or a chain of attributes if it has dots between its
parts. -/
def symbol (name : String) (n : Node) : Except CompileError Expr :=
  match constant? name with
  | some e => .ok e
  | none =>
    if !name.toList.contains '.' || name.toList.all (· = '.') then .ok (.load (Name.mangle name))
    else
      let components := Text.fields '.' name
      if components.any String.isEmpty then .error (.unsupported n (.symbol name))
      else
        match components with
        | first :: rest => .ok (chain first rest)
        | [] => .error (.unsupported n (.symbol name))

def binaryOp? : String → Option BinaryOp
  | "+" => some .add
  | "-" => some .sub
  | "*" => some .mult
  | "@" => some .matMult
  | "/" => some .div
  | "//" => some .floorDiv
  | "%" => some .mod
  | "**" => some .pow
  | "<<" => some .leftShift
  | ">>" => some .rightShift
  | "|" => some .bitOr
  | "^" => some .bitXor
  | "&" => some .bitAnd
  | _ => none

def compareOp? : String → Option CompareOp
  | "=" => some .eq
  | "!=" => some .notEq
  | "<" => some .lt
  | "<=" => some .ltE
  | ">" => some .gt
  | ">=" => some .gtE
  | "is" => some .is
  | "is-not" => some .isNot
  | "in" => some .isIn
  | "not-in" => some .notIn
  | _ => none

/-- The operands of an operator grouped to the left, or to the right for powers. -/
def group (op : BinaryOp) (first : Expr) (rest : List Expr) : Expr :=
  if op = .pow then
    match rest with
    | [] => first
    | second :: rest => .binary first op (group op second rest)
  else rest.foldl (fun left right => .binary left op right) first

def operation (head : String) (op : BinaryOp) (n : Node) : List Expr → Except CompileError Expr
  | [] =>
    match op with
    | .add => .ok (.int 0)
    | .mult => .ok (.int 1)
    | _ => .error (.malformed head n .atLeastOne)
  | [e] =>
    match op with
    | .add => .ok (.unary .plus e)
    | .sub => .ok (.unary .minus e)
    | .mult => .ok e
    | .div => .ok (.binary (.int 1) .div e)
    | _ => .error (.malformed head n .atLeastTwo)
  | first :: rest => .ok (group op first rest)

/-- A part of a quoted sequence: an item, or a sequence whose items take its place. -/
inductive Piece
  | item (e : Expr)
  | splice (e : Expr)

def chunks (run : List Expr) : List Piece → List Expr
  | [] => if run.isEmpty then [] else [.list run]
  | .item e :: pieces => chunks (run ++ [e]) pieces
  | .splice e :: pieces =>
    (if run.isEmpty then [] else [.list run]) ++ .call (.load "list") [e] [] :: chunks [] pieces

def concatenation : List Expr → Expr
  | [] => .list []
  | first :: rest => rest.foldl (fun left right => .binary left .add right) first

def sequenceKind : Delimiter → String
  | .paren => "Expression"
  | .bracket => "List"
  | .brace => "Dict"

def quotedSequence (d : Delimiter) (pieces : List Piece) : Expr :=
  model (sequenceKind d) (concatenation (chunks [] pieces))

end MacroLisp.Lowering
