import MacroLisp.Binary64.Basic

namespace MacroLisp.Host

inductive Constant
  | none
  | bool (value : Bool)
  | int (value : Int64)
  | float (value : Binary64)
  | string (value : String)
  deriving DecidableEq, Repr, Inhabited

inductive Context
  | load
  | store
  deriving DecidableEq, Repr

inductive BinaryOp
  | add | sub | mult | matMult | div | floorDiv | mod | pow
  | leftShift | rightShift | bitOr | bitXor | bitAnd
  deriving DecidableEq, Repr

inductive UnaryOp
  | invert | not | plus | minus
  deriving DecidableEq, Repr

inductive BoolOp
  | and | or
  deriving DecidableEq, Repr

inductive CompareOp
  | eq | notEq | lt | ltE | gt | gtE | is | isNot | isIn | notIn
  deriving DecidableEq, Repr

inductive Expr
  | constant (c : Constant)
  | name (id : String) (ctx : Context)
  | member (value : Expr) (attr : String) (ctx : Context)
  | binary (left : Expr) (op : BinaryOp) (right : Expr)
  | unary (op : UnaryOp) (operand : Expr)
  | boolean (op : BoolOp) (values : List Expr)
  | compare (left : Expr) (ops : List CompareOp) (comparators : List Expr)
  | conditional (test body orelse : Expr)
  | call (func : Expr) (args : List Expr) (keywords : List (String × Expr))
  | list (items : List Expr)
  | tuple (items : List Expr)
  | dict (keys values : List Expr)
  deriving Repr, Inhabited

structure Alias where
  name : String
  asName : Option String
  deriving DecidableEq, Repr

inductive Stmt
  | expr (value : Expr)
  | assign (targets : List Expr) (value : Expr)
  | imports (names : List Alias)
  | ifElse (test : Expr) (body orelse : List Stmt)
  deriving Repr, Inhabited

structure Module where
  body : List Stmt
  deriving Repr

namespace Expr

def load (id : String) : Expr := name id .load

def attr (value : Expr) (name : String) : Expr := member value name .load

def none : Expr := constant .none

def bool (b : Bool) : Expr := constant (.bool b)

def int (n : Int64) : Expr := constant (.int n)

def string (s : String) : Expr := constant (.string s)

def asTarget? : Expr → Option Expr
  | name id _ => some (name id .store)
  | member value attr _ => some (member value attr .store)
  | _ => Option.none

end Expr

end MacroLisp.Host
