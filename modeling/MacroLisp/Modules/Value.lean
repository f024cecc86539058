import MacroLisp.Binary64.Text
import MacroLisp.Text.Quoted

namespace MacroLisp

structure HostFunction where
  name : String
  key : Nat
  deriving DecidableEq, Repr

inductive Value
  | none
  | int (value : Int64)
  | float (value : Binary64)
  | string (value : String)
  | module (name : String)
  | function (f : HostFunction)
  deriving DecidableEq, Repr, Inhabited

inductive CallError
  | notCallable (kind : String)
  | badArguments (function message : String)
  deriving DecidableEq, Repr

namespace CallError

def code : CallError → String
  | notCallable _ => "quasi::runtime::not_callable"
  | badArguments .. => "quasi::runtime::bad_arguments"

def message : CallError → String
  | notCallable kind => "'" ++ kind ++ "' object is not callable"
  | badArguments function message => function ++ ": " ++ message

end CallError

namespace Value

def kind : Value → String
  | none => "NoneType"
  | int _ => "int"
  | float _ => "float"
  | string _ => "str"
  | module _ => "module"
  | function _ => "builtin_function"

def isModule : Value → Bool
  | module _ => true
  | _ => false

def module? : Value → Option String
  | module name => some name
  | _ => Option.none

def string? : Value → Option String
  | string s => some s
  | _ => Option.none

def number? : Value → Option Binary64
  | int n => some (.ofInt n.toInt)
  | float x => some x
  | _ => Option.none

/-- Numbers compare by value across their two kinds, functions by identity. -/
def same : Value → Value → Bool
  | none, none => true
  | int a, int b => a == b
  | int a, float y => (Binary64.ofInt a.toInt).valueEq y
  | float x, int b => x.valueEq (.ofInt b.toInt)
  | float x, float y => x.valueEq y
  | string a, string b => a == b
  | module a, module b => a == b
  | function f, function g => f.key == g.key
  | _, _ => false

def text : Value → String
  | none => "None"
  | int n => toString n.toInt
  | float x => x.text
  | string s => Text.Quoted.literal s
  | module name => "<module '" ++ name ++ "'>"
  | function f => "<built-in function " ++ f.name ++ ">"

end Value

end MacroLisp
