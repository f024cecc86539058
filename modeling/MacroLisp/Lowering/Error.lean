import MacroLisp.Expansion.Error

namespace MacroLisp

inductive Unsupported
  | symbol (name : String)
  | holeOutsideTemplate (head : String)
  | spliceOutsideSequence
  | unpacking
  | definition
  | operandWithStatements (head : String)
  | importOf (n : Node)
  | attributeOf (n : Node)

inductive Malformed
  | exactlyOne
  | atLeastOne
  | atLeastTwo
  | conditionalParts
  | oddAssignment
  | target (text : String)
  | oddDictionary
  | noObject
  | noReceiver
  | keywordWithoutValue
  | aliasWithoutName
  | noModule

inductive CompileError
  | unsupported (form : Node) (why : Unsupported)
  | malformed (head : String) (form : Node) (why : Malformed)
  | expansion (error : ExpansionError)

def Unsupported.message : Unsupported → String
  | symbol name => "cannot compile symbol `" ++ name ++ "`"
  | holeOutsideTemplate head => "`" ++ head ++ "` outside a quasiquote"
  | spliceOutsideSequence => "`unquote-splice` outside a sequence"
  | unpacking => "unpacking has no host IR equivalent"
  | definition => "macro definitions are loaded before compilation"
  | operandWithStatements head => "`" ++ head ++ "` operands after the first must be expressions"
  | importOf n => "cannot import " ++ n.text
  | attributeOf n => "attribute " ++ n.text ++ " must be a symbol"

def Malformed.message : Malformed → String
  | exactlyOne => "expects exactly 1 argument"
  | atLeastOne => "expects at least 1 argument"
  | atLeastTwo => "expects at least 2 arguments"
  | conditionalParts => "expects a test, a then-branch and an optional else-branch"
  | oddAssignment => "expects an even number of arguments"
  | target text => "cannot assign to " ++ text
  | oddDictionary => "dictionary literal needs an even number of forms"
  | noObject => "expects an object"
  | noReceiver => "method call needs an object"
  | keywordWithoutValue => "keyword argument needs a value"
  | aliasWithoutName => ":as needs a name"
  | noModule => "expects at least one module"

namespace CompileError

def form : CompileError → Node
  | unsupported form _ => form
  | malformed _ form _ => form
  | expansion e => e.form

def code : CompileError → String
  | unsupported .. => "quasi::compile::unsupported"
  | malformed .. => "quasi::compile::malformed"
  | expansion e => e.code

def message : CompileError → String
  | unsupported form why => "cannot compile " ++ form.text ++ ": " ++ why.message
  | malformed head form why => "malformed `" ++ head ++ "` form " ++ form.text ++ ": " ++ why.message
  | expansion e => e.message

end CompileError

end MacroLisp
