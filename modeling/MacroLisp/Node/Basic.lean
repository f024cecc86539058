import MacroLisp.Span
import MacroLisp.Binary64.Basic

namespace MacroLisp

inductive Delimiter
  | paren
  | bracket
  | brace
  deriving DecidableEq, Repr, Inhabited

/-- A leaf that evaluates to itself. A keyword is stored without its colon. -/
inductive Literal
  | string (value : String)
  | int (value : Int64)
  | float (value : Binary64)
  | keyword (name : String)
  deriving DecidableEq, Repr, Inhabited

/-- The tree that the reader produces, macros transform and the compiler lowers. Spans are no part of what a node is:
equality ignores them. -/
inductive Node
  | symbol (name : String) (span : Span)
  | literal (value : Literal) (span : Span)
  | sequence (delimiter : Delimiter) (items : List Node) (span : Span)
  deriving Repr, Inhabited

namespace Delimiter

def opening : Delimiter → Char
  | paren => '('
  | bracket => '['
  | brace => '{'

def closing : Delimiter → Char
  | paren => ')'
  | bracket => ']'
  | brace => '}'

end Delimiter

/-- Floats compare by value, all else by identity. -/
def Literal.same : Literal → Literal → Bool
  | float x, float y => x.valueEq y
  | a, b => a == b

namespace Node

def span : Node → Span
  | symbol _ s | literal _ s | sequence _ _ s => s

def withSpan (s : Span) : Node → Node
  | symbol name _ => symbol name s
  | literal value _ => literal value s
  | sequence d items _ => sequence d items s

/-- A node without a place of its own takes the given one. -/
def placedAt (s : Span) (n : Node) : Node :=
  if n.span = .nowhere then n.withSpan s else n

def form (items : List Node) (s : Span) : Node := sequence .paren items s

def symbol? : Node → Option String
  | symbol name _ => some name
  | _ => none

def items? : Node → Option (List Node)
  | sequence _ items _ => some items
  | _ => none

def itemsIn? (d : Delimiter) : Node → Option (List Node)
  | sequence d' items _ => if d' = d then some items else none
  | _ => none

def form? : Node → Option (List Node) := itemsIn? .paren

def head? : Node → Option String
  | sequence .paren (symbol name _ :: _) _ => some name
  | _ => none

def isCallTo (name : String) (n : Node) : Bool := n.head? == some name

mutual

def same : Node → Node → Bool
  | symbol a _, symbol b _ => a == b
  | literal a _, literal b _ => a.same b
  | sequence d as _, sequence e bs _ => d == e && sameList as bs
  | _, _ => false

def sameList : List Node → List Node → Bool
  | [], [] => true
  | a :: as, b :: bs => same a b && sameList as bs
  | _, _ => false

end

end Node

end MacroLisp
