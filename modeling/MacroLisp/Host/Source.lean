import MacroLisp.Host.Literal

namespace MacroLisp.Host

/-- How strongly the parts of an expression hold together, the weakest first. -/
inductive Strength
  | test | or | and | not | compare | bitOr | bitXor | bitAnd | shift | arith | term | factor | power | atom
  deriving DecidableEq, Repr

namespace Strength

def rank : Strength → Nat
  | test => 0
  | or => 1
  | and => 2
  | not => 3
  | compare => 4
  | bitOr => 5
  | bitXor => 6
  | bitAnd => 7
  | shift => 8
  | arith => 9
  | term => 10
  | factor => 11
  | power => 12
  | atom => 13

def next : Strength → Strength
  | test => or
  | or => and
  | and => not
  | not => compare
  | compare => bitOr
  | bitOr => bitXor
  | bitXor => bitAnd
  | bitAnd => shift
  | shift => arith
  | arith => term
  | term => factor
  | factor => power
  | power => atom
  | atom => atom

end Strength

namespace BinaryOp

def symbol : BinaryOp → String
  | add => "+"
  | sub => "-"
  | mult => "*"
  | matMult => "@"
  | div => "/"
  | floorDiv => "//"
  | mod => "%"
  | pow => "**"
  | leftShift => "<<"
  | rightShift => ">>"
  | bitOr => "|"
  | bitXor => "^"
  | bitAnd => "&"

def strength : BinaryOp → Strength
  | bitOr => .bitOr
  | bitXor => .bitXor
  | bitAnd => .bitAnd
  | leftShift | rightShift => .shift
  | add | sub => .arith
  | mult | matMult | div | floorDiv | mod => .term
  | pow => .power

/-- What the operands need: operators group to the left, except that a power takes another on its
right. -/
def leftNeeds (op : BinaryOp) : Strength := if op = pow then op.strength.next else op.strength

def rightNeeds (op : BinaryOp) : Strength := if op = pow then .factor else op.strength.next

end BinaryOp

namespace UnaryOp

def symbol : UnaryOp → String
  | invert => "~"
  | not => "not "
  | plus => "+"
  | minus => "-"

def strength : UnaryOp → Strength
  | not => .not
  | _ => .factor

end UnaryOp

namespace BoolOp

def symbol : BoolOp → String
  | and => "and"
  | or => "or"

def strength : BoolOp → Strength
  | and => .and
  | or => .or

end BoolOp

def CompareOp.symbol : CompareOp → String
  | eq => "=="
  | notEq => "!="
  | lt => "<"
  | ltE => "<="
  | gt => ">"
  | gtE => ">="
  | is => "is"
  | isNot => "is not"
  | isIn => "in"
  | notIn => "not in"

namespace Expr

def strength : Expr → Strength
  | constant c => if c.isNegative then .factor else .atom
  | binary _ op _ => op.strength
  | unary op _ => op.strength
  | boolean op _ => op.strength
  | compare .. => .compare
  | conditional .. => .test
  | _ => .atom

def enclose (needed : Strength) (e : Expr) (text : String) : String :=
  if e.strength.rank < needed.rank then "(" ++ text ++ ")" else text

/-- An integer before a point would be read as a float. -/
def isInt : Expr → Bool
  | constant (.int _) => true
  | _ => false

mutual

def source : Expr → String
  | constant c => c.text
  | name id _ => id
  | member value attr _ =>
    let base := enclose .atom value (source value)
    (if value.isInt then "(" ++ base ++ ")" else base) ++ "." ++ attr
  | binary left op right =>
    enclose op.leftNeeds left (source left) ++ " " ++ op.symbol ++ " " ++
      enclose op.rightNeeds right (source right)
  | unary op operand => op.symbol ++ enclose op.strength operand (source operand)
  | boolean op values => (" " ++ op.symbol ++ " ").intercalate (sources op.strength.next values)
  | compare left ops comparators =>
    enclose .bitOr left (source left) ++
      String.join ((ops.zip (sources .bitOr comparators)).map fun (op, text) =>
        " " ++ op.symbol ++ " " ++ text)
  | conditional test body orelse =>
    enclose .or body (source body) ++ " if " ++ enclose .or test (source test) ++ " else " ++
      enclose .test orelse (source orelse)
  | call func args keywords =>
    enclose .atom func (source func) ++ "(" ++
      ", ".intercalate (sources .test args ++ keywordSources keywords) ++ ")"
  | list items => "[" ++ ", ".intercalate (sources .test items) ++ "]"
  | tuple items =>
    "(" ++ ", ".intercalate (sources .test items) ++ (if items.length = 1 then ",)" else ")")
  | dict keys values =>
    "\x7b" ++ ", ".intercalate (((sources .test keys).zip (sources .test values)).map fun (k, v) =>
      k ++ ": " ++ v) ++ "\x7d"

def sources (needed : Strength) : List Expr → List String
  | [] => []
  | e :: es => enclose needed e (source e) :: sources needed es

def keywordSources : List (String × Expr) → List String
  | [] => []
  | (key, e) :: ks => (key ++ "=" ++ enclose .test e (source e)) :: keywordSources ks

end

@[simp] theorem sources_eq_map (needed : Strength) (es : List Expr) :
    sources needed es = es.map fun e => enclose needed e (source e) := by
  induction es with
  | nil => rfl
  | cons e es ih => simp [sources, ih]

end Expr

def Alias.source (a : Alias) : String :=
  match a.asName with
  | some name => a.name ++ " as " ++ name
  | none => a.name

namespace Stmt

def line (level : Nat) (text : String) : String :=
  String.ofList (List.replicate (4 * level) ' ') ++ text ++ "\n"

mutual

def source (level : Nat) : Stmt → String
  | expr value => line level value.source
  | assign targets value =>
    line level (" = ".intercalate (targets.map Expr.source) ++ " = " ++ value.source)
  | imports names => line level ("import " ++ ", ".intercalate (names.map Alias.source))
  | ifElse test body orelse =>
    line level ("if " ++ test.source ++ ":") ++
      (if body.isEmpty then line (level + 1) "pass" else sources (level + 1) body) ++
      (if orelse.isEmpty then "" else line level "else:" ++ sources (level + 1) orelse)

def sources (level : Nat) : List Stmt → String
  | [] => ""
  | s :: ss => source level s ++ sources level ss

end

end Stmt

def Module.source (m : Module) : String := Stmt.sources 0 m.body

end MacroLisp.Host
