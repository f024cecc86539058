import MacroLisp.Host.Literal

namespace MacroLisp.Host

def listText (items : List String) : String := "[" ++ ", ".intercalate items ++ "]"

def nodeText (kind : String) (fields : List (String × String)) : String :=
  kind ++ "(" ++ ", ".intercalate (fields.map fun (name, text) => name ++ "=" ++ text) ++ ")"

def Context.dump : Context → String
  | load => "Load()"
  | store => "Store()"

def BinaryOp.kind : BinaryOp → String
  | add => "Add"
  | sub => "Sub"
  | mult => "Mult"
  | matMult => "MatMult"
  | div => "Div"
  | floorDiv => "FloorDiv"
  | mod => "Mod"
  | pow => "Pow"
  | leftShift => "LShift"
  | rightShift => "RShift"
  | bitOr => "BitOr"
  | bitXor => "BitXor"
  | bitAnd => "BitAnd"

def UnaryOp.kind : UnaryOp → String
  | invert => "Invert"
  | not => "Not"
  | plus => "UAdd"
  | minus => "USub"

def BoolOp.kind : BoolOp → String
  | and => "And"
  | or => "Or"

def CompareOp.kind : CompareOp → String
  | eq => "Eq"
  | notEq => "NotEq"
  | lt => "Lt"
  | ltE => "LtE"
  | gt => "Gt"
  | gtE => "GtE"
  | is => "Is"
  | isNot => "IsNot"
  | isIn => "In"
  | notIn => "NotIn"

namespace Expr

mutual

def dump : Expr → String
  | constant c => nodeText "Constant" [("value", c.text)]
  | name id ctx => nodeText "Name" [("id", stringText id), ("ctx", ctx.dump)]
  | member value attr ctx =>
    nodeText "Attribute" [("value", dump value), ("attr", stringText attr), ("ctx", ctx.dump)]
  | binary left op right =>
    nodeText "BinOp" [("left", dump left), ("op", op.kind ++ "()"), ("right", dump right)]
  | unary op operand => nodeText "UnaryOp" [("op", op.kind ++ "()"), ("operand", dump operand)]
  | boolean op values => nodeText "BoolOp" [("op", op.kind ++ "()"), ("values", listText (dumpAll values))]
  | compare left ops comparators =>
    nodeText "Compare" [("left", dump left), ("ops", listText (ops.map fun op => op.kind ++ "()")),
      ("comparators", listText (dumpAll comparators))]
  | conditional test body orelse =>
    nodeText "IfExp" [("test", dump test), ("body", dump body), ("orelse", dump orelse)]
  | call func args keywords =>
    nodeText "Call" [("func", dump func), ("args", listText (dumpAll args)),
      ("keywords", listText (dumpKeywords keywords))]
  | list items => nodeText "List" [("elts", listText (dumpAll items)), ("ctx", "Load()")]
  | tuple items => nodeText "Tuple" [("elts", listText (dumpAll items)), ("ctx", "Load()")]
  | dict keys values =>
    nodeText "Dict" [("keys", listText (dumpAll keys)), ("values", listText (dumpAll values))]

def dumpAll : List Expr → List String
  | [] => []
  | e :: es => dump e :: dumpAll es

def dumpKeywords : List (String × Expr) → List String
  | [] => []
  | (key, e) :: ks => nodeText "keyword" [("arg", stringText key), ("value", dump e)] :: dumpKeywords ks

end

@[simp] theorem dumpAll_eq_map (es : List Expr) : dumpAll es = es.map dump := by
  induction es with
  | nil => rfl
  | cons e es ih => simp [dumpAll, ih]

end Expr

def Alias.dump (a : Alias) : String :=
  nodeText "alias" (("name", stringText a.name) ::
    (a.asName.map fun name => ("asname", stringText name)).toList)

namespace Stmt

mutual

def dump : Stmt → String
  | expr value => nodeText "Expr" [("value", value.dump)]
  | assign targets value =>
    nodeText "Assign" [("targets", listText (targets.map Expr.dump)), ("value", value.dump)]
  | imports names => nodeText "Import" [("names", listText (names.map Alias.dump))]
  | ifElse test body orelse =>
    nodeText "If" [("test", test.dump), ("body", listText (dumpAll body)),
      ("orelse", listText (dumpAll orelse))]

def dumpAll : List Stmt → List String
  | [] => []
  | s :: ss => dump s :: dumpAll ss

end

@[simp] theorem dumpAll_eq_map (ss : List Stmt) : dumpAll ss = ss.map dump := by
  induction ss with
  | nil => rfl
  | cons s ss ih => simp [dumpAll, ih]

end Stmt

def Module.dump (m : Module) : String :=
  nodeText "Module" [("body", listText (m.body.map Stmt.dump)), ("type_ignores", "[]")]

end MacroLisp.Host
