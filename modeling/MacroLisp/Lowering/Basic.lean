import MacroLisp.Expansion.Engine
import MacroLisp.Lowering.Model

namespace MacroLisp

/-- What needs statements records them, to be run before the expression that uses its value. -/
abbrev LowerM := Process Host.Stmt CompileError

namespace Lowering

open Host (Expr Stmt Alias BinaryOp CompareOp BoolOp UnaryOp)

def reject {α : Type} (n : Node) (why : Unsupported) : LowerM α := .throw (.unsupported n why)

def refuse {α : Type} (head : String) (n : Node) (why : Malformed) : LowerM α := .throw (.malformed head n why)

def ofExcept {α : Type} : Except CompileError α → LowerM α
  | .ok a => return a
  | .error e => .throw e

def emit (s : Stmt) : LowerM Unit := .record s

section Shapes

variable (lower : Node → LowerM (Option Expr))

def value (n : Node) : LowerM Expr := do return (← lower n).getD .none

def values : List Node → LowerM (List Expr)
  | [] => return []
  | n :: ns => return (← value lower n) :: (← values ns)

def operator (head : String) (op : BinaryOp) (args : List Node) (n : Node) : LowerM Expr := do
  ofExcept (operation head op n (← values lower args))

/-- A comparison with one operand holds, once that is evaluated. -/
def comparison (head : String) (op : CompareOp) (args : List Node) (n : Node) : LowerM Expr := do
  match ← values lower args with
  | [] => refuse head n .atLeastOne
  | [left] =>
    emit (.expr left)
    return .bool true
  | left :: rest => return .compare left (rest.map fun _ => op) rest

/-- The operands after the first may not be evaluated, so they must not need statements. -/
def laterOperands (head : String) (n : Node) : List Node → LowerM (List Expr)
  | [] => return []
  | arg :: args => do
    let (e, stmts) ← (value lower arg).collect
    if stmts.isEmpty then return e :: (← laterOperands head n args)
    else reject n (.operandWithStatements head)

def boolean (head : String) (op : BoolOp) (args : List Node) (n : Node) : LowerM Expr :=
  match args with
  | [] =>
    match op with
    | .and => return .bool true
    | .or => return .none
  | first :: rest => do
    let e ← value lower first
    match ← laterOperands lower head n rest with
    | [] => return e
    | es => return .boolean op (e :: es)

/-- A conditional expression, unless a branch needs statements. Then both branches assign to a fresh
name. -/
def conditional (test body : Node) (orelse : Option Node) : LowerM Expr := do
  let test ← value lower test
  let (bodyValue, bodyStmts) ← (value lower body).collect
  let (elseValue, elseStmts) ← (match orelse with
    | some n => value lower n
    | none => return .none).collect
  if bodyStmts.isEmpty && elseStmts.isEmpty then return .conditional test bodyValue elseValue
  else
    let temporary ← .freshName "if"
    let assign (e : Expr) : Stmt := .assign [.name temporary .store] e
    emit (.ifElse test (bodyStmts ++ [assign bodyValue]) (elseStmts ++ [assign elseValue]))
    return .load temporary

def sequence : List Node → LowerM (Option Expr)
  | [] => return none
  | [last] => lower last
  | n :: ns => do
    match ← lower n with
    | some e => emit (.expr e)
    | none => pure ()
    sequence ns

def assignments (n : Node) : List Node → LowerM Unit
  | target :: source :: rest => do
    match target.symbol? with
    | none => refuse "setv" n (.target target.text)
    | some name =>
      match (← ofExcept (symbol name target)).asTarget? with
      | none => refuse "setv" n (.target name)
      | some place =>
        emit (.assign [place] (← value lower source))
        assignments n rest
  | _ => return ()

def keyValues : List Node → LowerM (List Expr × List Expr)
  | k :: v :: rest => do
    let k ← value lower k
    let v ← value lower v
    let (ks, vs) ← keyValues rest
    return (k :: ks, v :: vs)
  | _ => return ([], [])

def dictionary (items : List Node) (n : Node) : LowerM Expr :=
  if items.length % 2 ≠ 0 then refuse "\x7b\x7d" n .oddDictionary
  else do
    let (ks, vs) ← keyValues lower items
    return .dict ks vs

def isUnpacking (n : Node) : Bool := n.isCallTo "unpack-iterable" || n.isCallTo "unpack-mapping"

def arguments : List Node → LowerM (List Expr × List (String × Expr))
  | [] => return ([], [])
  | .literal (.keyword k) s :: rest =>
    match rest with
    | [] => refuse k (.literal (.keyword k) s) .keywordWithoutValue
    | v :: rest => do
      let v ← value lower v
      let (es, ks) ← arguments rest
      return (es, (Name.mangle k, v) :: ks)
  | n :: rest => do
    if isUnpacking n then reject n .unpacking
    else
      let e ← value lower n
      let (es, ks) ← arguments rest
      return (e :: es, ks)

def call (func : Expr) (args : List Node) : LowerM Expr := do
  let (es, ks) ← arguments lower args
  return .call func es ks

def attributes (n : Node) : Expr → List Node → LowerM Expr
  | e, [] => return e
  | e, a :: rest =>
    match a.symbol? with
    | some name => attributes n (e.attr (Name.mangle name)) rest
    | none => reject n (.attributeOf a)

def method? (head : String) : Option String :=
  match head.toList with
  | '.' :: c :: cs => if (c :: cs).contains '.' then none else some (String.ofList (c :: cs))
  | _ => none

mutual

/-- The expression that builds a node. Inside a template `level` counts its nesting; the holes of
the first level are lowered as code. -/
def quote (level : Option Nat) : Node → LowerM Expr
  | .symbol name _ => return model "Symbol" (.string name)
  | .literal l _ => return quotedLiteral l
  | .sequence d items s =>
    match level, d, items with
    | some level, .paren, [.symbol h hs, operand] =>
      if h = "unquote" ∧ level = 1 then value lower operand
      else if h = "unquote-splice" ∧ level = 1 then
        reject (.form [.symbol h hs, operand] s) .spliceOutsideSequence
      else
        let level := if h = "unquote" ∨ h = "unquote-splice" then level - 1
          else if h = "quasiquote" then level + 1
          else level
        do return quotedSequence .paren (.item (model "Symbol" (.string h)) ::
          (← quoteItems (some level) [operand]))
    | level, d, items => do return quotedSequence d (← quoteItems level items)

/-- The parts of a quoted sequence. Splices of the first level are concatenated. -/
def quoteItems (level : Option Nat) : List Node → LowerM (List Piece)
  | [] => return []
  | .sequence .paren [.symbol h hs, operand] s :: items => do
    if h = "unquote-splice" ∧ level = some 1 then
      let e ← value lower operand
      return .splice e :: (← quoteItems level items)
    else
      let e ← quote level (.sequence .paren [.symbol h hs, operand] s)
      return .item e :: (← quoteItems level items)
  | item :: items => do
    let e ← quote level item
    return .item e :: (← quoteItems level items)

end

end Shapes

def aliases (n : Node) : List Node → Except CompileError (List Alias)
  | [] => .ok []
  | .symbol path _ :: .literal (.keyword "as") _ :: name :: rest =>
    match name.symbol? with
    | none => .error (.malformed "import" n .aliasWithoutName)
    | some name => do return ⟨Name.mangle path, some (Name.mangle name)⟩ :: (← aliases n rest)
  | .symbol path _ :: rest => do return ⟨Name.mangle path, none⟩ :: (← aliases n rest)
  | other :: _ => .error (.unsupported n (.importOf other))

section Forms

variable (lower : Node → LowerM (Option Expr))

def single {α : Type} (head : String) (n : Node) (args : List Node) (f : Node → LowerM α) : LowerM α :=
  match args with
  | [arg] => f arg
  | _ => refuse head n .exactlyOne

def form (head : String) (args : List Node) (n : Node) : LowerM (Option Expr) :=
  match binaryOp? head, compareOp? head with
  | some op, _ => some <$> operator lower head op args n
  | none, some op => some <$> comparison lower head op args n
  | none, none =>
  match head with
  | "~" => single head n args fun arg => do return some (.unary .invert (← value lower arg))
  | "not" => single head n args fun arg => do return some (.unary .not (← value lower arg))
  | "and" => some <$> boolean lower head .and args n
  | "or" => some <$> boolean lower head .or args n
  | "if" =>
    match args with
    | [test, body] => some <$> conditional lower test body none
    | [test, body, orelse] => some <$> conditional lower test body (some orelse)
    | _ => refuse head n .conditionalParts
  | "do" => sequence lower args
  | "setv" =>
    if args.length % 2 ≠ 0 then refuse head n .oddAssignment
    else do
      assignments lower n args
      return none
  | "import" => do
    match ← ofExcept (aliases n args) with
    | [] => refuse head n .noModule
    | names =>
      emit (.imports names)
      return none
  | "." =>
    match args with
    | [] => refuse head n .noObject
    | object :: rest => do
      let e ← value lower object
      some <$> attributes n e rest
  | "quote" => single head n args fun arg => some <$> quote lower none arg
  | "quasiquote" => single head n args fun arg => some <$> quote lower (some 1) arg
  | "unquote" => reject n (.holeOutsideTemplate head)
  | "unquote-splice" => reject n (.holeOutsideTemplate head)
  | "unpack-iterable" => reject n .unpacking
  | "unpack-mapping" => reject n .unpacking
  | "defmacro" => reject n .definition
  | _ =>
    match method? head with
    | some name =>
      match args with
      | [] => refuse head n .noReceiver
      | object :: rest => do
        let e ← value lower object
        some <$> call lower (e.attr (Name.mangle name)) rest
    | none => do
      let func ← ofExcept (symbol head n)
      some <$> call lower func args

def expanded (n : Node) : LowerM (Option Expr) :=
  match n with
  | .literal l _ => return some (literal l)
  | .symbol name _ => some <$> ofExcept (symbol name n)
  | .sequence .bracket items _ => do return some (.list (← values lower items))
  | .sequence .brace items _ => some <$> dictionary lower items n
  | .sequence .paren [] _ => return some (.tuple [])
  | .sequence .paren (.symbol head _ :: args) _ => form lower head args n
  | .sequence .paren (func :: args) _ => do
    let f ← value lower func
    some <$> call lower f args

end Forms

end Lowering

/-- A compiler, which expands macros if it has any. -/
structure Compiler where
  expansion : Option Expansion

namespace Compiler

variable (c : Compiler)

def expand (fuel : Nat) (n : Node) : LowerM Expanded :=
  match c.expansion with
  | none => return ⟨n, false⟩
  | some x => do
    match ← (x.head fuel .value 0 n).quietly with
    | .ok e => return e
    | .error e => .throw (.expansion e)

/-- Lowers a form. Nothing is expanded inside the final value of a macro. -/
def lower : Nat → Bool → Node → LowerM (Option Host.Expr)
  | 0, _, _ => .unfinished
  | fuel + 1, true, n => do
    let e ← c.expand fuel n
    Lowering.expanded (lower fuel (!e.verbatim)) e.node
  | fuel + 1, false, n => Lowering.expanded (lower fuel false) n

/-- The import that programs get which build nodes. -/
def libraryImport : Host.Stmt := .imports [⟨"hy", none⟩]

def statements (fuel : Nat) : List Node → LowerM Unit
  | [] => return ()
  | n :: ns => do
    match ← c.lower fuel true n with
    | some e => Lowering.emit (.expr e)
    | none => pure ()
    statements fuel ns

def module (fuel : Nat) (withLibrary : Bool) (forms : List Node) : LowerM Host.Module := do
  let ((), body) ← (c.statements fuel forms).collect
  return ⟨if withLibrary then libraryImport :: body else body⟩

end Compiler

end MacroLisp
