import MacroLisp.Lowering.Basic
import MacroLisp.Proofs.Host.Effects

namespace MacroLisp.Lowering

open Host (Expr UnaryOp BinaryOp CompareOp Effects)

/-- A form that is made of displays, operators, comparisons, calls, sequences and assignments. -/
inductive Term
  /-- A literal or a symbol, by its expression. -/
  | leaf (e : Expr)
  | list (items : List Term)
  /-- Keys and values in turn. -/
  | dict (items : List Term)
  | unary (op : UnaryOp) (operand : Term)
  | operator (op : BinaryOp) (operands : List Term)
  | comparison (op : CompareOp) (first : Term) (others : List Term)
  /-- A comparison with one operand. -/
  | holds (operand : Term)
  | member (object : Term) (name : String)
  /-- The arguments as they are written, those that are keyword arguments with their keys. -/
  | call (func : Term) (keys : List (Option String)) (args : List Term)
  | sequence (items : List Term)
  | assignment (places : List Expr) (sources : List Term)

def distribute {α : Type} : List (Option String) → List α → List α × List (String × α)
  | none :: keys, a :: as => (a :: (distribute keys as).1, (distribute keys as).2)
  | some key :: keys, a :: as => ((distribute keys as).1, (key, a) :: (distribute keys as).2)
  | _, _ => ([], [])

theorem distribute_map {α β : Type} (f : α → β) (keys : List (Option String)) (as : List α) :
    distribute keys (as.map f) = ((distribute keys as).1.map f, (distribute keys as).2.map fun k ↦ (k.1, f k.2)) := by
  induction as generalizing keys with
  | nil => rcases keys with _ | ⟨_ | _, _⟩ <;> rfl
  | cons a as ih => rcases keys with _ | ⟨_ | _, _⟩ <;> simp [distribute, ih]

namespace Term

inductive Kind
  | operator (op : BinaryOp)
  | comparison (op : CompareOp)
  | unary (op : UnaryOp)
  | sequence
  | assignment
  | method (name : String)
  | call
  | other
  deriving DecidableEq

def kind (head : String) : Kind :=
  match binaryOp? head, compareOp? head with
  | some op, _ => .operator op
  | none, some op => .comparison op
  | none, none =>
  match head with
  | "~" => .unary .invert
  | "not" => .unary .not
  | "do" => .sequence
  | "setv" => .assignment
  | "and" | "or" | "if" | "import" | "." | "quote" | "quasiquote" | "unquote" | "unquote-splice" | "unpack-iterable"
  | "unpack-mapping" | "defmacro" => .other
  | _ =>
    match method? head with
    | some name => .method name
    | none => .call

theorem kind_of_binaryOp? {head : String} {op : BinaryOp} (h : binaryOp? head = some op) : kind head = .operator op := by
  unfold kind
  rw [h]

theorem kind_of_compareOp? {head : String} {op : CompareOp} (hno : binaryOp? head = none) (h : compareOp? head = some op) :
    kind head = .comparison op := by
  unfold kind
  rw [hno, h]

def ofOperator? (op : BinaryOp) : List Term → Option Term
  | [] =>
    match op with
    | .add => some (leaf (.int 0))
    | .mult => some (leaf (.int 1))
    | _ => none
  | [t] =>
    match op with
    | .add => some (unary .plus t)
    | .sub => some (unary .minus t)
    | .mult => some t
    | .div => some (operator .div [leaf (.int 1), t])
    | _ => none
  | ts => some (operator op ts)

def ofComparison? (op : CompareOp) : List Term → Option Term
  | [] => none
  | [t] => some (holds t)
  | t :: ts => some (comparison op t ts)

def ofUnary? (op : UnaryOp) : List Term → Option Term
  | [t] => some (unary op t)
  | _ => none

mutual

def ofNode? : Node → Option Term
  | .symbol name s => (symbol name (.symbol name s)).toOption.map leaf
  | .literal l _ => some (leaf (literal l))
  | .sequence .bracket items _ => (ofNodes? items).map list
  | .sequence .brace items _ => if items.length % 2 = 0 then (ofNodes? items).map dict else none
  | .sequence .paren [] _ => some (leaf (.tuple []))
  | .sequence .paren (.symbol head s :: args) s' =>
    match kind head with
    | .operator op => (ofNodes? args).bind (ofOperator? op)
    | .comparison op => (ofNodes? args).bind (ofComparison? op)
    | .unary op => (ofNodes? args).bind (ofUnary? op)
    | .sequence => (ofNodes? args).map sequence
    | .assignment => if args.length % 2 = 0 then (ofAssignments? args).map fun p ↦ assignment p.1 p.2 else none
    | .method name =>
      match args with
      | [] => none
      | object :: rest => do
        let t ← ofNode? object
        let (keys, ts) ← ofArguments? rest
        return call (member t (Name.mangle name)) keys ts
    | .call => do
      let e ← (symbol head (.sequence .paren (.symbol head s :: args) s')).toOption
      let (keys, ts) ← ofArguments? args
      return call (leaf e) keys ts
    | .other => none
  | .sequence .paren (func :: args) _ => do
    let t ← ofNode? func
    let (keys, ts) ← ofArguments? args
    return call t keys ts

def ofNodes? : List Node → Option (List Term)
  | [] => some []
  | n :: ns => do return (← ofNode? n) :: (← ofNodes? ns)

def ofArguments? : List Node → Option (List (Option String) × List Term)
  | [] => some ([], [])
  | .literal (.keyword k) _ :: rest =>
    match rest with
    | [] => none
    | v :: rest => do
      let t ← ofNode? v
      let (keys, ts) ← ofArguments? rest
      return (some (Name.mangle k) :: keys, t :: ts)
  | n :: rest => do
    let t ← ofNode? n
    let (keys, ts) ← ofArguments? rest
    return (none :: keys, t :: ts)

def ofAssignments? : List Node → Option (List Expr × List Term)
  | .symbol name s :: source :: rest => do
    let e ← (symbol name (.symbol name s)).toOption
    let place ← e.asTarget?
    let t ← ofNode? source
    let (places, ts) ← ofAssignments? rest
    return (place :: places, t :: ts)
  | [] => some ([], [])
  | _ => none

end

section Effects

variable {M : Type → Type} {V : Type} [Monad M] (S : Effects M V)

def combine (op : BinaryOp) (v : V) : List V → V
  | [] => v
  | w :: ws => if op = .pow then S.binary op v (combine op w ws) else combine op (S.binary op v w) ws

def combineAll (op : BinaryOp) : List V → V
  | [] => S.constant .none
  | v :: ws => combine S op v ws

mutual

/-- The term is carried out as it is written. -/
def written : Term → M V
  | leaf e => S.eval e
  | list items => do return S.list (← (writtens items).mapM id)
  | dict items => do return S.dict (← (writtens items).mapM id)
  | unary op operand => do return S.unary op (← written operand)
  | operator op operands => do return combineAll S op (← (writtens operands).mapM id)
  | comparison op first others => do
    let v ← written first
    S.compareAll v (others.map fun _ ↦ op) (writtens others)
  | holds operand => do
    let _ ← written operand
    return S.constant (.bool true)
  | member object name => do S.member (← written object) name
  | call func keys args => do
    let f ← written func
    let vs ← (writtens args).mapM id
    S.call f (distribute keys vs).1 (distribute keys vs).2
  | sequence items => writtenLast items
  | assignment places sources => do
    writtenTo places sources
    return S.constant .none

def writtens : List Term → List (M V)
  | [] => []
  | t :: ts => written t :: writtens ts

def writtenLast : List Term → M V
  | [] => return S.constant .none
  | [t] => written t
  | t :: ts => do
    let _ ← written t
    writtenLast ts

def writtenTo : List Expr → List Term → M Unit
  | place :: places, t :: ts => do
    S.store (← written t) place
    writtenTo places ts
  | _, _ => return ()

end

mutual

/-- What is left to the expression. -/
def rest : Term → M V
  | leaf e => S.eval e
  | list items => do return S.list (← (rests items).mapM id)
  | dict items => do return S.dict (← (rests items).mapM id)
  | unary op operand => do return S.unary op (← rest operand)
  | operator op operands => do return combineAll S op (← (rests operands).mapM id)
  | comparison op first others => do
    let v ← rest first
    S.compareAll v (others.map fun _ ↦ op) (rests others)
  | holds _ => return S.constant (.bool true)
  | member object name => do S.member (← rest object) name
  | call func keys args => do
    let f ← rest func
    let r ← Host.computed (distribute keys (rests args))
    S.call f r.1 r.2
  | sequence items => restLast items
  | assignment _ _ => return S.constant .none

def rests : List Term → List (M V)
  | [] => []
  | t :: ts => rest t :: rests ts

def restLast : List Term → M V
  | [] => return S.constant .none
  | [t] => rest t
  | _ :: ts => restLast ts

end

mutual

/-- What is hoisted: all of a sequence but the value of its last form, assignments, and operands that are compared
with nothing. -/
def hoisted : Term → M Unit
  | leaf _ => return ()
  | list items => hoistedAll items
  | dict items => hoistedAll items
  | unary _ operand => hoisted operand
  | operator _ operands => hoistedAll operands
  | comparison _ first others => do
    hoisted first
    hoistedAll others
  | holds operand => do
    hoisted operand
    let _ ← rest S operand
  | member object _ => hoisted object
  | call func _ args => do
    hoisted func
    hoistedAll args
  | sequence items => hoistedLast items
  | assignment places sources => hoistedTo places sources

def hoistedAll : List Term → M Unit
  | [] => return ()
  | t :: ts => do
    hoisted t
    hoistedAll ts

def hoistedLast : List Term → M Unit
  | [] => return ()
  | [t] => hoisted t
  | t :: ts => do
    hoisted t
    let _ ← rest S t
    hoistedLast ts

def hoistedTo : List Expr → List Term → M Unit
  | place :: places, t :: ts => do
    hoisted t
    S.store (← rest S t) place
    hoistedTo places ts
  | _, _ => return ()

end

end Effects

end Term

end MacroLisp.Lowering
