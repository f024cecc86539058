import MacroLisp.Proofs.Host.Execution

namespace MacroLisp.Host

/-- Reads of names and members, calls and assignments are effects, of any kind whatever; all else makes values out of
values. -/
structure Effects (M : Type → Type) (V : Type) where
  constant : Constant → V
  unary : UnaryOp → V → V
  binary : BinaryOp → V → V → V
  compare : CompareOp → V → V → V
  truth : V → Bool
  list : List V → V
  tuple : List V → V
  /-- Takes keys and values in turn. -/
  dict : List V → V
  load : String → M V
  member : V → String → M V
  call : V → List V → List (String × V) → M V
  assign : String → V → M Unit
  assignMember : V → String → V → M Unit
  imports : List Alias → M Unit

def interleave {α : Type} : List α → List α → List α
  | a :: as, b :: bs => a :: b :: interleave as bs
  | _, _ => []

theorem interleave_map {α β : Type} (f : α → β) (as bs : List α) :
    interleave (as.map f) (bs.map f) = (interleave as bs).map f := by
  induction as generalizing bs with
  | nil => rfl
  | cons a as ih =>
    cases bs with
    | nil => rfl
    | cons b bs => simp [interleave, ih]

def computed {M : Type → Type} {V : Type} [Monad M] (args : List (M V) × List (String × M V)) :
    M (List V × List (String × V)) := do
  let vs ← args.1.mapM id
  let ks ← args.2.mapM fun k ↦ do return (k.1, ← k.2)
  return (vs, ks)

namespace Effects

variable {M : Type → Type} {V : Type} [Monad M] (S : Effects M V)

/-- The operands but for the first are computed as far as they are needed. -/
def compareAll (v : V) : List CompareOp → List (M V) → M V
  | op :: _, [x] => do return S.compare op v (← x)
  | op :: ops, x :: y :: xs => do
    let w ← x
    if S.truth (S.compare op v w) then compareAll w ops (y :: xs) else return S.compare op v w
  | _, _ => return v

/-- The value of the deciding operand, or of the last. -/
def boolean (op : BoolOp) : List (M V) → M V
  | [] => return S.constant .none
  | [x] => x
  | x :: xs => do
    let v ← x
    if S.truth v = op.goesOn then boolean op xs else return v

mutual

def eval : Expr → M V
  | .constant c => return S.constant c
  | .name id _ => S.load id
  | .member value attr _ => do S.member (← eval value) attr
  | .binary left op right => do
    let v ← eval left
    let w ← eval right
    return S.binary op v w
  | .unary op operand => do return S.unary op (← eval operand)
  | .boolean op values => S.boolean op (evals values)
  | .compare left ops comparators => do
    let v ← eval left
    S.compareAll v ops (evals comparators)
  | .conditional test body orelse => do
    if S.truth (← eval test) then eval body else eval orelse
  | .call func args keywords => do
    let f ← eval func
    let r ← computed (evals args, keywordEvals keywords)
    S.call f r.1 r.2
  | .list items => do return S.list (← (evals items).mapM id)
  | .tuple items => do return S.tuple (← (evals items).mapM id)
  | .dict keys values => do return S.dict (← (interleave (evals keys) (evals values)).mapM id)

def evals : List Expr → List (M V)
  | [] => []
  | e :: es => eval e :: evals es

def keywordEvals : List (String × Expr) → List (String × M V)
  | [] => []
  | (k, e) :: ks => (k, eval e) :: keywordEvals ks

end

def store (v : V) : Expr → M Unit
  | .name id _ => S.assign id v
  | .member value attr _ => do S.assignMember (← S.eval value) attr v
  | _ => return ()

mutual

def exec : Stmt → M Unit
  | .expr value => do
    let _ ← S.eval value
  | .assign targets value => do
    let v ← S.eval value
    targets.forM (S.store v)
  | .imports names => S.imports names
  | .ifElse test body orelse => do
    if S.truth (← S.eval test) then execAll body else execAll orelse

def execAll : List Stmt → M Unit
  | [] => return ()
  | s :: ss => do
    exec s
    execAll ss

end

def finish (ss : List Stmt) (e : Expr) : M V := do
  S.execAll ss
  S.eval e

@[simp] theorem evals_eq_map (es : List Expr) : S.evals es = es.map S.eval := by
  induction es with
  | nil => rfl
  | cons e es ih => simp [evals, ih]

@[simp] theorem keywordEvals_eq_map (ks : List (String × Expr)) :
    S.keywordEvals ks = ks.map fun k ↦ (k.1, S.eval k.2) := by
  induction ks with
  | nil => rfl
  | cons k ks ih => simp [keywordEvals, ih]

theorem compareAll_cons (op : CompareOp) (ops : List CompareOp) (v : V) (x : M V) (xs : List (M V)) :
    S.compareAll v (op :: ops) (x :: xs) = (do
      let w ← x
      match xs with
      | [] => return S.compare op v w
      | xs => if S.truth (S.compare op v w) then S.compareAll w ops xs else return S.compare op v w) := by
  cases xs <;> rfl

variable [LawfulMonad M]

theorem execAll_append (ss ss' : List Stmt) : S.execAll (ss ++ ss') = (do S.execAll ss; S.execAll ss') := by
  induction ss with
  | nil => simp [execAll]
  | cons s ss ih => simp [execAll, ih]

theorem execAll_expr (ss : List Stmt) (e : Expr) : S.execAll (ss ++ [.expr e]) = (do S.execAll ss; let _ ← S.eval e) := by
  simp [execAll_append, execAll, exec]

theorem execAll_assign (ss : List Stmt) (place e : Expr) :
    S.execAll (ss ++ [.assign [place] e]) = (do S.execAll ss; S.store (← S.eval e) place) := by
  simp [execAll_append, execAll, exec]

end Effects

end MacroLisp.Host
