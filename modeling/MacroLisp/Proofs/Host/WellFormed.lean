import MacroLisp.Host.Expr
import MacroLisp.Name.Fresh

namespace MacroLisp.Host

namespace Expr

/-- Names and attributes are read, and operators, comparisons and dictionaries have the operands that they need. -/
inductive WellFormed : Expr → Prop
  | constant (c : Constant) : WellFormed (constant c)
  | name (id : String) : WellFormed (name id .load)
  | member {value : Expr} (attr : String) (hv : WellFormed value) : WellFormed (member value attr .load)
  | binary {left right : Expr} (op : BinaryOp) (hl : WellFormed left) (hr : WellFormed right) :
    WellFormed (binary left op right)
  | unary {operand : Expr} (op : UnaryOp) (h : WellFormed operand) : WellFormed (unary op operand)
  | boolean {values : List Expr} (op : BoolOp) (hlen : 2 ≤ values.length) (h : ∀ e ∈ values, WellFormed e) :
    WellFormed (boolean op values)
  | compare {left : Expr} {ops : List CompareOp} {comparators : List Expr} (hl : WellFormed left)
    (hlen : ops.length = comparators.length) (hne : 1 ≤ ops.length) (h : ∀ e ∈ comparators, WellFormed e) :
    WellFormed (compare left ops comparators)
  | conditional {test body orelse : Expr} (ht : WellFormed test) (hb : WellFormed body) (ho : WellFormed orelse) :
    WellFormed (conditional test body orelse)
  | call {func : Expr} {args : List Expr} {keywords : List (String × Expr)} (hf : WellFormed func)
    (ha : ∀ e ∈ args, WellFormed e) (hk : ∀ k ∈ keywords, WellFormed k.2) : WellFormed (call func args keywords)
  | list {items : List Expr} (h : ∀ e ∈ items, WellFormed e) : WellFormed (list items)
  | tuple {items : List Expr} (h : ∀ e ∈ items, WellFormed e) : WellFormed (tuple items)
  | dict {keys values : List Expr} (hlen : keys.length = values.length) (hk : ∀ e ∈ keys, WellFormed e)
    (hv : ∀ e ∈ values, WellFormed e) : WellFormed (dict keys values)

inductive IsTarget : Expr → Prop
  | name (id : String) : IsTarget (name id .store)
  | member {value : Expr} (attr : String) (hv : WellFormed value) : IsTarget (member value attr .store)

end Expr

namespace Stmt

def lastTarget? (body : List Stmt) : Option String :=
  match body.getLast? with
  | some (assign [.name id .store] _) => some id
  | _ => none

inductive WellFormed : Stmt → Prop
  | expr {value : Expr} (h : value.WellFormed) : WellFormed (expr value)
  | assign {target value : Expr} (ht : target.IsTarget) (hv : value.WellFormed) : WellFormed (assign [target] value)
  | imports {names : List Alias} (hne : names ≠ []) : WellFormed (imports names)
  | ifElse {test : Expr} {body orelse : List Stmt} (temporary : String)
    (hr : NameSupply.isReserved temporary = true) (hb : lastTarget? body = some temporary)
    (ho : lastTarget? orelse = some temporary) (ht : test.WellFormed) (hbody : ∀ s ∈ body, WellFormed s)
    (horelse : ∀ s ∈ orelse, WellFormed s) : WellFormed (ifElse test body orelse)

mutual

/-- The names in which the conditionals of a statement leave their values, one for each conditional. -/
def temporaries : Stmt → List String
  | ifElse _ body orelse => (lastTarget? body).toList ++ (temporariesOfAll body ++ temporariesOfAll orelse)
  | _ => []

def temporariesOfAll : List Stmt → List String
  | [] => []
  | s :: ss => temporaries s ++ temporariesOfAll ss

end

theorem temporariesOfAll_append (ss ss' : List Stmt) :
    temporariesOfAll (ss ++ ss') = temporariesOfAll ss ++ temporariesOfAll ss' := by
  induction ss with
  | nil => rfl
  | cons s ss ih => rw [List.cons_append, temporariesOfAll, ih, temporariesOfAll, List.append_assoc]

theorem lastTarget?_append_assign (body : List Stmt) (id : String) (value : Expr) :
    lastTarget? (body ++ [assign [.name id .store] value]) = some id := by
  simp [lastTarget?]

theorem temporariesOfAll_append_assign (body : List Stmt) (targets : List Expr) (value : Expr) :
    temporariesOfAll (body ++ [assign targets value]) = temporariesOfAll body := by
  simp [temporariesOfAll_append, temporariesOfAll, temporaries]

end Stmt

/-- Every statement is well formed, and no two conditionals of the module share a name for their values. -/
structure Module.WellFormed (m : Module) : Prop where
  statements : ∀ s ∈ m.body, s.WellFormed
  temporaries : (Stmt.temporariesOfAll m.body).Nodup

end MacroLisp.Host
