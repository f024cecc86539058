import MacroLisp.Lowering.Basic
import MacroLisp.Proofs.Expansion.Supply
import MacroLisp.Proofs.Host.WellFormed
import MacroLisp.Proofs.Lowering.Roles
import Mathlib.Data.List.Nodup

namespace MacroLisp.Lowering

open Host (Expr Stmt Alias BinaryOp CompareOp BoolOp UnaryOp Role)

variable (S : Role → String → Prop) (μ : String → String)

/-- The name of a conditional's value, drawn when `k` names have been given out. -/
def temporary (k : ℕ) : String := (NameSupply.fresh ⟨μ, k⟩ "if").1

inductive IsValue : Expr → Prop
  | constant (c : Host.Constant) : IsValue (.constant c)
  | load {name : String} (h : S .name name) : IsValue (.load (Name.mangle name))
  | temporary (k : ℕ) : IsValue (.load (temporary μ k))
  | attr {e : Expr} {name : String} (he : IsValue e) (h : S .member name) : IsValue (e.attr (Name.mangle name))
  | binary {left right : Expr} (op : BinaryOp) (hl : IsValue left) (hr : IsValue right) : IsValue (.binary left op right)
  | unary {operand : Expr} (op : UnaryOp) (h : IsValue operand) : IsValue (.unary op operand)
  | boolean {values : List Expr} (op : BoolOp) (hlen : 2 ≤ values.length) (h : ∀ e ∈ values, IsValue e) :
    IsValue (.boolean op values)
  | compare {left : Expr} {ops : List CompareOp} {comparators : List Expr} (hl : IsValue left)
    (hlen : ops.length = comparators.length) (hne : 1 ≤ ops.length) (h : ∀ e ∈ comparators, IsValue e) :
    IsValue (.compare left ops comparators)
  | conditional {test body orelse : Expr} (ht : IsValue test) (hb : IsValue body) (ho : IsValue orelse) :
    IsValue (.conditional test body orelse)
  | call {func : Expr} {args : List Expr} {keywords : List (String × Expr)} (hf : IsValue func)
    (ha : ∀ e ∈ args, IsValue e) (hk : ∀ k ∈ keywords, IsValue k.2)
    (hn : ∀ k ∈ keywords, ∃ name, S .keyword name ∧ k.1 = Name.mangle name) : IsValue (.call func args keywords)
  | list {items : List Expr} (h : ∀ e ∈ items, IsValue e) : IsValue (.list items)
  | tuple {items : List Expr} (h : ∀ e ∈ items, IsValue e) : IsValue (.tuple items)
  | dict {keys values : List Expr} (hlen : keys.length = values.length) (hk : ∀ e ∈ keys, IsValue e)
    (hv : ∀ e ∈ values, IsValue e) : IsValue (.dict keys values)

structure IsAlias (a : Alias) : Prop where
  name : ∃ path, S .module path ∧ a.name = Name.mangle path
  asName : ∀ id ∈ a.asName, ∃ name, S .asName name ∧ id = Name.mangle name

inductive IsStatement : Stmt → Prop
  | expr {value : Expr} (h : IsValue S μ value) : IsStatement (.expr value)
  | assign {e place value : Expr} (he : IsValue S μ e) (hp : e.asTarget? = some place) (hv : IsValue S μ value) :
    IsStatement (.assign [place] value)
  | imports {names : List Alias} (hne : names ≠ []) (h : ∀ a ∈ names, IsAlias S a) : IsStatement (.imports names)
  | ifElse {test bodyValue elseValue : Expr} {body orelse : List Stmt} (k : ℕ) (ht : IsValue S μ test)
    (hbody : ∀ s ∈ body, IsStatement s) (hb : IsValue S μ bodyValue) (horelse : ∀ s ∈ orelse, IsStatement s)
    (ho : IsValue S μ elseValue) :
    IsStatement (.ifElse test (body ++ [.assign [.name (temporary μ k) .store] bodyValue])
      (orelse ++ [.assign [.name (temporary μ k) .store] elseValue]))

/-- Different numbers from one bound on and below another. -/
structure Between (ks : List ℕ) (lo hi : ℕ) : Prop where
  nodup : ks.Nodup
  bounds : ∀ k ∈ ks, lo ≤ k ∧ k < hi

variable {S μ} {α β : Type} {ks ls : List ℕ} {lo mid hi : ℕ}

theorem between_nil (lo hi : ℕ) : Between [] lo hi := ⟨List.nodup_nil, by simp⟩

theorem Between.append (h : Between ks lo mid) (h' : Between ls mid hi) (hlo : lo ≤ mid) (hhi : mid ≤ hi) :
    Between (ks ++ ls) lo hi := by
  refine ⟨List.Nodup.append h.nodup h'.nodup fun k hk hl ↦ ?_, fun k hk ↦ ?_⟩
  · have hlt := (h.bounds k hk).2
    have hle := (h'.bounds k hl).1
    omega
  · rcases List.mem_append.mp hk with hk | hk
    · have hb := h.bounds k hk
      omega
    · have hb := h'.bounds k hk
      omega

theorem Between.cons (h : Between ks lo hi) (hle : lo ≤ hi) : Between (hi :: ks) lo (hi + 1) := by
  refine ⟨List.nodup_cons.mpr ⟨fun hmem ↦ ?_, h.nodup⟩, fun k hk ↦ ?_⟩
  · have hlt := (h.bounds hi hmem).2
    omega
  · rcases List.mem_cons.mp hk with rfl | hk
    · omega
    · have hb := h.bounds k hk
      omega

variable (S μ) in
/-- A part of lowering has returned `a` and recorded statements, and the supply of names has moved on from `s` to `t`. -/
structure Emission (Q : α → Prop) (a : α) (stmts : List Stmt) (s t : NameSupply) : Prop where
  result : Q a
  statements : ∀ s ∈ stmts, IsStatement S μ s
  supply : s.Precedes t
  numbers : ∃ ks, Stmt.temporariesOfAll stmts = ks.map (temporary μ) ∧ Between ks s.count t.count

variable (S μ) in
def Emits (p : LowerM α) (Q : α → Prop) : Prop :=
  ∀ w a stmts w', w.names.mangle = μ → p w = some ⟨.ok a, stmts, w'⟩ → Emission S μ Q a stmts w.names w'.names

namespace Emits

variable {p : LowerM α} {f : α → LowerM β} {Q Q' : α → Prop} {R : β → Prop} {a : α}

theorem silent {s t : NameSupply} (h : Q a) (hst : s.Precedes t) : Emission S μ Q a [] s t :=
  ⟨h, by simp, hst, [], rfl, between_nil _ _⟩

theorem pure (h : Q a) : Emits S μ (Pure.pure a) Q := by
  rintro w _ _ _ _ ⟨⟩
  exact silent h (.refl _)

theorem throw (e : CompileError) : Emits S μ (.throw e : LowerM α) Q := by
  rintro w _ _ _ _ ⟨⟩

theorem unfinished : Emits S μ (.unfinished : LowerM α) Q := by
  rintro w _ _ _ _ ⟨⟩

theorem bind (h : Emits S μ p Q) (hf : ∀ a, Q a → Emits S μ (f a) R) : Emits S μ (p >>= f) R := by
  intro w b stmts w' hw hb
  obtain ⟨a, stmts₁, w₁, stmts₂, hp, hfa, rfl⟩ := Process.bind_eq_ok hb
  obtain ⟨ha, hstmts₁, hsupply₁, ks, hks, hbetween₁⟩ := h w a stmts₁ w₁ hw hp
  obtain ⟨hR, hstmts₂, hsupply₂, ls, hls, hbetween₂⟩ := hf a ha w₁ b stmts₂ w' (hsupply₁.mangle.trans hw) hfa
  refine ⟨hR, List.forall_mem_append.mpr ⟨hstmts₁, hstmts₂⟩, hsupply₁.trans hsupply₂, ks ++ ls, ?_,
    hbetween₁.append hbetween₂ hsupply₁.count hsupply₂.count⟩
  rw [Stmt.temporariesOfAll_append, hks, hls, List.map_append]

theorem map (h : Emits S μ p Q) {g : α → β} (hg : ∀ a, Q a → R (g a)) : Emits S μ (g <$> p) R :=
  h.bind fun a ha ↦ .pure (hg a ha)

theorem ofExcept {r : Except CompileError α} (h : ∀ a, r = .ok a → Q a) : Emits S μ (Lowering.ofExcept r) Q := by
  cases r with
  | error e => exact .throw e
  | ok a => exact .pure (h a rfl)

theorem emit {s : Stmt} (h : IsStatement S μ s) (ht : s.temporaries = []) : Emits S μ (Lowering.emit s) fun _ ↦ True := by
  rintro w _ _ _ _ ⟨⟩
  refine ⟨trivial, by simpa using h, .refl _, [], ?_, between_nil _ _⟩
  simp [Stmt.temporariesOfAll, ht]

theorem collect (h : Emits S μ p Q) : Emits S μ p.collect fun r ↦ Q r.1 := by
  intro w r log w' hw hp
  obtain ⟨hr, rfl⟩ := Process.collect_eq_ok hp
  obtain ⟨ha, -, hsupply, -⟩ := h w r.1 r.2 w' hw hr
  exact silent ha hsupply

end Emits

end MacroLisp.Lowering
