import MacroLisp.Proofs.Expansion.Fuel
import MacroLisp.Proofs.Lowering.Meaning
import MacroLisp.Proofs.Name.Fresh

namespace MacroLisp.Lowering

open Host (Expr Stmt Store Eval Semantics)

section Simulation

variable {V ε α β : Type} {σ τ : Store V} {x x' y y' : Eval V ε α} {f g : α → Eval V ε β} {id : String}

/-- The stores differ in temporary variables only. -/
def Agree (σ τ : Store V) : Prop := ∀ id, NameSupply.isReserved id = false → σ id = τ id

theorem Agree.refl (σ : Store V) : Agree σ σ := fun _ _ ↦ rfl

theorem Agree.update (h : Agree σ τ) (id : String) (v : Option V) :
    Agree (Function.update σ id v) (Function.update τ id v) := by
  intro id' hid
  by_cases he : id' = id
  · subst he
    simp
  · simp [Function.update_of_ne he, h id' hid]

theorem Agree.update_right (h : Agree σ τ) (hid : NameSupply.isReserved id = true) (v : Option V) :
    Agree σ (Function.update τ id v) := by
  intro id' hid'
  have he : id' ≠ id := by
    rintro rfl
    simp [hid] at hid'
  rw [Function.update_of_ne he]
  exact h id' hid'

/-- From stores that agree both give the same result, a failure even, and stores that agree. -/
def Sim (x y : Eval V ε α) : Prop := ∀ σ τ : Store V, Agree σ τ → (x σ).1 = (y τ).1 ∧ Agree (x σ).2 (y τ).2

theorem bind_run (x : Eval V ε α) (f : α → Eval V ε β) (σ : Store V) :
    (x >>= f) σ = match x σ with
      | (.ok a, σ) => f a σ
      | (.error e, σ) => (.error e, σ) := by
  change ExceptT.bindCont f (x σ).1 (x σ).2 = _
  rcases x σ with ⟨_ | _, _⟩ <;> rfl

theorem Sim.pure (a : α) : Sim (Pure.pure a : Eval V ε α) (Pure.pure a) := fun _ _ h ↦ ⟨rfl, h⟩

theorem Sim.bind (h : Sim x y) (hf : ∀ a, Sim (f a) (g a)) : Sim (x >>= f) (y >>= g) := by
  intro σ τ hστ
  obtain ⟨hr, hs⟩ := h σ τ hστ
  rw [bind_run, bind_run]
  rcases hx : x σ with ⟨e | a, σ'⟩ <;> rcases hy : y τ with ⟨e' | a', τ'⟩ <;> rw [hx, hy] at hr hs <;> cases hr
  · exact ⟨rfl, hs⟩
  · exact hf a σ' τ' hs

theorem Sim.ofExcept (r : Except ε α) : Sim (MonadExcept.ofExcept r : Eval V ε α) (MonadExcept.ofExcept r) := by
  cases r with
  | error e => exact fun _ _ h ↦ ⟨rfl, h⟩
  | ok a => exact fun _ _ h ↦ ⟨rfl, h⟩

theorem Sim.ite {b : Prop} [Decidable b] (h : Sim x y) (h' : Sim x' y') :
    Sim (if b then x else x') (if b then y else y') := by
  split
  · exact h
  · exact h'

variable (S : Semantics V ε)

theorem sim_holds (v : V) : Sim (S.holds v) (S.holds v) := Sim.ofExcept (S.truth v)

theorem sim_combine (op : Host.BinaryOp) (v w : V) : Sim (S.combine op v w) (S.combine op v w) :=
  Sim.ofExcept (S.binary op v w)

theorem sim_apply (op : Host.UnaryOp) (v : V) : Sim (S.apply op v) (S.apply op v) := by
  unfold Semantics.apply
  split
  · exact (sim_holds S v).bind fun b ↦ .pure _
  · exact .ofExcept _

theorem load_run (σ : Store V) : S.load id σ = match σ id with
    | some v => (.ok v, σ)
    | none => (.error (S.unbound id), σ) := by
  change (match σ id with | some v => (return v : Eval V ε V) | none => throw (S.unbound id)) σ = _
  cases σ id <;> rfl

theorem sim_load (hid : NameSupply.isReserved id = false) : Sim (S.load id) (S.load id) := by
  intro σ τ h
  rw [load_run, load_run, h id hid]
  cases τ id <;> exact ⟨rfl, h⟩

theorem sim_assign (id : String) (v : V) :
    Sim (Semantics.assign id v : Eval V ε Unit) (Semantics.assign id v) := fun _ _ h ↦ ⟨rfl, h.update id (some v)⟩

theorem sim_temporary (hid : NameSupply.isReserved id = true) (v : V) :
    Sim (pure v) (do Semantics.assign id v; S.load id) := by
  intro σ τ h
  have hrun : (do Semantics.assign id v; S.load id : Eval V ε V) τ = (.ok v, Function.update τ id (some v)) := by
    change S.load id (Function.update τ id (some v)) = _
    rw [load_run, Function.update_self]
  rw [hrun]
  exact ⟨rfl, h.update_right hid (some v)⟩

end Simulation

section Lowers

variable {α β : Type} {p : LowerM α} {f : α → LowerM β} {a a' : α} {b : β} {stmts : List Stmt}

/-- A part of lowering, run in some state, returns the result and records the statements. -/
def Lowers (p : LowerM α) (a : α) (stmts : List Stmt) : Prop := ∃ w w', p w = some ⟨.ok a, stmts, w'⟩

theorem Lowers.of_pure (h : Lowers (pure a') a stmts) : a = a' ∧ stmts = [] := by
  obtain ⟨w, w', h⟩ := h
  cases h
  exact ⟨rfl, rfl⟩

theorem not_lowers_throw {e : CompileError} : ¬Lowers (.throw e) a stmts := by
  rintro ⟨w, w', h⟩
  cases h

theorem Lowers.of_bind (h : Lowers (p >>= f) b stmts) :
    ∃ a ss ss', Lowers p a ss ∧ Lowers (f a) b ss' ∧ stmts = ss ++ ss' := by
  obtain ⟨w, w', h⟩ := h
  rcases Process.bind_eq_some.mp h with ⟨_, _, _, _, he⟩ | ⟨a, log, w₁, o, hp, hf, he⟩
  · cases he
  · rcases o with ⟨r, log', w₂⟩
    cases he
    exact ⟨a, log, log', ⟨w, w₁, hp⟩, ⟨w₁, w₂, hf⟩, rfl⟩

theorem Lowers.of_map {g : α → β} (h : Lowers (g <$> p) b stmts) : ∃ a, Lowers p a stmts ∧ b = g a := by
  obtain ⟨w, w', h⟩ := h
  rw [Process.map_apply] at h
  obtain ⟨⟨r, log, w₁⟩, hp, he⟩ := Option.map_eq_some_iff.mp h
  cases r with
  | error e => cases he
  | ok a =>
    cases he
    exact ⟨a, ⟨w, w₁, hp⟩, rfl⟩

theorem Lowers.of_collect {q : α × List Stmt} (h : Lowers p.collect q stmts) : Lowers p q.1 q.2 ∧ stmts = [] := by
  obtain ⟨w, w', h⟩ := h
  obtain ⟨hp, hlog⟩ := Process.collect_eq_ok h
  exact ⟨⟨w, w', hp⟩, hlog⟩

theorem Lowers.of_ofExcept {r : Except CompileError α} (h : Lowers (ofExcept r) a stmts) : r = .ok a ∧ stmts = [] := by
  cases r with
  | error e => exact absurd h not_lowers_throw
  | ok a' =>
    obtain ⟨rfl, rfl⟩ := h.of_pure
    exact ⟨rfl, rfl⟩

theorem Lowers.of_emit {s : Stmt} {u : Unit} (h : Lowers (emit s) u stmts) : stmts = [s] := by
  obtain ⟨w, w', h⟩ := h
  cases h
  rfl

theorem Lowers.of_freshName {hint id : String} (h : Lowers (Process.freshName hint) id stmts) :
    NameSupply.isReserved id = true ∧ stmts = [] := by
  obtain ⟨w, w', h⟩ := h
  cases h
  exact ⟨NameSupply.isReserved_fresh _ _, rfl⟩

end Lowers

end MacroLisp.Lowering
