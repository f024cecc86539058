import MacroLisp.Expansion.Engine

namespace MacroLisp

namespace Process

variable {ω ω' ε ε' α β : Type}

/-- Every answer of `p` is the answer of `q`. -/
def Extends (p q : Process ω ε α) : Prop := ∀ w o, p w = some o → q w = some o

@[simp] theorem pure_apply (a : α) (w : World) : (pure a : Process ω ε α) w = some ⟨.ok a, [], w⟩ := rfl

theorem bind_eq_some {x : Process ω ε α} {f : α → Process ω ε β} {w : World} {o : Outcome ω ε β} :
    (x >>= f) w = some o ↔
      (∃ e log w', x w = some ⟨.error e, log, w'⟩ ∧ o = ⟨.error e, log, w'⟩) ∨
      ∃ a log w' o', x w = some ⟨.ok a, log, w'⟩ ∧ f a w' = some o' ∧
        o = { o' with log := log ++ o'.log } := by
  change Process.bind x f w = some o ↔ _
  rcases hx : x w with _ | ⟨e | a, log, w'⟩
  · simp [Process.bind, hx]
  · simp only [Process.bind, hx]
    constructor
    · rintro ⟨rfl⟩
      exact .inl ⟨e, log, w', rfl, rfl⟩
    · rintro (⟨_, _, _, ⟨rfl⟩, rfl⟩ | ⟨_, _, _, _, ⟨⟩, _⟩)
      rfl
  · simp only [Process.bind, hx, Option.map_eq_some_iff]
    constructor
    · rintro ⟨o', hf, rfl⟩
      exact .inr ⟨a, log, w', o', rfl, hf, rfl⟩
    · rintro (⟨_, _, _, ⟨⟩, _⟩ | ⟨_, _, _, o', ⟨rfl⟩, hf, rfl⟩)
      exact ⟨o', hf, rfl⟩

theorem bind_of_ok {x : Process ω ε α} {f : α → Process ω ε β} {a : α} {log : List ω} {w w' : World}
    (h : x w = some ⟨.ok a, log, w'⟩) :
    (x >>= f) w = (f a w').map fun o ↦ { o with log := log ++ o.log } := by
  change Process.bind x f w = _
  simp only [Process.bind, h]

theorem bind_of_error {x : Process ω ε α} {f : α → Process ω ε β} {e : ε} {log : List ω} {w w' : World}
    (h : x w = some ⟨.error e, log, w'⟩) : (x >>= f) w = some ⟨.error e, log, w'⟩ := by
  change Process.bind x f w = _
  simp only [Process.bind, h]

theorem map_apply (f : α → β) (x : Process ω ε α) (w : World) :
    (f <$> x) w = (x w).map fun o ↦ { o with result := o.result.map f } := by
  change Process.bind x (fun a ↦ Process.pure (f a)) w = _
  rcases hx : x w with _ | ⟨_ | a, log, w'⟩ <;>
    simp [Process.bind, Process.pure, hx, Except.map]

theorem exists_of_bind {x : Process ω ε α} {f : α → Process ω ε β} {w : World} {o : Outcome ω ε β}
    (h : (x >>= f) w = some o) : ∃ o', x w = some o' := by
  rcases bind_eq_some.mp h with ⟨e, log, w', hx, -⟩ | ⟨a, log, w', o', hx, -, -⟩
  · exact ⟨_, hx⟩
  · exact ⟨_, hx⟩

theorem bind_eq_ok {x : Process ω ε α} {f : α → Process ω ε β} {b : β} {log : List ω} {w w' : World}
    (h : (x >>= f) w = some ⟨.ok b, log, w'⟩) :
    ∃ a log₁ s log₂, x w = some ⟨.ok a, log₁, s⟩ ∧ f a s = some ⟨.ok b, log₂, w'⟩ ∧ log = log₁ ++ log₂ := by
  rcases bind_eq_some.mp h with ⟨e, log₁, s, hx, ho⟩ | ⟨a, log₁, s, ⟨r, log₂, s'⟩, hx, hf, ho⟩
  · cases ho
  · cases ho
    exact ⟨a, log₁, s, log₂, hx, hf, rfl⟩

theorem map_eq_ok {f : α → β} {x : Process ω ε α} {b : β} {log : List ω} {w w' : World}
    (h : (f <$> x) w = some ⟨.ok b, log, w'⟩) : ∃ a, x w = some ⟨.ok a, log, w'⟩ ∧ b = f a := by
  rw [map_apply] at h
  obtain ⟨⟨r | a, log', s⟩, hx, ho⟩ := Option.map_eq_some_iff.mp h
  · cases ho
  · cases ho
    exact ⟨a, hx, rfl⟩

theorem collect_eq_ok {x : Process ω ε α} {r : α × List ω} {log : List ω'} {w w' : World}
    (h : x.collect w = some ⟨.ok r, log, w'⟩) : x w = some ⟨.ok r.1, r.2, w'⟩ ∧ log = [] := by
  obtain ⟨⟨e | a, log', s⟩, hx, ho⟩ := Option.map_eq_some_iff.mp h
  · cases ho
  · cases ho
    exact ⟨hx, rfl⟩

instance : LawfulMonad (Process ω ε) := by
  refine LawfulMonad.mk' _ (fun x ↦ ?_) (fun a f ↦ ?_) (fun x f g ↦ ?_)
  · funext w
    rw [map_apply]
    rcases x w with _ | ⟨_ | _, _, _⟩ <;> rfl
  · funext w
    rw [bind_of_ok (pure_apply a w)]
    simp
  · funext w
    rcases hx : x w with _ | ⟨e | a, log, w'⟩
    · change Process.bind (Process.bind x f) g w = Process.bind x _ w
      simp [Process.bind, hx]
    · rw [bind_of_error hx, bind_of_error (bind_of_error hx)]
    · rw [bind_of_ok hx]
      rcases hf : f a w' with _ | ⟨e | b, log', w''⟩
      · change Process.bind (Process.bind x f) g w = (Process.bind (f a) g w').map _
        simp [Process.bind, hx, hf]
      · rw [bind_of_error hf, bind_of_error (by rw [bind_of_ok hx, hf]; rfl)]
        rfl
      · rw [bind_of_ok hf, bind_of_ok (by rw [bind_of_ok hx, hf]; rfl)]
        simp [Function.comp_def]

namespace Extends

variable {p q : Process ω ε α}

theorem refl (p : Process ω ε α) : Extends p p := fun _ _ h ↦ h

theorem unfinished (q : Process ω ε α) : Extends .unfinished q := fun _ _ h ↦ by simp [Process.unfinished] at h

theorem bind (h : Extends p q) {f g : α → Process ω ε β} (hf : ∀ a, Extends (f a) (g a)) :
    Extends (p >>= f) (q >>= g) := by
  intro w o ho
  rcases bind_eq_some.mp ho with ⟨e, log, w', hp, rfl⟩ | ⟨a, log, w', o', hp, ho', rfl⟩
  · exact bind_of_error (h _ _ hp)
  · rw [bind_of_ok (h _ _ hp), hf a _ _ ho']
    rfl

theorem map (h : Extends p q) (f : α → β) : Extends (f <$> p) (f <$> q) :=
  h.bind fun _ ↦ .refl _

theorem mapM {f g : α → Process ω ε β} (as : List α) (h : ∀ a, Extends (f a) (g a)) :
    Extends (as.mapM f) (as.mapM g) := by
  induction as with
  | nil => exact .refl _
  | cons a as ih =>
    rw [List.mapM_cons, List.mapM_cons]
    exact (h a).bind fun b ↦ ih.map (b :: ·)

theorem of_map (h : Extends p q) (f : Outcome ω ε α → Outcome ω' ε' β) :
    Extends (fun w ↦ (p w).map f) (fun w ↦ (q w).map f) := by
  intro w o ho
  obtain ⟨o', hp, rfl⟩ := Option.map_eq_some_iff.mp ho
  simp only [h _ _ hp, Option.map_some]

theorem mapError (h : Extends p q) (f : ε → ε') : Extends (p.mapError f) (q.mapError f) := h.of_map _

theorem quietly (h : Extends p q) :
    Extends (p.quietly : Process ω' ε' _) q.quietly := h.of_map _

end Extends

/-- With enough steps the process ends with `r` and leaves `w'`. -/
def Ends (p : Nat → Process ω ε α) (w : World) (r : Except ε α) (w' : World) : Prop :=
  ∃ fuel log, p fuel w = some ⟨r, log, w'⟩

/-- Answers stay when there are more steps. -/
def Steady (p : Nat → Process ω ε α) : Prop := ∀ fuel fuel', fuel ≤ fuel' → Extends (p fuel) (p fuel')

variable {p : Nat → Process ω ε α} {w w' w'' : World} {r r' : Except ε α}

theorem Steady.of_succ (h : ∀ fuel, Extends (p fuel) (p (fuel + 1))) : Steady p := by
  intro fuel fuel' hle
  induction hle with
  | refl => exact .refl _
  | step _ ih => exact fun w o ho ↦ h _ w o (ih w o ho)

theorem Steady.mapM {f : Nat → α → Process ω ε β} (hf : ∀ a, Steady (f · a)) (as : List α) :
    Steady fun fuel ↦ as.mapM (f fuel) :=
  fun fuel fuel' hle ↦ .mapM as fun a ↦ hf a fuel fuel' hle

theorem Ends.unique (hp : Steady p) (h : Ends p w r w') (h' : Ends p w r' w'') : r = r' ∧ w' = w'' := by
  obtain ⟨fuel, log, h⟩ := h
  obtain ⟨fuel', log', h'⟩ := h'
  have hm := hp fuel (max fuel fuel') (Nat.le_max_left ..) _ _ h
  have hm' := hp fuel' (max fuel fuel') (Nat.le_max_right ..) _ _ h'
  simp only [hm, Option.some.injEq, Outcome.mk.injEq] at hm'
  exact ⟨hm'.1, hm'.2.2⟩

theorem ends_map_iff (f : α → β) {r : Except ε β} :
    Ends (fun fuel ↦ f <$> p fuel) w r w' ↔ ∃ r', Ends p w r' w' ∧ r = r'.map f := by
  constructor
  · rintro ⟨fuel, log, h⟩
    simp only [map_apply, Option.map_eq_some_iff] at h
    obtain ⟨⟨r', log, w'⟩, hp, ho⟩ := h
    cases ho
    exact ⟨r', ⟨fuel, log, hp⟩, rfl⟩
  · rintro ⟨r', ⟨fuel, log, h⟩, rfl⟩
    refine ⟨fuel, log, ?_⟩
    simp only [map_apply, h, Option.map_some]

theorem ends_bind_iff {q : Nat → α → Process ω ε β} (hp : Steady p) (hq : ∀ a, Steady (q · a)) {r : Except ε β} :
    Ends (fun fuel ↦ p fuel >>= q fuel) w r w' ↔
      (∃ e, r = .error e ∧ Ends p w (.error e) w') ∨ ∃ a s, Ends p w (.ok a) s ∧ Ends (q · a) s r w' := by
  constructor
  · rintro ⟨fuel, log, h⟩
    rcases bind_eq_some.mp h with ⟨e, log', s, hx, ho⟩ | ⟨a, log', s, o, hx, hf, ho⟩
    · cases ho
      exact .inl ⟨e, rfl, fuel, log, hx⟩
    · cases ho
      exact .inr ⟨a, s, ⟨fuel, log', hx⟩, fuel, o.log, hf⟩
  · rintro (⟨e, rfl, fuel, log, h⟩ | ⟨a, s, ⟨fuel, log, h⟩, fuel', log', h'⟩)
    · exact ⟨fuel, log, bind_of_error h⟩
    · refine ⟨max fuel fuel', log ++ log', (bind_of_ok (hp fuel _ (Nat.le_max_left ..) _ _ h)).trans ?_⟩
      have hq' := hq a fuel' (max fuel fuel') (Nat.le_max_right ..) _ _ h'
      simp only [hq', Option.map_some]

end Process

open Process (Extends Steady)

variable {ω α : Type}

theorem Action.run_extends {nested nested' : Bool → Node → Process ω ExpansionError Node}
    (h : ∀ once form, Extends (nested once form) (nested' once form)) (a : Action α) :
    Extends (a.run nested) (a.run nested') := by
  induction a with
  | done a => exact .refl _
  | fail why => exact .refl _
  | fresh hint next ih => exact Extends.bind (.refl _) ih
  | expand once form next ih => exact (h once form).quietly.bind ih
  | resolve query next ih => exact Extends.bind (.refl _) ih

namespace Expansion

variable (x : Expansion)

def nested (fuel : Nat) (once : Bool) (form : Node) : ExpandM Node :=
  Expanded.node <$> x.head fuel (if once then .single else .full) 0 form

def proceed (fuel : Nat) (mode : Mode) (steps : Nat) (tree : Node) (provenance : Provenance) (b : MacroBinding) :
    MacroOutput → ExpandM Expanded
  | .form output => do
    .record ⟨b.name, provenance, tree, output.placedAt tree.span⟩
    if mode.once then return ⟨output.placedAt tree.span, false⟩
    else x.head fuel mode (steps + 1) (output.placedAt tree.span)
  | .verbatim value => if mode.keepsVerbatim then return ⟨value, true⟩ else return ⟨tree, false⟩

variable {x} {tree : Node}

theorem head_of_callee_none (h : x.callee? tree = none) (fuel : Nat) (mode : Mode) (steps : Nat) :
    x.head (fuel + 1) mode steps tree = pure ⟨tree, false⟩ := by
  simp only [head, h]

theorem head_of_callee {provenance : Provenance} {b : MacroBinding} (h : x.callee? tree = some (provenance, b))
    (fuel : Nat) (mode : Mode) (steps : Nat) :
    x.head (fuel + 1) mode steps tree =
      match x.limit.filter (· ≤ steps) with
      | some limit => .throw (.stepLimit limit tree)
      | none => invoke (x.nested fuel) b tree >>= x.proceed fuel mode steps tree provenance b := by
  rcases hl : x.limit.filter (· ≤ steps) with _ | limit
  · simp only [head, h, hl]
    refine congrArg (Bind.bind _) (funext fun out ↦ ?_)
    cases out <;> rfl
  · simp only [head, h, hl]

theorem invoke_extends {nested nested' : Bool → Node → ExpandM Node}
    (h : ∀ once form, Extends (nested once form) (nested' once form)) (b : MacroBinding) (form : Node) :
    Extends (invoke nested b form) (invoke nested' b form) :=
  (Action.run_extends h _).mapError _

theorem head_extends_succ (fuel : Nat) (mode : Mode) (steps : Nat) (tree : Node) :
    Extends (x.head fuel mode steps tree) (x.head (fuel + 1) mode steps tree) := by
  induction fuel generalizing mode steps tree with
  | zero => exact Extends.unfinished _
  | succ fuel ih =>
    rcases hc : x.callee? tree with _ | ⟨provenance, b⟩
    · rw [head_of_callee_none hc, head_of_callee_none hc]
      exact .refl _
    · rw [head_of_callee hc, head_of_callee hc]
      split
      · exact .refl _
      · refine (invoke_extends (fun once form ↦ (ih _ _ _).map _) b tree).bind fun out ↦ ?_
        cases out with
        | verbatim value => exact .refl _
        | form output =>
          refine Extends.bind (.refl _) fun _ ↦ ?_
          split
          · exact .refl _
          · exact ih _ _ _

theorem head_steady (mode : Mode) (steps : Nat) (tree : Node) :
    Steady (x.head · mode steps tree) := .of_succ fun fuel ↦ head_extends_succ fuel mode steps tree

theorem invoke_steady (b : MacroBinding) (form : Node) :
    Steady fun fuel ↦ invoke (x.nested fuel) b form := fun fuel fuel' hle ↦
  invoke_extends (fun _ _ ↦ (head_steady _ _ _ fuel fuel' hle).map _) b form

end Expansion

end MacroLisp
