import MacroLisp.Proofs.Expansion.Fuel
import Mathlib.Logic.Relation

namespace MacroLisp.Expansion

open Process (Ends)
open Relation (ReflTransGen)

def unlimited (lookup : String → Option (Provenance × MacroBinding)) (mangle : String → String) : Expansion :=
  ⟨lookup, mangle, none⟩

variable (x : Expansion)

/-- The node calls a macro, which answers with `a` and leaves `w'`. -/
def Answers (n : Node) (w : World) (a : Except ExpansionError MacroOutput) (w' : World) : Prop :=
  ∃ provenance b, x.callee? n = some (provenance, b) ∧
    Ends (fun fuel ↦ invoke (x.nested fuel) b n) w a w'

/-- One step makes the second node out of the first, whose macro answers with a form. -/
def Rewrites (s t : Node × World) : Prop :=
  (∃ output w', x.Answers s.1 s.2 (.ok (.form output)) w') ∧
    Ends (x.macroexpandOnce · s.1) s.2 (.ok t.1) t.2

/-- The forms that the steps from `n` go through, each in the world that the step before it left. -/
def Reaches (n : Node) (w : World) (m : Node) (s : World) : Prop := ReflTransGen x.Rewrites (n, w) (m, s)

inductive Last (keepsVerbatim : Bool) (n : Node) (w : World) : Except ExpansionError Expanded → World → Prop
  | noMacro : x.callee? n = none → Last keepsVerbatim n w (.ok ⟨n, false⟩) w
  | failed {e : ExpansionError} {w' : World} :
      x.Answers n w (.error e) w' → Last keepsVerbatim n w (.error e) w'
  | final {value : Node} {w' : World} : x.Answers n w (.ok (.verbatim value)) w' →
      Last keepsVerbatim n w (.ok (if keepsVerbatim then ⟨value, true⟩ else ⟨n, false⟩)) w'

/-- The iteration stops at a node that calls no macro, or one whose macro answers with a final value.
One more step leaves such a node as it is. -/
def Stops (n : Node) (w w' : World) : Prop :=
  (x.callee? n = none ∨ ∃ value s, x.Answers n w (.ok (.verbatim value)) s) ∧
    Ends (x.macroexpandOnce · n) w (.ok n) w'

/-- What a node comes to where the iteration stops: the final value if there is one. -/
def Yields (n : Node) (w : World) (r : Node) : Prop :=
  (x.callee? n = none ∧ r = n) ∨ ∃ s, x.Answers n w (.ok (.verbatim r)) s

variable {x} {mode : Mode} {fuel steps : Nat} {n m output value : Node} {w w' s : World} {log : List Step}
  {r : Except ExpansionError Expanded} {e : ExpansionError}

theorem Answers.unique {a a' : Except ExpansionError MacroOutput} {w'' : World}
    (h : x.Answers n w a w') (h' : x.Answers n w a' w'') : a = a' ∧ w' = w'' := by
  obtain ⟨p, b, hc, h⟩ := h
  obtain ⟨p', b', hc', h'⟩ := h'
  rw [hc, Option.some.injEq, Prod.mk.injEq] at hc'
  obtain ⟨-, rfl⟩ := hc'
  exact h.unique (invoke_steady b n) h'

theorem Answers.callee_ne_none {a : Except ExpansionError MacroOutput} (h : x.Answers n w a w') :
    x.callee? n ≠ none := by
  obtain ⟨p, b, hc, -⟩ := h
  simp [hc]

theorem head_cases (hx : x.limit = none) (h : x.head (fuel + 1) mode steps n w = some ⟨r, log, w'⟩) :
    x.Last mode.keepsVerbatim n w r w' ∨
    ∃ output s, x.Answers n w (.ok (.form output)) s ∧
      if mode.once then r = .ok ⟨output.placedAt n.span, false⟩ ∧ w' = s
      else ∃ log', x.head fuel mode (steps + 1) (output.placedAt n.span) s = some ⟨r, log', w'⟩ := by
  rcases hc : x.callee? n with _ | ⟨provenance, b⟩
  · rw [head_of_callee_none hc] at h
    obtain ⟨rfl, -, rfl⟩ : .ok ⟨n, false⟩ = r ∧ [] = log ∧ w = w' := by
      simpa only [Process.pure_apply, Option.some.injEq, Outcome.mk.injEq] using h
    exact .inl (.noMacro hc)
  · simp only [head_of_callee hc, hx, Option.filter_none] at h
    rcases Process.bind_eq_some.mp h with ⟨e, log', s, ha, ho⟩ | ⟨out, log', s, o, ha, ho, he⟩
    · obtain ⟨rfl, -, rfl⟩ : r = .error e ∧ log = log' ∧ w' = s := by
        simpa only [Outcome.mk.injEq] using ho
      exact .inl (.failed ⟨provenance, b, hc, fuel, _, ha⟩)
    · obtain ⟨rfl, -, rfl⟩ : r = o.result ∧ log = log' ++ o.log ∧ w' = o.world := by
        simpa only [Outcome.mk.injEq] using he
      have hans : x.Answers n w (.ok out) s := ⟨provenance, b, hc, fuel, _, ha⟩
      cases out with
      | verbatim value =>
        have ho' : o = ⟨.ok (if mode.keepsVerbatim then ⟨value, true⟩ else ⟨n, false⟩), [], s⟩ := by
          simp only [proceed] at ho
          split <;> simp_all only [reduceIte] <;> exact (Option.some.inj ho).symm
        subst ho'
        exact .inl (.final hans)
      | form output =>
        refine .inr ⟨output, s, hans, ?_⟩
        simp only [proceed] at ho
        rw [Process.bind_of_ok rfl, Option.map_eq_some_iff] at ho
        obtain ⟨o', ho', rfl⟩ := ho
        by_cases hm : mode.once = true
        · simp only [hm, if_true] at ho' ⊢
          cases ho'
          exact ⟨rfl, rfl⟩
        · simp only [hm] at ho' ⊢
          exact ⟨_, ho'⟩

theorem Last.ends (hx : x.limit = none) (h : x.Last mode.keepsVerbatim n w r w') :
    Ends (x.head · mode steps n) w r w' := by
  cases h with
  | noMacro hc =>
    refine ⟨0 + 1, [], ?_⟩
    simp only [head_of_callee_none hc, Process.pure_apply]
  | failed h =>
    obtain ⟨provenance, b, hc, fuel, log, h⟩ := h
    refine ⟨fuel + 1, log, ?_⟩
    simp only [head_of_callee hc, hx, Option.filter_none]
    exact Process.bind_of_error h
  | final h =>
    obtain ⟨provenance, b, hc, fuel, log, h⟩ := h
    refine ⟨fuel + 1, log ++ [], ?_⟩
    simp only [head_of_callee hc, hx, Option.filter_none]
    rw [Process.bind_of_ok h]
    cases hk : mode.keepsVerbatim <;> simp [proceed, hk]

theorem ends_of_form (hx : x.limit = none) (h : x.Answers n w (.ok (.form output)) s)
    (hr : if mode.once then r = .ok ⟨output.placedAt n.span, false⟩ ∧ w' = s
      else Ends (x.head · mode (steps + 1) (output.placedAt n.span)) s r w') :
    Ends (x.head · mode steps n) w r w' := by
  obtain ⟨provenance, b, hc, fuel, log, h⟩ := h
  by_cases hm : mode.once = true
  · simp only [hm, if_true] at hr
    obtain ⟨rfl, rfl⟩ := hr
    refine ⟨fuel + 1, log ++ [⟨b.name, provenance, n, output.placedAt n.span⟩], ?_⟩
    simp only [head_of_callee hc, hx, Option.filter_none]
    rw [Process.bind_of_ok h]
    simp only [proceed, hm, if_true]
    rfl
  · simp only [hm] at hr
    obtain ⟨fuel', log', hr⟩ := hr
    have ha := invoke_steady (x := x) b n fuel (max fuel fuel') (Nat.le_max_left ..) _ _ h
    have hr' := head_steady (x := x) _ _ _ fuel' (max fuel fuel') (Nat.le_max_right ..) _ _ hr
    refine ⟨max fuel fuel' + 1, log ++ (⟨b.name, provenance, n, output.placedAt n.span⟩ :: log'), ?_⟩
    simp only [head_of_callee hc, hx, Option.filter_none]
    rw [Process.bind_of_ok ha]
    simp only [proceed, hm]
    rw [Process.bind_of_ok rfl]
    simp only [Bool.false_eq_true, if_false, hr']
    rfl

theorem once_ends_iff {r : Except ExpansionError Node} :
    Ends (x.macroexpandOnce · n) w r w' ↔
      ∃ r', Ends (x.head · .single 0 n) w r' w' ∧ r = r'.map Expanded.node :=
  Process.ends_map_iff _

theorem once_steady (n : Node) : Process.Steady (x.macroexpandOnce · n) := fun fuel fuel' hle ↦
  (head_steady _ _ _ fuel fuel' hle).map _

theorem once_of_form (hx : x.limit = none) (h : x.Answers n w (.ok (.form output)) s) :
    Ends (x.macroexpandOnce · n) w (.ok (output.placedAt n.span)) s :=
  once_ends_iff.mpr ⟨_, ends_of_form hx h ⟨rfl, rfl⟩, rfl⟩

theorem rewrites_iff (hx : x.limit = none) :
    x.Rewrites (n, w) (m, s) ↔
      ∃ output, x.Answers n w (.ok (.form output)) s ∧ m = output.placedAt n.span := by
  constructor
  · rintro ⟨⟨output, w', ha⟩, h⟩
    obtain ⟨he, rfl⟩ := h.unique (once_steady n) (once_of_form hx ha)
    exact ⟨output, ha, Except.ok.inj he⟩
  · rintro ⟨output, ha, rfl⟩
    exact ⟨⟨output, s, ha⟩, once_of_form hx ha⟩

theorem reaches_of_head (hx : x.limit = none) (hm : mode.once = false)
    (h : x.head fuel mode steps n w = some ⟨r, log, w'⟩) :
    ∃ m s, x.Reaches n w m s ∧ x.Last mode.keepsVerbatim m s r w' := by
  induction fuel generalizing steps n w log with
  | zero => simp [head, Process.unfinished] at h
  | succ fuel ih =>
    rcases head_cases hx h with hl | ⟨output, s, ha, hr⟩
    · exact ⟨n, w, .refl, hl⟩
    · simp only [hm, Bool.false_eq_true, if_false] at hr
      obtain ⟨log', hr⟩ := hr
      obtain ⟨m, t, hs, hl⟩ := ih hr
      exact ⟨m, t, .head ((rewrites_iff hx).mpr ⟨output, ha, rfl⟩) hs, hl⟩

theorem head_of_reaches (hx : x.limit = none) (hm : mode.once = false) (h : x.Reaches n w m s)
    (hl : x.Last mode.keepsVerbatim m s r w') : Ends (x.head · mode steps n) w r w' := by
  -- The count of steps grows along the way, so the induction is for every count.
  suffices ∀ p, ReflTransGen x.Rewrites p (m, s) → ∀ steps, Ends (x.head · mode steps p.1) p.2 r w' from
    this _ h steps
  intro p h
  induction h using ReflTransGen.head_induction_on with
  | refl => exact fun steps ↦ hl.ends hx
  | head hstep _ ih =>
    intro steps
    obtain ⟨output, ha, he⟩ := (rewrites_iff hx).mp hstep
    refine ends_of_form hx ha ?_
    simp only [hm, Bool.false_eq_true, if_false, ← he]
    exact ih (steps + 1)

theorem head_ends_iff (hx : x.limit = none) (hm : mode.once = false) :
    Ends (x.head · mode 0 n) w r w' ↔ ∃ m s, x.Reaches n w m s ∧ x.Last mode.keepsVerbatim m s r w' := by
  constructor
  · rintro ⟨fuel, log, h⟩
    exact reaches_of_head hx hm h
  · rintro ⟨m, s, h, hl⟩
    exact head_of_reaches hx hm h hl

theorem once_of_last (hx : x.limit = none) (h : x.Last false n w r w') :
    Ends (x.macroexpandOnce · n) w (r.map Expanded.node) w' :=
  once_ends_iff.mpr ⟨r, h.ends hx, rfl⟩

theorem stops_iff (hx : x.limit = none) :
    x.Stops n w w' ↔ (x.callee? n = none ∧ w' = w) ∨ ∃ value, x.Answers n w (.ok (.verbatim value)) w' := by
  constructor
  · rintro ⟨hc | ⟨value, s, ha⟩, h⟩
    · obtain ⟨-, rfl⟩ := h.unique (once_steady n) (once_of_last hx (.noMacro hc))
      exact .inl ⟨hc, rfl⟩
    · obtain ⟨-, rfl⟩ := h.unique (once_steady n) (once_of_last hx (.final ha))
      exact .inr ⟨value, ha⟩
  · rintro (⟨hc, rfl⟩ | ⟨value, ha⟩)
    · exact ⟨.inl hc, once_of_last hx (.noMacro hc)⟩
    · exact ⟨.inr ⟨value, w', ha⟩, once_of_last hx (.final ha)⟩

theorem last_error_iff (hx : x.limit = none) {keepsVerbatim : Bool} :
    x.Last keepsVerbatim n w (.error e) w' ↔ Ends (x.macroexpandOnce · n) w (.error e) w' := by
  constructor
  · rintro ⟨⟩
    next h => exact once_of_last hx (.failed h)
  · intro h
    obtain ⟨r, ⟨fuel, log, h⟩, hr⟩ := once_ends_iff.mp h
    obtain rfl : r = .error e := by cases r <;> simp_all [Except.map]
    cases fuel with
    | zero => simp [head, Process.unfinished] at h
    | succ fuel =>
      rcases head_cases hx h with ⟨_ | ha⟩ | ⟨output, s, -, hf⟩
      · exact .failed ha
      · simp [Mode.single] at hf

theorem last_node_iff (hx : x.limit = none) {m : Node} :
    (∃ y : Expanded, x.Last false n w (.ok y) w' ∧ m = y.node) ↔ x.Stops n w w' ∧ m = n := by
  rw [stops_iff hx]
  constructor
  · rintro ⟨y, hc | _ | ha, rfl⟩
    · exact ⟨.inl ⟨hc, rfl⟩, rfl⟩
    · exact ⟨.inr ⟨_, ha⟩, rfl⟩
  · rintro ⟨⟨hc, rfl⟩ | ⟨value, ha⟩, rfl⟩
    · exact ⟨_, .noMacro hc, rfl⟩
    · exact ⟨_, .final ha, rfl⟩

theorem last_value_iff (hx : x.limit = none) {m : Node} :
    (∃ y : Expanded, x.Last true n w (.ok y) w' ∧ m = y.node) ↔ x.Stops n w w' ∧ x.Yields n w m := by
  rw [stops_iff hx]
  constructor
  · rintro ⟨y, hc | _ | ha, rfl⟩
    · exact ⟨.inl ⟨hc, rfl⟩, .inl ⟨hc, rfl⟩⟩
    · exact ⟨.inr ⟨_, ha⟩, .inr ⟨_, ha⟩⟩
  · rintro ⟨⟨hc, rfl⟩ | ⟨value, ha⟩, ⟨hc', rfl⟩ | ⟨s, ha'⟩⟩
    · exact ⟨_, .noMacro hc, rfl⟩
    · exact absurd hc ha'.callee_ne_none
    · exact absurd hc' ha.callee_ne_none
    · obtain ⟨he, -⟩ := ha'.unique ha
      cases he
      exact ⟨_, .final ha, rfl⟩

theorem map_head_ends_iff (hx : x.limit = none) (hm : mode.once = false) (r : Except ExpansionError Node) :
    Ends (fun fuel ↦ Expanded.node <$> x.head fuel mode 0 n) w r w' ↔
      ∃ m s, x.Reaches n w m s ∧ ∃ y, x.Last mode.keepsVerbatim m s y w' ∧ r = y.map Expanded.node := by
  rw [Process.ends_map_iff]
  constructor
  · rintro ⟨y, h, rfl⟩
    obtain ⟨m, s, hs, hl⟩ := (head_ends_iff hx hm).mp h
    exact ⟨m, s, hs, y, hl, rfl⟩
  · rintro ⟨m, s, hs, y, hl, rfl⟩
    exact ⟨y, (head_ends_iff hx hm).mpr ⟨m, s, hs, hl⟩, rfl⟩

theorem exists_last_ok_iff {keepsVerbatim : Bool} :
    (∃ y, x.Last keepsVerbatim n w y w' ∧ .ok m = y.map Expanded.node) ↔
      ∃ y : Expanded, x.Last keepsVerbatim n w (.ok y) w' ∧ m = y.node := by
  constructor
  · rintro ⟨_ | y, hl, he⟩
    · cases he
    · exact ⟨y, hl, Except.ok.inj he⟩
  · rintro ⟨y, hl, rfl⟩
    exact ⟨.ok y, hl, rfl⟩

theorem exists_last_error_iff {keepsVerbatim : Bool} :
    (∃ y, x.Last keepsVerbatim n w y w' ∧ (.error e : Except _ Node) = y.map Expanded.node) ↔
      x.Last keepsVerbatim n w (.error e) w' := by
  constructor
  · rintro ⟨_ | y, hl, he⟩
    · cases he
      exact hl
    · cases he
  · intro hl
    exact ⟨_, hl, rfl⟩

section Unlimited

variable (lookup : String → Option (Provenance × MacroBinding)) (mangle : String → String)

/-- Expansion to the end and iterated single steps agree, on the node, the error and the world that
is left. Expansion to a value follows the same steps. -/
theorem macroexpand_iff_iterated_steps (n : Node) (w w' : World) :
    let x := unlimited lookup mangle
    (∀ r, Ends (x.macroexpand · n) w (.ok r) w' ↔ ∃ s, x.Reaches n w r s ∧ x.Stops r s w') ∧
    (∀ e, Ends (x.macroexpand · n) w (.error e) w' ↔
      ∃ m s, x.Reaches n w m s ∧ Ends (x.macroexpandOnce · m) s (.error e) w') ∧
    (∀ r, Ends (x.macroexpandValue · n) w (.ok r) w' ↔
      ∃ m s, x.Reaches n w m s ∧ x.Stops m s w' ∧ x.Yields m s r) ∧
    ∀ e, Ends (x.macroexpandValue · n) w (.error e) w' ↔
      ∃ m s, x.Reaches n w m s ∧ Ends (x.macroexpandOnce · m) s (.error e) w' := by
  intro x
  have hx : x.limit = none := rfl
  have full : ∀ r, Ends (x.macroexpand · n) w r w' ↔
      ∃ m s, x.Reaches n w m s ∧ ∃ y, x.Last Mode.full.keepsVerbatim m s y w' ∧ r = y.map Expanded.node :=
    map_head_ends_iff hx rfl
  have value : ∀ r, Ends (x.macroexpandValue · n) w r w' ↔
      ∃ m s, x.Reaches n w m s ∧ ∃ y, x.Last Mode.value.keepsVerbatim m s y w' ∧ r = y.map Expanded.node :=
    map_head_ends_iff hx rfl
  refine ⟨fun r ↦ (full _).trans ?_, fun e ↦ (full _).trans ?_, fun r ↦ (value _).trans ?_,
    fun e ↦ (value _).trans ?_⟩
  · simp only [exists_last_ok_iff, Mode.full, last_node_iff hx]
    constructor
    · rintro ⟨m, s, hs, hl, rfl⟩
      exact ⟨s, hs, hl⟩
    · rintro ⟨s, hs, hl⟩
      exact ⟨r, s, hs, hl, rfl⟩
  · simp only [exists_last_error_iff, last_error_iff hx]
  · simp only [exists_last_ok_iff, Mode.value, last_value_iff hx]
  · simp only [exists_last_error_iff, last_error_iff hx]

end Unlimited

end MacroLisp.Expansion
