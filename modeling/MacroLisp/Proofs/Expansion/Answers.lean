import MacroLisp.Proofs.Expansion.Draws
import MacroLisp.Proofs.Expansion.Fuel
import MacroLisp.Proofs.Name.Fresh

namespace MacroLisp

variable {α : Type} {ω : Type} {N : Set String} {Q : Set String → α → Prop} {a : Action α}

theorem Process.gensym_apply {ε : Type} (hint : String) (w : World) : (gensym hint : Process ω ε Node) w =
    some ⟨.ok (.symbol (w.names.fresh hint).1 .nowhere), [], { w with names := (w.names.fresh hint).2 }⟩ := rfl

/-- An action that only draws symbols comes to an end, whatever expansion does, and leaves no log. It draws none but
generated names. -/
theorem Action.Draws.run (hN : ∀ name, NameSupply.isReserved name = true → name ∈ N) (h : a.Draws Q N) (w : World) :
    ∃ r w', (∀ nested : Bool → Node → Process ω ExpansionError Node, a.run nested w = some ⟨r, [], w'⟩) ∧
      ∀ v, r = .ok v → Q N v := by
  induction a generalizing w with
  | done x =>
    refine ⟨.ok x, w, fun nested ↦ rfl, fun v hv ↦ ?_⟩
    cases hv
    exact h
  | fail why => exact ⟨.error why, w, fun nested ↦ rfl, fun v hv ↦ by cases hv⟩
  | fresh hint next ih =>
    have hnext := h (w.names.fresh hint).1
    rw [Set.insert_eq_of_mem (hN _ (w.names.isReserved_fresh hint))] at hnext
    obtain ⟨r, w', hrun, hr⟩ := ih _ hnext { w with names := (w.names.fresh hint).2 }
    refine ⟨r, w', fun nested ↦ ?_, hr⟩
    rw [Action.run, Process.bind_of_ok (Process.gensym_apply hint w), hrun]
    rfl
  | expand once form next => exact h.elim
  | resolve query next => exact h.elim

/-- The macro asks for nothing but fresh symbols, and answers with a form if it does not give up. Which names are in
the form is left open. -/
def Expander.AnswersForms (e : Expander) : Prop := e.Brings Set.univ

/-- Template macros, whatever their bodies, and the core macros. -/
inductive AnyTemplateOrCore : Expander → Prop
  | template (t : Template) : AnyTemplateOrCore t.expander
  | core {name : String} {b : MacroBinding} : Core.table.getMangled? name = some b → AnyTemplateOrCore b.expander

theorem AnyTemplateOrCore.answersForms {e : Expander} (h : AnyTemplateOrCore e) : e.AnswersForms := by
  cases h with
  | template t => exact t.brings.mono (Set.subset_univ _)
  | core hb => exact (Core.brings_of_table hb).mono (Set.subset_univ _)

namespace Expansion

variable {x : Expansion} {b : MacroBinding} {provenance : Provenance} {n : Node} {w w' : World} {mode : Mode}
  {fuel steps limit : Nat} {e : Expanded} {log : List Step}

section Names

variable (hN : ∀ name, NameSupply.isReserved name = true → name ∈ N)

include hN

theorem invoke_answers (hb : b.expander.Brings N) (hn : n.Within N) (w : World) :
    ∃ r w', (∀ nested, invoke nested b n w = some ⟨r, [], w'⟩) ∧ ∀ out, r = .ok out → out.Within N := by
  have hdraws := hb N ⟨b.module, n, (n.form?.getD []).drop 1⟩ subset_rfl (Node.AllNames.args hn)
  obtain ⟨r, w', hrun, hr⟩ := hdraws.run (ω := Step) hN w
  refine ⟨r.mapError (blame b n), w', fun nested ↦ ?_, fun out hout ↦ ?_⟩
  · simp only [invoke, Process.mapError, hrun, Option.map_some]
  · cases r with
    | error why => cases hout
    | ok value =>
      cases hout
      exact hr _ rfl

theorem head_of_answer (hx : ∀ name p b, x.lookup name = some (p, b) → b.expander.Brings N) (hn : n.Within N)
    (hc : x.callee? n = some (provenance, b)) (hlimit : x.limit.filter (· ≤ steps) = none) (w : World) :
    ∃ w', (∃ e, ∀ fuel mode, x.head (fuel + 1) mode steps n w = some ⟨.error e, [], w'⟩) ∨
      ∃ m : Node, m.Within N ∧ ∀ fuel mode, x.head (fuel + 1) mode steps n w =
        ((if mode.once then pure ⟨m, false⟩ else x.head fuel mode (steps + 1) m : ExpandM Expanded) w').map
          fun o ↦ { o with log := ⟨b.name, provenance, n, m⟩ :: o.log } := by
  have hb : b.expander.Brings N := by
    obtain ⟨head, -, hlookup⟩ := Option.bind_eq_some_iff.mp hc
    exact hx _ _ _ hlookup
  obtain ⟨r, w', hinvoke, hr⟩ := invoke_answers hN hb hn w
  refine ⟨w', ?_⟩
  cases r with
  | error e =>
    refine .inl ⟨e, fun fuel mode ↦ ?_⟩
    simp only [head_of_callee hc, hlimit]
    exact Process.bind_of_error (hinvoke _)
  | ok out =>
    obtain ⟨m, rfl, hm⟩ := hr _ rfl
    refine .inr ⟨m.placedAt n.span, Node.within_placedAt.mpr hm, fun fuel mode ↦ ?_⟩
    simp only [head_of_callee hc, hlimit]
    rw [Process.bind_of_ok (hinvoke _), proceed, Process.bind_of_ok rfl, Option.map_map]
    rfl

theorem head_within (hx : ∀ name p b, x.lookup name = some (p, b) → b.expander.Brings N) (hn : n.Within N)
    (h : x.head fuel mode steps n w = some ⟨.ok e, log, w'⟩) : e.node.Within N := by
  induction fuel generalizing steps n w log with
  | zero => cases h
  | succ fuel ih =>
    rcases hc : x.callee? n with _ | ⟨provenance, b⟩
    · rw [head_of_callee_none hc] at h
      cases h
      exact hn
    rcases hlimit : x.limit.filter (· ≤ steps) with _ | limit
    · obtain ⟨s, ⟨e, herror⟩ | ⟨m, hm, hform⟩⟩ := head_of_answer hN hx hn hc hlimit w
      · rw [herror] at h
        cases h
      · rw [hform] at h
        obtain ⟨⟨r, log', w''⟩, ho, he⟩ := Option.map_eq_some_iff.mp h
        cases he
        split at ho
        · cases ho
          exact hm
        · exact ih hm ho
    · simp only [head_of_callee hc, hlimit] at h
      cases h

end Names

section Forms

variable (hx : ∀ name p b, x.lookup name = some (p, b) → b.expander.AnswersForms)

include hx

theorem head_of_limit (hlimit : x.limit = some limit) (mode : Mode) (hfuel : steps + fuel = limit) (n : Node)
    (w : World) : ∃ r log w', x.head (fuel + 1) mode steps n w = some ⟨r, log, w'⟩ ∧ log.length ≤ fuel := by
  induction fuel generalizing steps n w with
  | zero =>
    rcases hc : x.callee? n with _ | ⟨provenance, b⟩
    · rw [head_of_callee_none hc]
      exact ⟨_, _, _, rfl, Nat.le_refl 0⟩
    · have hreached : x.limit.filter (· ≤ steps) = some limit := by
        rw [hlimit, Option.filter_some, if_pos (by simp [← hfuel])]
      simp only [head_of_callee hc, hreached]
      exact ⟨_, _, _, rfl, Nat.le_refl 0⟩
  | succ fuel ih =>
    rcases hc : x.callee? n with _ | ⟨provenance, b⟩
    · rw [head_of_callee_none hc]
      exact ⟨_, _, _, rfl, Nat.zero_le _⟩
    · have hbelow : x.limit.filter (· ≤ steps) = none := by
        rw [hlimit, Option.filter_some, if_neg (by simp; omega)]
      obtain ⟨w', ⟨e, herror⟩ | ⟨m, -, hform⟩⟩ := head_of_answer (fun _ _ ↦ trivial) hx (fun _ _ ↦ trivial) hc hbelow w
      · exact ⟨_, _, _, herror _ _, Nat.zero_le _⟩
      · rw [hform]
        split
        · exact ⟨_, _, _, rfl, by simp⟩
        · have hsteps : steps + 1 + fuel = limit := by omega
          obtain ⟨r, log, w'', hrest, hlength⟩ := ih hsteps m w'
          rw [hrest]
          exact ⟨_, _, _, rfl, by simpa using hlength⟩

theorem head_settled (h : x.head fuel .value steps n w = some ⟨.ok e, log, w'⟩) :
    e.verbatim = false ∧ x.callee? e.node = none := by
  induction fuel generalizing steps n w log with
  | zero => cases h
  | succ fuel ih =>
    rcases hc : x.callee? n with _ | ⟨provenance, b⟩
    · rw [head_of_callee_none hc] at h
      cases h
      exact ⟨rfl, hc⟩
    rcases hlimit : x.limit.filter (· ≤ steps) with _ | limit
    · obtain ⟨s, ⟨e, herror⟩ | ⟨m, -, hform⟩⟩ := head_of_answer (fun _ _ ↦ trivial) hx (fun _ _ ↦ trivial) hc hlimit w
      · rw [herror] at h
        cases h
      · rw [hform] at h
        obtain ⟨⟨r, log', w''⟩, ho, he⟩ := Option.map_eq_some_iff.mp h
        cases he
        exact ih ho
    · simp only [head_of_callee hc, hlimit] at h
      cases h

end Forms

end Expansion

end MacroLisp
