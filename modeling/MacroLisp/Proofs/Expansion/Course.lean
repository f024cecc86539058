import MacroLisp.Proofs.Expansion.Answers
import MacroLisp.Proofs.Expansion.Iteration

namespace MacroLisp

open Process (Ends)

def Process.Silent {ω ε α : Type} (p : Process ω ε α) : Prop := ∀ w o, p w = some o → o.log = []

namespace Process.Silent

variable {ω ω' ε ε' α β : Type} {p : Process ω ε α}

theorem pure (a : α) : Silent (Pure.pure a : Process ω ε α) := by
  intro w o h
  cases h
  rfl

theorem throw (e : ε) : Silent (.throw e : Process ω ε α) := by
  intro w o h
  cases h
  rfl

theorem gensym (hint : String) : Silent (.gensym hint : Process ω ε Node) := by
  intro w o h
  rw [gensym_apply] at h
  cases h
  rfl

theorem resolve (query : Query) : Silent (.resolve query : Process ω ε _) := by
  intro w o h
  unfold Process.resolve at h
  split at h <;> cases h <;> rfl

theorem quietly (p : Process ω ε α) : Silent (p.quietly : Process ω' ε' _) := by
  intro w o h
  obtain ⟨o', -, rfl⟩ := Option.map_eq_some_iff.mp h
  rfl

theorem bind (h : Silent p) {f : α → Process ω ε β} (hf : ∀ a, Silent (f a)) : Silent (p >>= f) := by
  intro w o ho
  rcases bind_eq_some.mp ho with ⟨e, log, s, hp, rfl⟩ | ⟨a, log, s, o', hp, ho', rfl⟩
  · exact h _ _ hp
  · have hlog : log = [] := h _ _ hp
    have hlog' : o'.log = [] := hf a _ _ ho'
    simp only [hlog, hlog', List.append_nil]

theorem mapError (h : Silent p) (f : ε → ε') : Silent (p.mapError f) := by
  intro w o ho
  obtain ⟨o', ho', rfl⟩ := Option.map_eq_some_iff.mp ho
  exact h _ _ ho'

end Process.Silent

theorem Action.silent_run {ω α : Type} (nested : Bool → Node → Process ω ExpansionError Node) (a : Action α) :
    (a.run nested).Silent := by
  induction a with
  | done a => exact .pure a
  | fail why => exact .throw why
  | fresh hint next ih => exact (Process.Silent.gensym hint).bind ih
  | expand once form next ih => exact (Process.Silent.quietly _).bind ih
  | resolve query next ih => exact (Process.Silent.resolve query).bind ih

namespace Expansion

theorem silent_invoke (nested : Bool → Node → ExpandM Node) (b : MacroBinding) (form : Node) :
    (invoke nested b form).Silent :=
  (Action.silent_run nested _).mapError _

variable (x : Expansion)

/-- The limit does not keep an expansion from one step more than so many. -/
def Allows (steps : Nat) : Prop := ∀ limit, x.limit = some limit → steps < limit

def Takes (n : Node) (w : World) (step : Step) (w' : World) : Prop :=
  ∃ provenance b output, x.callee? n = some (provenance, b) ∧
    Ends (fun fuel ↦ invoke (x.nested fuel) b n) w (.ok (.form output)) w' ∧
    step = ⟨b.name, provenance, n, output.placedAt n.span⟩

def GivesUp (n : Node) (w : World) (why : Failure) (e : ExpansionError) (w' : World) : Prop :=
  ∃ provenance b, x.callee? n = some (provenance, b) ∧
    Ends (fun fuel ↦ (b.expander ⟨b.module, n, (n.form?.getD []).drop 1⟩).run (x.nested fuel)) w (.error why) w' ∧
    e = blame b n why

/-- After so many steps, the expansion of the node calls a number of macros, records steps and ends. The calls that the
macros themselves ask for are not counted. -/
inductive Course : Nat → Node → World → Nat → List Step → Except ExpansionError Node → World → Prop
  | noMacro {steps : Nat} {n : Node} {w : World} : x.callee? n = none → Course steps n w 0 [] (.ok n) w
  | limit {steps limit : Nat} {n : Node} {w : World} :
      x.callee? n ≠ none → x.limit = some limit → limit ≤ steps → Course steps n w 0 [] (.error (.stepLimit limit n)) w
  | failed {steps : Nat} {n : Node} {w w' : World} {e : ExpansionError} :
      x.Allows steps → x.Answers n w (.error e) w' → Course steps n w 1 [] (.error e) w'
  | final {steps : Nat} {n value : Node} {w w' : World} :
      x.Allows steps → x.Answers n w (.ok (.verbatim value)) w' → Course steps n w 1 [] (.ok n) w'
  | step {steps calls : Nat} {n : Node} {w w' s : World} {step : Step} {log : List Step}
      {r : Except ExpansionError Node} : x.Allows steps → x.Takes n w step s →
      Course (steps + 1) step.output s calls log r w' → Course steps n w (calls + 1) (step :: log) r w'

variable {x} {fuel steps calls : Nat} {n : Node} {w w' s : World} {log : List Step} {step : Step}

theorem Answers.givesUp {e : ExpansionError} (h : x.Answers n w (.error e) w') : ∃ why, x.GivesUp n w why e w' := by
  obtain ⟨provenance, b, hc, fuel, log, h⟩ := h
  obtain ⟨⟨r, log', s⟩, hrun, ho⟩ := Option.map_eq_some_iff.mp h
  cases r with
  | ok out => cases ho
  | error why =>
    cases ho
    exact ⟨why, provenance, b, hc, ⟨fuel, _, hrun⟩, rfl⟩

theorem filter_limit_eq_none_iff : x.limit.filter (· ≤ steps) = none ↔ x.Allows steps := by
  simp only [Option.filter_eq_none_iff, Allows, decide_eq_true_eq, Nat.not_le]

theorem Allows.filter_limit (h : x.Allows steps) : x.limit.filter (· ≤ steps) = none := filter_limit_eq_none_iff.mpr h

theorem filter_limit_of_le {limit : Nat} (h : x.limit = some limit) (hle : limit ≤ steps) :
    x.limit.filter (· ≤ steps) = some limit :=
  Option.filter_eq_some_iff.mpr ⟨h, decide_eq_true hle⟩

theorem Takes.answers (h : x.Takes n w step w') : ∃ output, x.Answers n w (.ok (.form output)) w' ∧
    step.input = n ∧ step.output = output.placedAt n.span := by
  obtain ⟨provenance, b, output, hc, hends, rfl⟩ := h
  exact ⟨output, ⟨provenance, b, hc, hends⟩, rfl, rfl⟩

theorem proceed_form_full (fuel steps : Nat) (n : Node) (provenance : Provenance) (b : MacroBinding) (output : Node) :
    x.proceed fuel .full steps n provenance b (.form output) =
      .record ⟨b.name, provenance, n, output.placedAt n.span⟩ >>= fun _ ↦
        x.head fuel .full (steps + 1) (output.placedAt n.span) := rfl

theorem course_of_head {r : Except ExpansionError Expanded} (h : x.head fuel .full steps n w = some ⟨r, log, w'⟩) :
    ∃ calls, x.Course steps n w calls log (r.map Expanded.node) w' := by
  induction fuel generalizing steps n w log with
  | zero => cases h
  | succ fuel ih =>
    rcases hc : x.callee? n with _ | ⟨provenance, b⟩
    · rw [head_of_callee_none hc] at h
      cases h
      exact ⟨0, .noMacro hc⟩
    rcases hlimit : x.limit.filter (· ≤ steps) with _ | limit
    · have hallows := filter_limit_eq_none_iff.mp hlimit
      simp only [head_of_callee hc, hlimit] at h
      rcases Process.bind_eq_some.mp h with ⟨e, log', s, ha, ho⟩ | ⟨out, log', s, o, ha, ho, he⟩
      · obtain rfl : log' = [] := silent_invoke _ b n _ _ ha
        cases ho
        exact ⟨1, .failed hallows ⟨provenance, b, hc, fuel, [], ha⟩⟩
      · obtain rfl : log' = [] := silent_invoke _ b n _ _ ha
        cases he
        cases out with
        | verbatim value =>
          cases ho
          exact ⟨1, .final hallows ⟨provenance, b, hc, fuel, [], ha⟩⟩
        | form output =>
          rw [proceed_form_full, Process.bind_of_ok rfl] at ho
          obtain ⟨o', ho', rfl⟩ := Option.map_eq_some_iff.mp ho
          obtain ⟨calls, hcourse⟩ := ih ho'
          exact ⟨calls + 1, .step hallows ⟨provenance, b, output, hc, ⟨fuel, [], ha⟩, rfl⟩ hcourse⟩
    · obtain ⟨hsome, hle⟩ := Option.filter_eq_some_iff.mp hlimit
      simp only [head_of_callee hc, hlimit] at h
      cases h
      refine ⟨0, .limit ?_ hsome (of_decide_eq_true hle)⟩
      rw [hc]
      exact Option.some_ne_none _

theorem head_of_course {r : Except ExpansionError Node} (h : x.Course steps n w calls log r w') :
    ∃ fuel y, x.head fuel .full steps n w = some ⟨y, log, w'⟩ ∧ r = y.map Expanded.node := by
  induction h with
  | noMacro hc =>
    refine ⟨0 + 1, .ok ⟨_, false⟩, ?_, rfl⟩
    rw [head_of_callee_none hc, Process.pure_apply]
  | limit hc hlimit hle =>
    obtain ⟨⟨provenance, b⟩, hc⟩ := Option.ne_none_iff_exists'.mp hc
    refine ⟨0 + 1, .error _, ?_, rfl⟩
    simp only [head_of_callee hc, filter_limit_of_le hlimit hle]
    rfl
  | failed hallows ha =>
    obtain ⟨provenance, b, hc, fuel, log, ha⟩ := ha
    obtain rfl : log = [] := silent_invoke _ b _ _ _ ha
    refine ⟨fuel + 1, .error _, ?_, rfl⟩
    simp only [head_of_callee hc, hallows.filter_limit]
    exact Process.bind_of_error ha
  | final hallows ha =>
    obtain ⟨provenance, b, hc, fuel, log, ha⟩ := ha
    obtain rfl : log = [] := silent_invoke _ b _ _ _ ha
    refine ⟨fuel + 1, .ok ⟨_, false⟩, ?_, rfl⟩
    simp only [head_of_callee hc, hallows.filter_limit]
    rw [Process.bind_of_ok ha]
    rfl
  | step hallows ht _ ih =>
    obtain ⟨provenance, b, output, hc, ⟨fuel, log', ha⟩, rfl⟩ := ht
    obtain rfl : log' = [] := silent_invoke _ b _ _ _ ha
    obtain ⟨fuel', y, hrest, rfl⟩ := ih
    -- One number of steps serves for the macro and for what comes after it.
    have ha' := invoke_steady b _ fuel (max fuel fuel') (Nat.le_max_left ..) _ _ ha
    have hrest' : x.head (max fuel fuel') .full _ _ _ = _ :=
      head_steady _ _ _ fuel' (max fuel fuel') (Nat.le_max_right ..) _ _ hrest
    refine ⟨max fuel fuel' + 1, y, ?_, rfl⟩
    simp only [head_of_callee hc, hallows.filter_limit]
    rw [Process.bind_of_ok ha', proceed_form_full, Process.bind_of_ok rfl, hrest']
    rfl

theorem exists_macroexpand_iff {r : Except ExpansionError Node} :
    (∃ fuel, x.macroexpand fuel n w = some ⟨r, log, w'⟩) ↔ ∃ calls, x.Course 0 n w calls log r w' := by
  constructor
  · rintro ⟨fuel, h⟩
    rw [macroexpand, Process.map_apply] at h
    obtain ⟨⟨y, log', s⟩, hhead, ho⟩ := Option.map_eq_some_iff.mp h
    cases ho
    exact course_of_head hhead
  · rintro ⟨calls, h⟩
    obtain ⟨fuel, y, hhead, rfl⟩ := head_of_course h
    refine ⟨fuel, ?_⟩
    rw [macroexpand, Process.map_apply, hhead]
    rfl

theorem macroexpand_ends_iff {r : Except ExpansionError Node} :
    Ends (x.macroexpand · n) w r w' ↔ ∃ calls log, x.Course 0 n w calls log r w' := by
  constructor
  · rintro ⟨fuel, log, h⟩
    obtain ⟨calls, hcourse⟩ := exists_macroexpand_iff.mp ⟨fuel, h⟩
    exact ⟨calls, log, hcourse⟩
  · rintro ⟨calls, log, h⟩
    obtain ⟨fuel, h⟩ := exists_macroexpand_iff.mpr ⟨calls, h⟩
    exact ⟨fuel, log, h⟩

end Expansion

end MacroLisp
