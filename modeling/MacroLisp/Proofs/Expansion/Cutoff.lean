import MacroLisp.Proofs.Expansion.Course

namespace MacroLisp.Expansion

open Process (Ends)

def limited (lookup : String → Option (Provenance × MacroBinding)) (mangle : String → String) (limit : Nat) :
    Expansion :=
  ⟨lookup, mangle, some limit⟩

def EndsAfter (x : Expansion) (n : Node) (w : World) (calls : Nat) (r : Except ExpansionError Node) (w' : World) :
    Prop :=
  ∃ log, x.Course 0 n w calls log r w'

theorem macroexpand_ends_iff_endsAfter {x : Expansion} {n : Node} {w w' : World} {r : Except ExpansionError Node} :
    Ends (x.macroexpand · n) w r w' ↔ ∃ calls, x.EndsAfter n w calls r w' := macroexpand_ends_iff

theorem Course.calls_le {x : Expansion} {steps calls limit : Nat} {n : Node} {w w' : World} {log : List Step}
    {r : Except ExpansionError Node} (h : x.Course steps n w calls log r w') (hx : x.limit = some limit)
    (hsteps : steps ≤ limit) : steps + calls ≤ limit := by
  induction h with
  | noMacro hc => exact hsteps
  | limit hc hlimit hle => exact hsteps
  | failed hallows ha => exact hallows limit hx
  | final hallows ha => exact hallows limit hx
  | step hallows ht _ ih =>
    have hrest := ih (hallows limit hx)
    omega

theorem answersForms_of_callee {x : Expansion} (hx : ∀ name p b, x.lookup name = some (p, b) → b.expander.AnswersForms)
    {n : Node} {provenance : Provenance} {b : MacroBinding} (hc : x.callee? n = some (provenance, b)) :
    b.expander.AnswersForms := by
  obtain ⟨head, -, hlookup⟩ := Option.bind_eq_some_iff.mp hc
  exact hx _ _ _ hlookup

theorem exists_answers_or_takes {x : Expansion} (hx : ∀ name p b, x.lookup name = some (p, b) → b.expander.AnswersForms)
    {n : Node} (hc : x.callee? n ≠ none) (w : World) :
    (∃ e w', x.Answers n w (.error e) w') ∨ ∃ step w', x.Takes n w step w' := by
  obtain ⟨⟨provenance, b⟩, hc⟩ := Option.ne_none_iff_exists'.mp hc
  have hb := answersForms_of_callee hx hc
  obtain ⟨r, w', hinvoke, hforms⟩ := invoke_answers (fun _ _ ↦ trivial) hb (fun _ _ ↦ trivial) w
  cases r with
  | error e => exact .inl ⟨e, w', provenance, b, hc, 0, [], hinvoke _⟩
  | ok out =>
    obtain ⟨output, rfl, -⟩ := hforms out rfl
    exact .inr ⟨_, w', provenance, b, output, hc, ⟨0, [], hinvoke _⟩, rfl⟩

theorem ends_invoke_of_answersForms {x : Expansion} {b : MacroBinding} {n : Node} {w w' : World}
    {a : Except ExpansionError MacroOutput} (hb : b.expander.AnswersForms)
    (h : Ends (fun fuel ↦ invoke (x.nested fuel) b n) w a w') (y : Expansion) :
    Ends (fun fuel ↦ invoke (y.nested fuel) b n) w a w' := by
  obtain ⟨r, s, hinvoke, -⟩ := invoke_answers (n := n) (fun _ _ ↦ trivial) hb (fun _ _ ↦ trivial) w
  obtain ⟨fuel, log, h⟩ := h
  exact ⟨fuel, log, (hinvoke _).trans ((hinvoke _).symm.trans h)⟩

section Limits

variable {lookup : String → Option (Provenance × MacroBinding)} {mangle : String → String}
  {limit limit' : Option Nat} {steps calls : Nat} {n : Node} {w w' : World} {log : List Step} {step : Step}
  {r : Except ExpansionError Node} {a : Except ExpansionError MacroOutput}
  (hx : ∀ name p b, lookup name = some (p, b) → b.expander.AnswersForms)

include hx

theorem Answers.of_limit (h : (Expansion.mk lookup mangle limit).Answers n w a w') (limit' : Option Nat) :
    (Expansion.mk lookup mangle limit').Answers n w a w' := by
  obtain ⟨provenance, b, hc, h⟩ := h
  have hb : b.expander.AnswersForms := answersForms_of_callee (x := ⟨lookup, mangle, limit⟩) hx hc
  exact ⟨provenance, b, hc, ends_invoke_of_answersForms hb h _⟩

theorem Takes.of_limit (h : (Expansion.mk lookup mangle limit).Takes n w step w') (limit' : Option Nat) :
    (Expansion.mk lookup mangle limit').Takes n w step w' := by
  obtain ⟨provenance, b, output, hc, h, hstep⟩ := h
  have hb : b.expander.AnswersForms := answersForms_of_callee (x := ⟨lookup, mangle, limit⟩) hx hc
  exact ⟨provenance, b, output, hc, ends_invoke_of_answersForms hb h _, hstep⟩

theorem Course.of_limit (h : (Expansion.mk lookup mangle limit).Course steps n w calls log r w')
    (hr : ∀ l m, limit = some l → r ≠ .error (.stepLimit l m))
    (hallows : ∀ k < steps + calls, (Expansion.mk lookup mangle limit').Allows k) :
    (Expansion.mk lookup mangle limit').Course steps n w calls log r w' := by
  induction h with
  | noMacro hc => exact .noMacro hc
  | limit hc hlimit hle => exact absurd rfl (hr _ _ hlimit)
  | failed _ ha => exact .failed (hallows _ (Nat.lt_succ_self _)) (ha.of_limit hx limit')
  | final _ ha => exact .final (hallows _ (Nat.lt_succ_self _)) (ha.of_limit hx limit')
  | step _ ht _ ih =>
    refine .step (hallows _ (by omega)) (ht.of_limit hx limit') (ih hr fun k hk ↦ hallows k ?_)
    omega

theorem exists_course_or_chain (k steps : Nat) (n : Node) (w : World) :
    (∃ calls log r w', calls ≤ k ∧ (unlimited lookup mangle).Course steps n w calls log r w') ∨
    ∃ chain : Nat → Node × World, chain 0 = (n, w) ∧
      (∀ i < k, (unlimited lookup mangle).Rewrites (chain i) (chain (i + 1))) ∧
      (unlimited lookup mangle).callee? (chain k).1 ≠ none ∧
      ∃ log, (limited lookup mangle (steps + k)).Course steps n w k log (.error (.stepLimit (steps + k) (chain k).1))
        (chain k).2 := by
  have hfree : ∀ k, (unlimited lookup mangle).Allows k := fun k limit hlimit ↦ by cases hlimit
  induction k generalizing steps n w with
  | zero =>
    by_cases hc : (unlimited lookup mangle).callee? n = none
    · exact .inl ⟨0, [], .ok n, w, le_rfl, .noMacro hc⟩
    · exact .inr ⟨fun _ ↦ (n, w), rfl, fun i hi ↦ absurd hi (Nat.not_lt_zero i), hc, [], .limit hc rfl le_rfl⟩
  | succ k ih =>
    by_cases hc : (unlimited lookup mangle).callee? n = none
    · exact .inl ⟨0, [], .ok n, w, Nat.zero_le _, .noMacro hc⟩
    rcases exists_answers_or_takes (x := unlimited lookup mangle) hx hc w with ⟨e, w', ha⟩ | ⟨step, s, ht⟩
    · exact .inl ⟨1, [], .error e, w', by omega, .failed (hfree steps) ha⟩
    rcases ih (steps + 1) step.output s with ⟨calls, log, r, w', hcalls, h⟩ | ⟨chain, hzero, hchain, hlast, log, h⟩
    · exact .inl ⟨calls + 1, step :: log, r, w', by omega, .step (hfree steps) ht h⟩
    · have hstep : (unlimited lookup mangle).Rewrites (n, w) (chain 0) := by
        obtain ⟨output, ha, -, hout⟩ := ht.answers
        rw [hzero]
        exact (rewrites_iff rfl).mpr ⟨output, ha, hout⟩
      refine .inr ⟨fun i ↦ i.casesOn (n, w) chain, rfl, fun i hi ↦ ?_, hlast, step :: log, ?_⟩
      · cases i with
        | zero => exact hstep
        | succ i => exact hchain i (by omega)
      · have hsum : steps + 1 + k = steps + (k + 1) := by omega
        rw [hsum] at h
        refine .step (fun limit hlimit ↦ ?_) (ht.of_limit hx _) h
        obtain rfl := Option.some.inj hlimit
        omega

end Limits

/-- For template macros and core macros, expansion under a limit ends after no more calls than the limit. It comes to what
expansion without limit comes to, if that calls no more macros; else it fails at the form that so many steps lead to,
which is still a call. So what succeeds under a limit comes to the same under a larger one. -/
theorem limit_cuts_short {lookup : String → Option (Provenance × MacroBinding)}
    (hx : ∀ name p b, lookup name = some (p, b) → AnyTemplateOrCore b.expander) (mangle : String → String) (limit : Nat)
    (n : Node) (w : World) :
    let x := limited lookup mangle limit
    let u := unlimited lookup mangle
    (∀ y : Expansion, ∀ r w', Ends (y.macroexpand · n) w r w' ↔ ∃ calls, y.EndsAfter n w calls r w') ∧
    ((∃ calls r w', x.EndsAfter n w calls r w') ∧ ∀ calls r w', x.EndsAfter n w calls r w' → calls ≤ limit) ∧
    (∀ calls r w', u.EndsAfter n w calls r w' → calls ≤ limit → x.EndsAfter n w calls r w') ∧
    ((¬∃ calls r w', u.EndsAfter n w calls r w' ∧ calls ≤ limit) →
      ∃ chain : Nat → Node × World, chain 0 = (n, w) ∧ (∀ i < limit, u.Rewrites (chain i) (chain (i + 1))) ∧
        u.callee? (chain limit).1 ≠ none ∧
        x.EndsAfter n w limit (.error (.stepLimit limit (chain limit).1)) (chain limit).2) ∧
    ∀ limit' ≥ limit, ∀ m w', Ends (x.macroexpand · n) w (.ok m) w' →
      Ends ((limited lookup mangle limit').macroexpand · n) w (.ok m) w' := by
  intro x u
  have hforms : ∀ name p b, lookup name = some (p, b) → b.expander.AnswersForms :=
    fun name p b h ↦ (hx name p b h).answersForms
  have hwithin : ∀ calls r w', u.EndsAfter n w calls r w' → calls ≤ limit → x.EndsAfter n w calls r w' := by
    intro calls r w' ⟨log, h⟩ hcalls
    refine ⟨log, h.of_limit hforms (fun l m hl ↦ by cases hl) fun k hk l hl ↦ ?_⟩
    obtain rfl := Option.some.inj hl
    omega
  have hbound : ∀ calls r w', x.EndsAfter n w calls r w' → calls ≤ limit := by
    intro calls r w' ⟨log, h⟩
    have hle := h.calls_le rfl (Nat.zero_le limit)
    omega
  have hcases := @exists_course_or_chain lookup mangle hforms limit 0 n w
  rw [Nat.zero_add] at hcases
  refine ⟨fun y r w' ↦ macroexpand_ends_iff_endsAfter, ⟨?_, hbound⟩, hwithin, fun hmore ↦ ?_, ?_⟩
  · rcases hcases with ⟨calls, log, r, w', hcalls, h⟩ | ⟨chain, -, -, -, h⟩
    · exact ⟨calls, r, w', hwithin calls r w' ⟨log, h⟩ hcalls⟩
    · exact ⟨_, _, _, h⟩
  · rcases hcases with ⟨calls, log, r, w', hcalls, h⟩ | hchain
    · exact absurd ⟨calls, r, w', ⟨log, h⟩, hcalls⟩ hmore
    · exact hchain
  · intro limit' hle m w' h
    obtain ⟨calls, log, hcourse⟩ := macroexpand_ends_iff.mp h
    have hcalls := hbound calls _ _ ⟨log, hcourse⟩
    refine macroexpand_ends_iff.mpr ⟨calls, log, hcourse.of_limit hforms (fun l m hl he ↦ by cases he) fun k hk l hl ↦ ?_⟩
    obtain rfl := Option.some.inj hl
    omega

/-- Drops its first argument: `(down a b c)` becomes `(b c)`. -/
def down : Template where
  params := ⟨["first"], some "rest"⟩
  body := .symbol "rest" .nowhere
  doc := none

def lookupDown (name : String) : Option (Provenance × MacroBinding) :=
  if name = "down" then some (.module, ⟨"down", "__main__", down.expander, none⟩) else none

/-- `(down down down 1)` takes two steps, to `(down 1)` and to `()`. -/
theorem down_within_limit :
    let w : World := ⟨.new Name.mangle, none⟩
    let call (args : List Node) : Node := .form (.symbol "down" .nowhere :: args) .nowhere
    let n := call [.symbol "down" .nowhere, .symbol "down" .nowhere, .literal (.int 1) .nowhere]
    (∀ name p b, lookupDown name = some (p, b) → AnyTemplateOrCore b.expander) ∧
    Ends ((limited lookupDown id 1).macroexpand · n) w (.error (.stepLimit 1 (call [.literal (.int 1) .nowhere]))) w ∧
    ∀ limit ≥ 2, Ends ((limited lookupDown id limit).macroexpand · n) w (.ok (.form [] .nowhere)) w := by
  intro w call n
  have hdown : ∀ name p b, lookupDown name = some (p, b) → AnyTemplateOrCore b.expander := by
    intro name p b h
    unfold lookupDown at h
    split at h
    · cases h
      exact .template down
    · cases h
  have htwo : Ends ((limited lookupDown id 2).macroexpand · n) w (.ok (.form [] .nowhere)) w := ⟨3, _, rfl⟩
  refine ⟨hdown, ⟨3, _, rfl⟩, fun limit hlimit ↦ ?_⟩
  exact (limit_cuts_short hdown id 2 n w).2.2.2.2 limit hlimit _ w htwo

end MacroLisp.Expansion
