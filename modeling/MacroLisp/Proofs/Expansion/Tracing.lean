import MacroLisp.Proofs.Expansion.Course
import MacroLisp.Proofs.Expansion.Filling
import MacroLisp.Proofs.Expansion.Leftover

namespace MacroLisp

open Process (Ends)

/-- A computation that is handed a trace to write to, or none. It hands the trace back, also when it fails. -/
abbrev Tracer := ExceptT ExpansionError (StateT (Option (List Step) × World) Option)

namespace Tracer

variable {α β : Type}

def unfinished : Tracer α := ExceptT.mk fun _ ↦ none

def write (s : Step) : Tracer Unit := ExceptT.mk fun (trace, w) ↦ some (.ok (), (trace.map (· ++ [s]), w))

def apart (p : ExpandM α) : Tracer α := ExceptT.mk fun (trace, w) ↦ (p w).map fun o ↦ (o.result, (trace, o.world))

def untraced (p : Tracer α) : ExpandM α := fun w ↦
  (p.run.run (none, w)).map fun (r, (_, w')) ↦ ⟨r, [], w'⟩

/-- The computation does what the process does, and puts its log at the end of the trace. -/
def Adds (p : Tracer α) (q : ExpandM α) : Prop :=
  ∀ trace w, p.run.run (trace, w) = (q w).map fun o ↦ (o.result, (trace.map (· ++ o.log), o.world))

namespace Adds

variable {p : Tracer α} {q : ExpandM α}

theorem pure (a : α) : Adds (Pure.pure a) (Pure.pure a) := by
  intro trace w
  cases trace <;> simp

theorem throw (e : ExpansionError) : Adds (MonadExcept.throw e : Tracer α) (.throw e) := by
  intro trace w
  cases trace <;> simp [Process.throw]

theorem unfinished : Adds (.unfinished : Tracer α) .unfinished := fun _ _ ↦ rfl

theorem write (s : Step) : Adds (.write s) (.record s) := fun _ _ ↦ rfl

theorem apart (h : q.Silent) : Adds (.apart q) q := by
  intro trace w
  change (q w).map _ = _
  rcases hq : q w with _ | o
  · rfl
  · have hlog : o.log = [] := h w o hq
    cases trace <;> simp [hlog]

theorem bind (h : Adds p q) {f : α → Tracer β} {g : α → ExpandM β} (hf : ∀ a, Adds (f a) (g a)) :
    Adds (p >>= f) (q >>= g) := by
  intro trace w
  rw [ExceptT.run_bind, StateT.run_bind, h]
  rcases hq : q w with _ | ⟨e | a, log, w'⟩
  · change _ = Option.map _ (Process.bind q g w)
    simp [Process.bind, hq]
  · rw [Process.bind_of_error hq]
    rfl
  · rw [Process.bind_of_ok hq, Option.map_map]
    refine (hf a (trace.map (· ++ log)) w').trans ?_
    cases trace <;> simp [Function.comp_def]

theorem map (h : Adds p q) (f : α → β) : Adds (f <$> p) (f <$> q) := by
  rw [map_eq_pure_bind, map_eq_pure_bind]
  exact h.bind fun a ↦ .pure (f a)

theorem mapM {f : α → Tracer β} {g : α → ExpandM β} (as : List α) (h : ∀ a, Adds (f a) (g a)) :
    Adds (as.mapM f) (as.mapM g) := by
  induction as with
  | nil => exact .pure []
  | cons a as ih =>
    rw [List.mapM_cons, List.mapM_cons]
    exact (h a).bind fun b ↦ ih.bind fun bs ↦ .pure (b :: bs)

theorem quietly_map_untraced {ω' ε' : Type} (h : Adds p q) (f : α → β) :
    ((f <$> p.untraced).quietly : Process ω' ε' _) = (f <$> q).quietly := by
  funext w
  simp only [Process.quietly, Process.map_apply, untraced, h none w, Option.map_map]
  rfl

end Adds

end Tracer

theorem Action.run_congr {ω α : Type} {nested nested' : Bool → Node → Process ω ExpansionError Node}
    (h : ∀ once form, ((nested once form).quietly : Process ω Failure _) = (nested' once form).quietly)
    (a : Action α) : a.run nested = a.run nested' := by
  induction a with
  | done a => rfl
  | fail why => rfl
  | fresh hint next ih => exact congrArg _ (funext ih)
  | expand once form next ih => rw [run, run, h, funext ih]
  | resolve query next ih => exact congrArg _ (funext ih)

namespace Expansion

variable (x : Expansion)

/-- Expansion at the head, which writes its steps to the trace. The macros do not see the trace. -/
def headInto : Nat → Mode → Nat → Node → Tracer Expanded
  | 0, _, _, _ => .unfinished
  | fuel + 1, mode, steps, tree =>
    match x.callee? tree with
    | none => return ⟨tree, false⟩
    | some (provenance, b) =>
      match x.limit.filter (· ≤ steps) with
      | some limit => throw (.stepLimit limit tree)
      | none => do
        let nested (once : Bool) (form : Node) : ExpandM Node :=
          Expanded.node <$> (headInto fuel (if once then .single else .full) 0 form).untraced
        match ← Tracer.apart (invoke nested b tree) with
        | .form output =>
          Tracer.write ⟨b.name, provenance, tree, output.placedAt tree.span⟩
          if mode.once then return ⟨output.placedAt tree.span, false⟩
          else headInto fuel mode (steps + 1) (output.placedAt tree.span)
        | .verbatim value => if mode.keepsVerbatim then return ⟨value, true⟩ else return ⟨tree, false⟩

def macroexpandInto (fuel : Nat) (n : Node) : Tracer Node := Expanded.node <$> x.headInto fuel .full 0 n

def allInto : Nat → Node → Tracer Node
  | 0, _ => .unfinished
  | fuel + 1, n => do
    let e ← x.headInto fuel .value 0 n
    return e.rebuild (← e.parts.mapM (allInto fuel))

variable {x} {n : Node} {w w' : World} {log : List Step} {steps calls : Nat}

open Tracer (Adds)

theorem adds_headInto (fuel : Nat) (mode : Mode) (steps : Nat) (tree : Node) :
    Adds (x.headInto fuel mode steps tree) (x.head fuel mode steps tree) := by
  induction fuel generalizing mode steps tree with
  | zero => exact .unfinished
  | succ fuel ih =>
    rw [headInto]
    rcases hc : x.callee? tree with _ | ⟨provenance, b⟩
    · rw [head_of_callee_none hc]
      exact .pure _
    · rw [head_of_callee hc]
      rcases x.limit.filter (· ≤ steps) with _ | limit
      · have hinvoke : ∀ nested : Bool → Node → ExpandM Node, (∀ once form, nested once form =
            Expanded.node <$> (x.headInto fuel (if once then .single else .full) 0 form).untraced) →
            invoke nested b tree = invoke (x.nested fuel) b tree := by
          intro nested hnested
          refine congrArg (Process.mapError _) (Action.run_congr (fun once form ↦ ?_) _)
          rw [hnested]
          exact (ih _ 0 form).quietly_map_untraced Expanded.node
        dsimp only
        rw [hinvoke _ fun _ _ ↦ rfl]
        refine (Adds.apart (silent_invoke _ b tree)).bind fun out ↦ ?_
        cases out with
        | verbatim value =>
          unfold proceed
          dsimp only
          split <;> exact .pure _
        | form output =>
          refine (Adds.write _).bind fun _ ↦ ?_
          split
          · exact .pure _
          · exact ih _ _ _
      · exact .throw _

theorem adds_macroexpandInto (fuel : Nat) (n : Node) : Adds (x.macroexpandInto fuel n) (x.macroexpand fuel n) :=
  (adds_headInto fuel .full 0 n).map _

theorem adds_allInto (fuel : Nat) (n : Node) : Adds (x.allInto fuel n) (x.all fuel n) := by
  induction fuel generalizing n with
  | zero => exact .unfinished
  | succ fuel ih =>
    rw [all_succ, allInto]
    refine (adds_headInto fuel .value 0 n).bind fun e ↦ ?_
    rw [← map_eq_pure_bind]
    exact (Adds.mapM e.parts ih).map e.rebuild

/-- The steps lead from the one node to the other: the first begins with it, each other with what the step before it came
to, and the last comes to the other node. -/
inductive Leads : Node → List Step → Node → Prop
  | nil (n : Node) : Leads n [] n
  | cons {step : Step} {steps : List Step} {m : Node} :
      Leads step.output steps m → Leads step.input (step :: steps) m

theorem Course.takes {r : Except ExpansionError Node} (h : x.Course steps n w calls log r w') :
    ∀ step ∈ log, ∃ s s', x.Takes step.input s step s' := by
  induction h with
  | noMacro hc => simp
  | limit hc hlimit hle => simp
  | failed hallows ha => simp
  | final hallows ha => simp
  | step hallows ht _ ih =>
    obtain ⟨output, -, hinput, -⟩ := ht.answers
    exact List.forall_mem_cons.mpr ⟨⟨_, _, hinput.symm ▸ ht⟩, ih⟩

theorem Course.leads {r : Except ExpansionError Node} (h : x.Course steps n w calls log r w')
    (hsteps : ∀ limit, x.limit = some limit → steps ≤ limit) :
    ∃ m, Leads n log m ∧ (r = .ok m ∨
      (x.limit = some (steps + log.length) ∧ r = .error (.stepLimit (steps + log.length) m)) ∨
      ∃ s why e, x.GivesUp m s why e w' ∧ r = .error e) := by
  induction h with
  | @noMacro steps n w hc => exact ⟨n, .nil n, .inl rfl⟩
  | @limit steps limit n w hc hlimit hle =>
    obtain rfl : steps = limit := Nat.le_antisymm (hsteps limit hlimit) hle
    exact ⟨n, .nil n, .inr (.inl ⟨hlimit, rfl⟩)⟩
  | @failed steps n w w' e hallows ha =>
    obtain ⟨why, hwhy⟩ := ha.givesUp
    exact ⟨n, .nil n, .inr (.inr ⟨w, why, e, hwhy, rfl⟩)⟩
  | @final steps n value w w' hallows ha => exact ⟨n, .nil n, .inl rfl⟩
  | @step steps calls n w w' s step log r hallows ht _ ih =>
    obtain ⟨m, hleads, hend⟩ := ih hallows
    obtain ⟨output, -, rfl, -⟩ := ht.answers
    have hlength : steps + 1 + log.length = steps + (step :: log).length := by
      rw [List.length_cons]
      omega
    rw [hlength] at hend
    exact ⟨m, .cons hleads, hend⟩

theorem Takes.named {step : Step} (hkeys : ∀ key p b, x.lookup key = some (p, b) → b.name = key)
    (h : x.Takes n w step w') :
    ∃ head b, n.head? = some head ∧ step.name = x.mangle head ∧ x.lookup step.name = some (step.provenance, b) := by
  obtain ⟨provenance, b, output, hc, -, rfl⟩ := h
  obtain ⟨head, hhead, hlookup⟩ := Option.bind_eq_some_iff.mp hc
  have hname : b.name = x.mangle head := hkeys _ _ _ hlookup
  refine ⟨head, b, hhead, hname, ?_⟩
  rw [hname]
  exact hlookup

/-- With a trace to write to, expansion comes to the same and puts its steps at the end of the trace. The steps of one form
lead from it to what it comes to. If it fails they lead to the form to blame, where the limit is reached or a macro gives up
with a message; the other errors are of expansions that this macro asked for. -/
theorem traces_are_derivations {x : Expansion}
    (hx : (∃ t : MacroTable, t.Filled (fun _ ↦ True) ∧ x.lookup = t.lookup) ∨
      ∃ env : MacroEnv, env.Filled (fun _ ↦ True) ∧ x.lookup = env.lookup) (fuel : Nat) (n : Node) (w : World) :
    (∀ trace, (x.macroexpandInto fuel n).run.run (trace, w) =
      (x.macroexpand fuel n w).map fun o ↦ (o.result, (trace.map (· ++ o.log), o.world))) ∧
    (∀ trace, (x.allInto fuel n).run.run (trace, w) =
      (x.all fuel n w).map fun o ↦ (o.result, (trace.map (· ++ o.log), o.world))) ∧
    ∀ r log w', x.macroexpand fuel n w = some ⟨r, log, w'⟩ → ∃ m, Leads n log m ∧
      (∀ step ∈ log, ∃ head b, step.input.head? = some head ∧ step.name = x.mangle head ∧
        x.lookup step.name = some (step.provenance, b)) ∧
      match r with
      | .ok node => node = m
      | .error e => x.limit = some log.length ∧ e = .stepLimit log.length m ∨
          (∃ s text, x.GivesUp m s (.message text) e w' ∧ e.form = m) ∨ ∃ s, x.GivesUp m s (.expansion e) e w' := by
  have hkeys : ∀ key p b, x.lookup key = some (p, b) → b.name = key := by
    intro key p b hb
    rcases hx with ⟨t, ht, hlookup⟩ | ⟨env, henv, hlookup⟩
    · rw [hlookup] at hb
      obtain ⟨b', hb', he⟩ := Option.map_eq_some_iff.mp hb
      obtain ⟨-, rfl⟩ := Prod.mk.inj he
      exact (ht.of_getMangled? hb').1
    · rw [hlookup] at hb
      exact (henv.of_lookup hb).1
  refine ⟨fun trace ↦ adds_macroexpandInto fuel n trace w, fun trace ↦ adds_allInto fuel n trace w, ?_⟩
  intro r log w' h
  obtain ⟨calls, hcourse⟩ := exists_macroexpand_iff.mp ⟨fuel, h⟩
  obtain ⟨m, hleads, hend⟩ := hcourse.leads fun limit _ ↦ Nat.zero_le limit
  rw [Nat.zero_add] at hend
  refine ⟨m, hleads, fun step hstep ↦ ?_, ?_⟩
  · obtain ⟨s, s', ht⟩ := hcourse.takes step hstep
    exact ht.named hkeys
  · rcases hend with rfl | ⟨hlimit, rfl⟩ | ⟨s, why, e, hwhy, rfl⟩
    · rfl
    · exact .inl ⟨hlimit, rfl⟩
    · obtain ⟨provenance, b, hc, hrun, he⟩ := hwhy
      cases why with
      | message text =>
        refine .inr (.inl ⟨s, text, ⟨provenance, b, hc, hrun, he⟩, ?_⟩)
        rw [he]
        rfl
      | expansion e' =>
        obtain rfl : e = e' := he
        exact .inr (.inr ⟨s, provenance, b, hc, hrun, rfl⟩)

def threadedCondition : Node :=
  .form [.symbol "->" .nowhere, .symbol "True" .nowhere,
    .form [.symbol "when" .nowhere, .literal (.int 1) .nowhere] .nowhere] .nowhere

def condition : Node :=
  .form [.symbol "if" .nowhere, .symbol "True" .nowhere, .literal (.int 1) .nowhere, .symbol "None" .nowhere] .nowhere

/-- The core macros take two steps, and a second expansion adds them to the trace once more. -/
theorem trace_of_threadedCondition :
    let w : World := ⟨.new Name.mangle, none⟩
    ((∃ t : MacroTable, t.Filled (fun _ ↦ True) ∧ coreMacros.lookup = t.lookup) ∨
      ∃ env : MacroEnv, env.Filled (fun _ ↦ True) ∧ coreMacros.lookup = env.lookup) ∧
    ∃ log, coreMacros.macroexpand 3 threadedCondition w = some ⟨.ok condition, log, w⟩ ∧ log.length = 2 ∧
      Leads threadedCondition log condition ∧
      (coreMacros.macroexpandInto 3 threadedCondition).run.run (some log, w) =
        some (.ok condition, (some (log ++ log), w)) := by
  intro w
  have hfilled : (MacroEnv.ofModule "__main__").Filled fun _ ↦ True :=
    .new (.new _ _) (Core.filled_table trivial trivial trivial trivial trivial)
  have htables : (∃ t : MacroTable, t.Filled (fun _ ↦ True) ∧ coreMacros.lookup = t.lookup) ∨
      ∃ env : MacroEnv, env.Filled (fun _ ↦ True) ∧ coreMacros.lookup = env.lookup := .inr ⟨_, hfilled, rfl⟩
  obtain ⟨log, h, hlength⟩ : ∃ log, coreMacros.macroexpand 3 threadedCondition w = some ⟨.ok condition, log, w⟩ ∧
      log.length = 2 := ⟨_, rfl, rfl⟩
  obtain ⟨hinto, -, htrace⟩ := traces_are_derivations htables 3 threadedCondition w
  obtain ⟨m, hleads, -, rfl⟩ := htrace _ _ _ h
  refine ⟨htables, log, h, hlength, hleads, ?_⟩
  rw [hinto, h]
  rfl

end Expansion

end MacroLisp
