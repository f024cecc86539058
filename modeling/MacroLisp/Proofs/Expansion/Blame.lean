import MacroLisp.Proofs.Expansion.Course
import MacroLisp.Proofs.Expansion.Filling
import MacroLisp.Proofs.Expansion.Parts

namespace MacroLisp

open Process (Ends)

def Process.Fails {ω ε α : Type} (Q : ε → Prop) (p : Process ω ε α) : Prop :=
  ∀ w e log w', p w = some ⟨.error e, log, w'⟩ → Q e

namespace Process.Fails

variable {ω ε α β : Type} {Q : ε → Prop} {p : Process ω ε α}

theorem pure (a : α) : Fails Q (Pure.pure a : Process ω ε α) := by
  intro w e log w' h
  cases h

theorem throw {e : ε} (h : Q e) : Fails Q (.throw e : Process ω ε α) := by
  intro w e' log w' he
  cases he
  exact h

theorem unfinished : Fails Q (.unfinished : Process ω ε α) := by
  intro w e log w' h
  cases h

theorem record (entry : ω) : Fails Q (.record entry : Process ω ε Unit) := by
  intro w e log w' h
  cases h

theorem gensym (hint : String) : Fails Q (.gensym hint : Process ω ε Node) := by
  intro w e log w' h
  rw [gensym_apply] at h
  cases h

theorem resolve (query : Query) : Fails Q (.resolve query : Process ω ε _) := by
  intro w e log w' h
  unfold Process.resolve at h
  split at h <;> cases h

theorem bind (h : Fails Q p) {f : α → Process ω ε β} (hf : ∀ a, Fails Q (f a)) : Fails Q (p >>= f) := by
  intro w e log w' ho
  rcases bind_eq_some.mp ho with ⟨e', log', s, hp, he⟩ | ⟨a, log', s, ⟨r, log'', s'⟩, hp, ho', he⟩
  · cases he
    exact h _ _ _ _ hp
  · cases he
    exact hf a _ _ _ _ ho'

theorem map (h : Fails Q p) (f : α → β) : Fails Q (f <$> p) := by
  rw [map_eq_pure_bind]
  exact h.bind fun a ↦ .pure (f a)

theorem mapM {f : α → Process ω ε β} (as : List α) (h : ∀ a, Fails Q (f a)) : Fails Q (as.mapM f) := by
  induction as with
  | nil => exact .pure []
  | cons a as ih =>
    rw [List.mapM_cons]
    exact (h a).bind fun b ↦ ih.bind fun bs ↦ .pure (b :: bs)

end Process.Fails

namespace Action

variable {α β : Type} {given : Set ExpansionError}

/-- The action fails with messages of its own and with errors that it has been given, be it by then or in answer to a
question for an expansion. -/
def PassesOn : Set ExpansionError → Action α → Prop
  | _, done _ => True
  | _, fail (.message _) => True
  | given, fail (.expansion e) => e ∈ given
  | given, fresh _ next => ∀ n, (next n).PassesOn given
  | given, expand _ _ next => (∀ n, (next (.ok n)).PassesOn given) ∧ ∀ e, (next (.error e)).PassesOn (insert e given)
  | given, resolve _ next => ∀ r, (next r).PassesOn given

theorem passesOn_refuse (text : String) : (refuse text : Action α).PassesOn given := trivial

theorem passesOn_expand (once : Bool) (form : Node) : (expand once form ofExcept).PassesOn given :=
  ⟨fun _ ↦ trivial, fun e ↦ Set.mem_insert e given⟩

theorem PassesOn.bind {a : Action α} {f : α → Action β} (h : a.PassesOn given)
    (hf : ∀ v given', given ⊆ given' → (f v).PassesOn given') : (a >>= f).PassesOn given := by
  induction a generalizing given with
  | done v => exact hf v given subset_rfl
  | fail why => cases why <;> exact h
  | fresh hint next ih => exact fun n ↦ ih n (h n) hf
  | expand once form next ih =>
    refine ⟨fun n ↦ ih _ (h.1 n) hf, fun e ↦ ih _ (h.2 e) fun v given' hsub ↦ hf v given' ?_⟩
    exact (Set.subset_insert e given).trans hsub
  | resolve query next ih => exact fun r ↦ ih r (h r) hf

theorem PassesOn.fails_run {ω : Type} {Q : ExpansionError → Prop} {nested : Bool → Node → Process ω ExpansionError Node}
    (hnested : ∀ once form, (nested once form).Fails Q) {a : Action α} (h : a.PassesOn given)
    (hgiven : ∀ e ∈ given, Q e) : (a.run nested).Fails fun why ↦ ∀ e, why = .expansion e → Q e := by
  induction a generalizing given with
  | done v => exact .pure v
  | fail why =>
    refine .throw fun e he ↦ ?_
    subst he
    exact hgiven e h
  | fresh hint next ih => exact (Process.Fails.gensym hint).bind fun n ↦ ih n (h n) hgiven
  | expand once form next ih =>
    intro w why log w' hrun
    rcases Process.bind_eq_some.mp hrun with ⟨why', log', s, hnone, -⟩ | ⟨r, log', s, ⟨r', log'', s'⟩, hr, hnext, ho⟩
    · obtain ⟨o, -, he⟩ := Option.map_eq_some_iff.mp hnone
      cases he
    · cases ho
      obtain ⟨⟨r, log, s⟩, hform, ho⟩ := Option.map_eq_some_iff.mp hr
      cases ho
      cases r with
      | ok n => exact ih (.ok n) (h.1 n) hgiven _ _ _ _ hnext
      | error e =>
        have he : Q e := hnested once form _ _ _ _ hform
        exact ih (.error e) (h.2 e) (Set.forall_mem_insert.mpr ⟨he, hgiven⟩) _ _ _ _ hnext
  | resolve query next ih => exact (Process.Fails.resolve query).bind fun r ↦ ih r (h r) hgiven

end Action

def Expander.PassesOn (e : Expander) : Prop := ∀ call, (e call).PassesOn ∅

namespace Template

open MacroLisp.Action (passesOn_refuse)

variable {scope : Scope} {given : Set ExpansionError} {n : Node} {ns : List Node} {d : Delimiter} {s : Span}

theorem passesOn_bindFresh (scope : Scope) (names : List Node) : (bindFresh scope names).PassesOn given := by
  induction names generalizing scope with
  | nil => trivial
  | cons n names ih =>
    cases n with
    | symbol name s => exact fun fresh ↦ ih _
    | literal value s => exact passesOn_refuse _
    | sequence d items s => exact passesOn_refuse _

theorem passesOn_splice (n : Node) : (splice n).PassesOn given := by
  cases n with
  | symbol name s => exact passesOn_refuse _
  | literal value s => exact passesOn_refuse _
  | sequence d items s => trivial

def EvalPassesOn (n : Node) : Prop := ∀ scope given, (eval scope n).PassesOn given

def FillPassesOn (n : Node) : Prop := ∀ scope level given, (fill scope level n).PassesOn given

theorem evalPassesOn_symbol (name : String) (s : Span) : EvalPassesOn (.symbol name s) := by
  intro scope given
  rw [eval]
  split
  · trivial
  · exact passesOn_refuse _

theorem evalPassesOn_sequence (he : ∀ n ∈ ns, EvalPassesOn n) (hf : ∀ n ∈ ns, FillPassesOn n) :
    EvalPassesOn (.sequence d ns s) := by
  intro scope given
  unfold eval
  split
  · next h => cases h
  · trivial
  · next h =>
    cases h
    exact hf _ (by simp) scope 1 given
  · next names body _ h =>
    cases h
    split
    · exact (passesOn_bindFresh scope _).bind fun scope' given' _ ↦ he body (by simp) scope' given'
    · exact passesOn_refuse _
  · exact passesOn_refuse _
  · trivial

theorem passesOn_fillItems (hf : ∀ n ∈ ns, FillPassesOn n) (he : ∀ n ∈ ns, ∀ m ∈ n.items?.getD [], EvalPassesOn m)
    (scope : Scope) (level : Nat) (given : Set ExpansionError) : (fillItems scope level ns).PassesOn given := by
  induction ns generalizing given with
  | nil =>
    unfold fillItems
    trivial
  | cons n ns ih =>
    obtain ⟨hfn, hfns⟩ := List.forall_mem_cons.mp hf
    obtain ⟨hen, hens⟩ := List.forall_mem_cons.mp he
    unfold fillItems
    split
    · next h => cases h
    · exact passesOn_refuse _
    · next h =>
      cases h
      refine (hen _ (List.mem_cons_of_mem _ (List.mem_cons_self ..)) scope given).bind fun m given₁ _ ↦ ?_
      refine (passesOn_splice m).bind fun items given₂ _ ↦ ?_
      refine (ih hfns hens given₂).bind fun ms given₃ _ ↦ ?_
      trivial
    · next h =>
      cases h
      refine (hfn scope _ given).bind fun m given₁ _ ↦ ?_
      refine (ih hfns hens given₁).bind fun ms given₂ _ ↦ ?_
      trivial

theorem fillPassesOn_sequence (hf : ∀ n ∈ ns, FillPassesOn n) (he : ∀ n ∈ ns, EvalPassesOn n)
    (hitems : ∀ n ∈ ns, ∀ m ∈ n.items?.getD [], EvalPassesOn m) : FillPassesOn (.sequence d ns s) := by
  intro scope level given
  have hmark : ∀ head hs operand level', ns = [.symbol head hs, operand] →
      (do return Node.form [.symbol head hs, ← fill scope level' operand] s : Action Node).PassesOn given := by
    rintro head hs operand level' rfl
    exact (hf operand (by simp) scope level' given).bind fun m given' _ ↦ trivial
  unfold fill
  split
  · split
    · exact he _ (by simp) scope given
    · exact hmark _ _ _ _ rfl
  · split
    · exact passesOn_refuse _
    · exact hmark _ _ _ _ rfl
  · exact hmark _ _ _ _ rfl
  · exact (passesOn_fillItems hf hitems scope level given).bind fun ms given' _ ↦ trivial

theorem evalPassesOn (n : Node) : EvalPassesOn n := by
  refine (induct_eval_fill (F := FillPassesOn) evalPassesOn_symbol (fun value s scope given ↦ ?_)
    (fun n hn scope level given ↦ ?_) (fun _ _ _ ↦ evalPassesOn_sequence) (fun _ _ _ ↦ fillPassesOn_sequence) n).1
  · unfold eval
    trivial
  · rw [fill_of_leaf hn]
    trivial

theorem passesOn (t : Template) : Expander.PassesOn t.expander := by
  intro call
  unfold expander
  split
  · exact (evalPassesOn t.body _ ∅).bind fun m given _ ↦ trivial
  · exact passesOn_refuse _

end Template

namespace Core

open MacroLisp.Action (passesOn_refuse)

theorem passesOn_atLeastOne (name : String) (call : MacroCall) (given : Set ExpansionError) :
    (atLeastOne name call).PassesOn given := by
  unfold atLeastOne
  split
  · trivial
  · exact passesOn_refuse _

theorem passesOn_freshNames (renames : List (String × Node)) (names : List Node) (given : Set ExpansionError) :
    (freshNames renames names).PassesOn given := by
  induction names generalizing renames with
  | nil => trivial
  | cons n names ih =>
    cases n with
    | symbol name s => exact fun fresh ↦ ih _
    | literal value s => exact passesOn_refuse _
    | sequence d items s => exact passesOn_refuse _

theorem passesOn_withGensyms : Expander.PassesOn expandWithGensyms := by
  intro call
  refine (passesOn_atLeastOne _ call ∅).bind fun p given _ ↦ ?_
  dsimp only
  split
  · exact (passesOn_freshNames [] _ given).bind fun renames given' _ ↦ trivial
  · exact passesOn_refuse _

theorem passesOn_thread (name : String) (thread : Node → Node → Node) : (expandThread name thread).PassesOn :=
  fun call ↦ (passesOn_atLeastOne name call ∅).bind fun _ _ _ ↦ trivial

end Core

/-- What may be put into a table: template macros, and other macros that pass errors on. -/
inductive Expander.Honest : Expander → Prop
  | template (t : Template) : Honest t.expander
  | native {e : Expander} (h : e.PassesOn) : Honest e

theorem Expander.Honest.passesOn {e : Expander} (h : e.Honest) : e.PassesOn := by
  cases h with
  | template t => exact t.passesOn
  | native h => exact h

theorem Core.filled_honest : Core.table.Filled Expander.Honest :=
  Core.filled_table (.native fun call ↦ (passesOn_atLeastOne _ call ∅).bind fun _ _ _ ↦ trivial)
    (.native fun call ↦ (passesOn_atLeastOne _ call ∅).bind fun _ _ _ ↦ trivial)
    (.native (passesOn_thread _ _)) (.native (passesOn_thread _ _)) (.native passesOn_withGensyms)

namespace Expansion

variable (x : Expansion)

/-- The error is about a macro call. If a macro failed, it is the one that is called, and it gave up with the message; if
the limit was reached, it is that of the expansion. -/
def Blames (e : ExpansionError) : Prop :=
  ∃ head provenance b, e.form.head? = some head ∧ x.lookup (x.mangle head) = some (provenance, b) ∧
    match e with
    | .macroFailed name form text => name = x.mangle head ∧ ∃ s s', x.GivesUp form s (.message text) e s'
    | .stepLimit limit _ => x.limit = some limit

variable {x} {n : Node} {w w' : World} {e : ExpansionError}

section Honest

variable (hx : ∀ key p b, x.lookup key = some (p, b) → b.name = key ∧ b.expander.Honest)

include hx

theorem fails_invoke {provenance : Provenance} {b : MacroBinding} {fuel : Nat}
    (hnested : ∀ once form, (x.nested fuel once form).Fails x.Blames) (hc : x.callee? n = some (provenance, b)) :
    (invoke (x.nested fuel) b n).Fails x.Blames := by
  intro w e log w' h
  obtain ⟨⟨r, log', s⟩, hrun, ho⟩ := Option.map_eq_some_iff.mp h
  obtain ⟨head, hhead, hlookup⟩ := Option.bind_eq_some_iff.mp hc
  obtain ⟨hname, hhonest⟩ := hx _ _ _ hlookup
  cases r with
  | ok out => cases ho
  | error why =>
    cases ho
    cases why with
    | message text =>
      exact ⟨head, provenance, b, hhead, hlookup, hname, w, s, provenance, b, hc, ⟨fuel, _, hrun⟩, rfl⟩
    | expansion e =>
      have hfails := (hhonest.passesOn ⟨b.module, n, (n.form?.getD []).drop 1⟩).fails_run hnested fun e he ↦
        absurd he (Set.notMem_empty e)
      exact hfails _ _ _ _ hrun e rfl

theorem fails_head (fuel : Nat) (mode : Mode) (steps : Nat) (n : Node) : (x.head fuel mode steps n).Fails x.Blames := by
  induction fuel generalizing mode steps n with
  | zero => exact .unfinished
  | succ fuel ih =>
    rcases hc : x.callee? n with _ | ⟨provenance, b⟩
    · rw [head_of_callee_none hc]
      exact .pure _
    · rw [head_of_callee hc]
      rcases hlimit : x.limit.filter (· ≤ steps) with _ | limit
      · refine (fails_invoke hx (fun once form ↦ (ih _ 0 form).map _) hc).bind fun out ↦ ?_
        cases out with
        | verbatim value =>
          unfold proceed
          dsimp only
          split <;> exact .pure _
        | form output =>
          refine (Process.Fails.record _).bind fun _ ↦ ?_
          split
          · exact .pure _
          · exact ih _ _ _
      · obtain ⟨head, hhead, hlookup⟩ := Option.bind_eq_some_iff.mp hc
        obtain ⟨hsome, -⟩ := Option.filter_eq_some_iff.mp hlimit
        exact .throw ⟨head, provenance, b, hhead, hlookup, hsome⟩

theorem fails_all (fuel : Nat) (n : Node) : (x.all fuel n).Fails x.Blames := by
  induction fuel generalizing n with
  | zero => exact .unfinished
  | succ fuel ih =>
    rw [all_succ]
    exact (fails_head hx fuel .value 0 n).bind fun e ↦ (Process.Fails.mapM e.parts ih).map e.rebuild

end Honest

/-- Where an environment has been filled with template macros and with macros that pass errors on, an expansion that fails
blames a call that the environment resolves to a macro: the macro that is reported, which gave up on that call with the
reported message, or the one before which the limit of the expansion was reached. -/
theorem errors_blame_calls {env : MacroEnv} (henv : env.Filled Expander.Honest) (mangle : String → String)
    (limit : Option Nat) (n : Node) (w w' : World) (e : ExpansionError) :
    let x : Expansion := ⟨env.lookup, mangle, limit⟩
    Ends (x.macroexpand · n) w (.error e) w' ∨ Ends (x.macroexpandOnce · n) w (.error e) w' ∨
      Ends (x.all · n) w (.error e) w' →
    ∃ head provenance b, e.form.head? = some head ∧ env.lookup (mangle head) = some (provenance, b) ∧
      match e with
      | .macroFailed name form text => name = mangle head ∧ ∃ s s', x.GivesUp form s (.message text) e s'
      | .stepLimit l _ => limit = some l := by
  intro x h
  have hx : ∀ key p b, x.lookup key = some (p, b) → b.name = key ∧ b.expander.Honest := fun _ _ _ hb ↦ henv.of_lookup hb
  rcases h with ⟨fuel, log, h⟩ | ⟨fuel, log, h⟩ | ⟨fuel, log, h⟩
  · exact ((fails_head hx fuel .full 0 n).map Expanded.node) _ _ _ _ h
  · exact ((fails_head hx fuel .single 0 n).map Expanded.node) _ _ _ _ h
  · exact fails_all hx fuel n _ _ _ _ h

def refusingTable : MacroTable := (MacroTable.new "lib" Name.mangle).install "boom" (fun _ ↦ .refuse "kaboom") none

/-- `(lib.boom)`. -/
def refusedCall : Node := .form [.symbol "lib.boom" .nowhere] .nowhere

def expandRefused : Expander := fun _ ↦ do return .form (← .macroexpand refusedCall)

def callOuter : Template where
  params := ⟨[], none⟩
  body := .form [.symbol "quasiquote" .nowhere, .form [.symbol "outer" .nowhere] .nowhere] .nowhere
  doc := none

/-- A module with `start`, which requires `boom` under a qualified name and defines `outer` in a scope. -/
def requiringEnv : MacroEnv :=
  let table := (MacroTable.new "__main__" Name.mangle).installTemplate "start" callOuter
  let env := ((MacroEnv.new table Core.table).require refusingTable .all (some "lib")).2
  env.pushScope.installLocal "outer" expandRefused

def requiringMacros : Expansion := ⟨requiringEnv.lookup, Name.mangle, none⟩

def startCall : Node := .form [.symbol "start" .nowhere] .nowhere

theorem filled_requiringEnv : requiringEnv.Filled Expander.Honest := by
  have hboom : refusingTable.Filled Expander.Honest :=
    (MacroTable.Filled.new _ _).install "boom" (.native fun _ ↦ Action.passesOn_refuse "kaboom") none
  have hstart : ((MacroTable.new "__main__" Name.mangle).installTemplate "start" callOuter).Filled Expander.Honest :=
    (MacroTable.Filled.new _ _).installTemplate "start" (.template callOuter)
  have hmain : (MacroEnv.new _ Core.table).Filled Expander.Honest := .new hstart Core.filled_honest
  refine ((hmain.require hboom .all (some "lib")).pushScope).installLocal "outer" (.native fun _ ↦ ?_)
  exact (Action.passesOn_expand false refusedCall).bind fun m given _ ↦ trivial

/-- The expansion of `(start)` comes to `(outer)` and fails there, and it is `(lib.boom)` that gave up. -/
theorem requiringMacros_blames_refusedCall :
    let w : World := ⟨.new Name.mangle, none⟩
    let e : ExpansionError := .macroFailed (Name.mangle "lib.boom") refusedCall "kaboom"
    requiringEnv.Filled Expander.Honest ∧ Ends (requiringMacros.all · startCall) w (.error e) w ∧
      (requiringEnv.lookup (Name.mangle "lib.boom")).isSome ∧
      ∃ s s', requiringMacros.GivesUp refusedCall s (.message "kaboom") e s' := by
  intro w e
  have h : Ends (requiringMacros.all · startCall) w (.error e) w := ⟨4, _, rfl⟩
  obtain ⟨head, provenance, b, hhead, hlookup, -, hgives⟩ :=
    errors_blame_calls filled_requiringEnv Name.mangle none startCall w w e (.inr (.inr h))
  obtain rfl : "lib.boom" = head := Option.some.inj hhead
  exact ⟨filled_requiringEnv, h, Option.isSome_of_eq_some hlookup, hgives⟩

end Expansion

end MacroLisp
