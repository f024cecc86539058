import MacroLisp.Proofs.Expansion.Descent

namespace MacroLisp

open Process (Ends Steady)
open Relation (ReflTransGen)

namespace Node

variable {n : Node} {ms : List Node}

theorem head?_rebuild (h : n.head? ≠ none)
    (hms : ∀ name s rest, n.parts = .symbol name s :: rest → ∃ ms', ms = .symbol name s :: ms') :
    (n.rebuild ms).head? = n.head? := by
  unfold rebuild
  split
  · rfl
  split
  · exact Template.head?_refill 0 n ms
  · next hquote htemplate =>
    unfold parts at hms
    rw [if_neg hquote, if_neg htemplate] at hms
    unfold head? at h
    split at h
    · next name s rest s' =>
      obtain ⟨ms', rfl⟩ := hms name s rest rfl
      rfl
    · exact absurd rfl h

theorem parts_rebuild_subset (h : n.head? = none) :
    (n.rebuild ms).isCallTo "quasiquote" = true ∨ (n.rebuild ms).parts ⊆ ms := by
  by_cases htemplate : (n.rebuild ms).isCallTo "quasiquote" = true
  · exact .inl htemplate
  refine .inr fun m hm ↦ ?_
  rw [parts, if_neg htemplate] at hm
  split at hm
  · cases hm
  have hcall : ∀ name, ¬n.isCallTo name = true := fun name ↦ by simp [isCallTo, h]
  rw [rebuild, if_neg (hcall "quote"), if_neg (hcall "quasiquote")] at hm
  cases n with
  | sequence d ns s => exact hm
  | symbol name s => cases hm
  | literal value s => cases hm

end Node

namespace Expansion

variable {x : Expansion} {n m r : Node} {w w' s : World} {fuel : Nat} {log : List Step}

/-- The expansion of the tree makes a call out of the parts of a form that was none. -/
def Forms (x : Expansion) (n : Node) (w : World) (q : Node) : Prop :=
  ∃ p t e s s', ReflTransGen x.Descends (n, w) (p, t) ∧ Ends (x.head · .value 0 p) t (.ok e) s ∧
    Ends (x.all · p) t (.ok q) s' ∧ e.node.head? = none ∧ q.head? ≠ none

/-- What may be left to expand: a call that was formed, or one in a template that was formed. -/
def Leaves (x : Expansion) (n : Node) (w : World) (m : Node) : Prop :=
  x.Forms n w m ∨ ∃ q, x.Forms n w q ∧ q.isCallTo "quasiquote" = true ∧ q.Evaluated m

theorem Forms.of_descends {p : Node} {t : World} (hd : x.Descends (n, w) (p, t)) (h : x.Forms p t m) :
    x.Forms n w m := by
  obtain ⟨k, u, e, s, s', hsteps, hrest⟩ := h
  exact ⟨k, u, e, s, s', .head hd hsteps, hrest⟩

theorem Leaves.of_descends {p : Node} {t : World} (hd : x.Descends (n, w) (p, t)) (h : x.Leaves p t m) :
    x.Leaves n w m :=
  h.imp (Forms.of_descends hd) fun ⟨q, hq, hrest⟩ ↦ ⟨q, .of_descends hd hq, hrest⟩

theorem callee?_congr (h : n.head? = m.head?) : x.callee? n = x.callee? m := by
  rw [callee?, callee?, h]

theorem all_symbol {name : String} {span : Span} (h : x.all fuel (.symbol name span) w = some ⟨.ok r, log, w'⟩) :
    r = .symbol name span := by
  have hsettled : ∀ m, (Node.symbol name span).Evaluated m → x.callee? m = none := by
    intro m hm
    rcases hm.cases_head with rfl | ⟨k, hk, -⟩
    · rfl
    · cases hk
  have hall := congrFun (all_of_settled hsettled le_rfl) w
  exact Except.ok.inj (Ends.unique (all_steady _) ⟨fuel, log, h⟩ ⟨_, _, hall⟩).1

theorem mapM_all_symbol {name : String} {span : Span} {ns ms : List Node}
    (h : (.symbol name span :: ns).mapM (x.all fuel) w = some ⟨.ok ms, log, w'⟩) :
    ∃ ms', ms = .symbol name span :: ms' := by
  obtain ⟨m, log₁, t, ms', log₂, hm, -, rfl⟩ := Process.mapM_cons_eq_ok h
  obtain rfl := all_symbol hm
  exact ⟨ms', rfl⟩

section Settled

variable (hx : ∀ name p b, x.lookup name = some (p, b) → b.expander.AnswersForms)

include hx

theorem leaves_of_all (h : x.all fuel n w = some ⟨.ok r, log, w'⟩) (hm : r.Evaluated m) (hcall : x.callee? m ≠ none) :
    x.Leaves n w m := by
  induction fuel generalizing n w r log w' with
  | zero => cases h
  | succ fuel ih =>
    have hall := h
    rw [all_succ] at h
    obtain ⟨e, log₁, s, log₂, hhead, hrest, -⟩ := Process.bind_eq_ok h
    obtain ⟨ms, hwalk, rfl⟩ := Process.map_eq_ok hrest
    obtain ⟨hverbatim, hsettled⟩ := head_settled hx hhead
    obtain ⟨p, verbatim⟩ := e
    obtain rfl : verbatim = false := hverbatim
    change p.parts.mapM (x.all fuel) s = _ at hwalk
    obtain ⟨hlength, hparts⟩ := Process.exists_of_mem_mapM hwalk
    have hpart : ∀ k ∈ ms, k.Evaluated m → x.Leaves n w m := by
      intro k hk hkm
      obtain ⟨before, a, after, cs, log₃, t, log₄, t', hsplit, hbefore, ha⟩ := hparts k hk
      exact (ih ha hkm).of_descends ⟨⟨p, false⟩, s, before, after, cs, ⟨fuel, log₁, hhead⟩, hsplit, fuel, log₃, hbefore⟩
    change (p.rebuild ms).Evaluated m at hm
    by_cases hsame : (p.rebuild ms).head? = p.head?
    · rcases hm.cases_head with rfl | ⟨k, hk, hkm⟩
      · exact absurd ((callee?_congr hsame).trans hsettled) hcall
      · rw [Node.parts_rebuild hlength hsame] at hk
        exact hpart k hk hkm
    · have hp : p.head? = none := by
        by_contra hp
        exact hsame (Node.head?_rebuild hp fun name span rest hrest ↦ mapM_all_symbol (hrest ▸ hwalk))
      have hforms : x.Forms n w (p.rebuild ms) := ⟨n, w, ⟨p, false⟩, s, w', .refl, ⟨fuel, log₁, hhead⟩,
        ⟨fuel + 1, _, hall⟩, hp, fun hr ↦ hsame (hr.trans hp.symm)⟩
      rcases hm.cases_head with rfl | ⟨k, hk, hkm⟩
      · exact .inl hforms
      · rcases Node.parts_rebuild_subset hp with htemplate | hsubset
        · exact .inr ⟨_, hforms, htemplate, .head hk hkm⟩
        · exact hpart k (hsubset hk) hkm

end Settled

/-- Expansion of a tree leaves a macro call at an evaluated position only if it formed the call, or a template in which
the call stands, out of the parts of a form that was no call. If it forms no such calls, a second expansion leaves the
tree as it is. -/
theorem all_leaves_only_formed_calls (hx : ∀ name p b, x.lookup name = some (p, b) → AnyTemplateOrCore b.expander)
    (h : Ends (x.all · n) w (.ok r) w') :
    (∀ m, r.Evaluated m → x.callee? m ≠ none →
      x.Forms n w m ∨ ∃ q, x.Forms n w q ∧ q.isCallTo "quasiquote" = true ∧ q.Evaluated m) ∧
    ((∀ q, x.Forms n w q → x.callee? q = none ∧ q.isCallTo "quasiquote" = false) →
      ∀ s, Ends (x.all · r) s (.ok r) s) := by
  obtain ⟨fuel, log, h⟩ := h
  have hleaves : ∀ m, r.Evaluated m → x.callee? m ≠ none → x.Leaves n w m :=
    fun m ↦ leaves_of_all (fun name p b hb ↦ (hx name p b hb).answersForms) h
  refine ⟨hleaves, fun hnone s ↦ ?_⟩
  have hsettled : ∀ m, r.Evaluated m → x.callee? m = none := by
    intro m hm
    by_contra hcall
    rcases hleaves m hm hcall with hforms | ⟨q, hforms, htemplate, -⟩
    · exact hcall (hnone m hforms).1
    · rw [(hnone q hforms).2] at htemplate
      cases htemplate
  exact ⟨sizeOf r + 2, [], congrFun (all_of_settled hsettled le_rfl) s⟩

def coreMacros : Expansion where
  lookup := (MacroEnv.ofModule "__main__").lookup
  mangle := Name.mangle
  limit := none

theorem anyTemplateOrCore_coreMacros {name : String} {p : Provenance} {b : MacroBinding}
    (h : coreMacros.lookup name = some (p, b)) : AnyTemplateOrCore b.expander := by
  have hnone : (MacroTable.new "__main__" Name.mangle).getMangled? name = none := by
    simp [MacroTable.new, MacroTable.getMangled?]
  simp only [coreMacros, MacroEnv.ofModule, MacroEnv.new, MacroEnv.lookup, List.findSome?_nil, hnone] at h
  obtain ⟨b', hb, he⟩ := Option.map_eq_some_iff.mp h
  cases he
  exact .core hb

def threadedHead : Node :=
  .form [.form [.symbol "->" .nowhere, .symbol "when" .nowhere] .nowhere, .symbol "True" .nowhere,
    .literal (.int 1) .nowhere] .nowhere

def formedCall : Node :=
  .form [.symbol "when" .nowhere, .symbol "True" .nowhere, .literal (.int 1) .nowhere] .nowhere

def callInHole : Node :=
  .form [.symbol "when" .nowhere, .literal (.int 1) .nowhere, .literal (.int 2) .nowhere] .nowhere

/-- `((-> quasiquote) (quote (unquote (when 1 2))))`. -/
def threadedTemplate : Node :=
  .form [.form [.symbol "->" .nowhere, .symbol "quasiquote" .nowhere] .nowhere,
    .form [.symbol "quote" .nowhere, .form [.symbol "unquote" .nowhere, callInHole] .nowhere] .nowhere] .nowhere

def formedTemplate : Node :=
  .form [.symbol "quasiquote" .nowhere,
    .form [.symbol "quote" .nowhere, .form [.symbol "unquote" .nowhere, callInHole] .nowhere] .nowhere] .nowhere

/-- The core macros leave a call that is formed, and a call in a template that is formed. -/
theorem formed_calls_left_by_coreMacros :
    let w : World := ⟨.new Name.mangle, none⟩
    (∀ name p b, coreMacros.lookup name = some (p, b) → AnyTemplateOrCore b.expander) ∧
    coreMacros.lookup "quote" = none ∧ coreMacros.lookup "quasiquote" = none ∧
    (Ends (coreMacros.all · threadedHead) w (.ok formedCall) w ∧ coreMacros.callee? formedCall ≠ none ∧
      ¬Ends (coreMacros.all · formedCall) w (.ok formedCall) w) ∧
    Ends (coreMacros.all · threadedTemplate) w (.ok formedTemplate) w ∧ formedTemplate.Evaluated callInHole ∧
      coreMacros.callee? callInHole ≠ none := by
  intro w
  have hcallee : (coreMacros.callee? formedCall).isSome = true := rfl
  have hhole : (coreMacros.callee? callInHole).isSome = true := rfl
  have hagain : Ends (coreMacros.all · formedCall) w (.ok (.form [.symbol "if" .nowhere, .symbol "True" .nowhere,
      .literal (.int 1) .nowhere, .symbol "None" .nowhere] .nowhere)) w := ⟨9, _, rfl⟩
  refine ⟨fun _ _ _ ↦ anyTemplateOrCore_coreMacros, rfl, rfl,
    ⟨⟨9, _, rfl⟩, Option.isSome_iff_ne_none.mp hcallee, fun hends ↦ ?_⟩,
    ⟨9, _, rfl⟩, .single (List.mem_singleton_self callInHole), Option.isSome_iff_ne_none.mp hhole⟩
  have hsame := congrArg Node.head? (Except.ok.inj (hends.unique (all_steady formedCall) hagain).1)
  simp [formedCall, Node.form, Node.head?] at hsame

theorem only_formed_call_left_by_coreMacros :
    let w : World := ⟨.new Name.mangle, none⟩
    Ends (coreMacros.all · threadedHead) w (.ok formedCall) w ∧
    (∀ m, formedCall.Evaluated m → coreMacros.callee? m ≠ none → coreMacros.Forms threadedHead w m ∨
      ∃ q, coreMacros.Forms threadedHead w q ∧ q.isCallTo "quasiquote" = true ∧ q.Evaluated m) ∧
    ((∀ q, coreMacros.Forms threadedHead w q → coreMacros.callee? q = none ∧ q.isCallTo "quasiquote" = false) →
      ∀ s, Ends (coreMacros.all · formedCall) s (.ok formedCall) s) := by
  intro w
  have hends : Ends (coreMacros.all · threadedHead) w (.ok formedCall) w := ⟨9, _, rfl⟩
  exact ⟨hends, all_leaves_only_formed_calls (fun _ _ _ ↦ anyTemplateOrCore_coreMacros) hends⟩

end Expansion

end MacroLisp
