import MacroLisp.Proofs.Expansion.Leftover

namespace MacroLisp

open Relation (ReflTransGen)
open Template (IsHole IsMark levelIn holes holes_hole holes_mark holes_sequence mem_holesAll)

/-- Code is evaluated, except for what is quoted. Data is what a template is made of, inside `level` quasiquotes. -/
inductive Place
  | code
  | data (level : Nat)

namespace Node

variable {n m k : Node} {level : Nat}

/-- A node is found at a place in `n`. In the data of a template there is nothing special about a form that quotes. -/
inductive FoundAt (n : Node) : Place → Node → Prop
  | root : FoundAt n .code n
  | item {d : Delimiter} {ns : List Node} {s : Span} {m : Node} (h : FoundAt n .code (.sequence d ns s))
      (hquote : (Node.sequence d ns s).head? ≠ some "quote")
      (htemplate : (Node.sequence d ns s).head? ≠ some "quasiquote") (hm : m ∈ ns) : FoundAt n .code m
  | template {k : Node} (h : FoundAt n .code k) (hk : k.head? = some "quasiquote") : FoundAt n (.data 0) k
  | hole {level : Nat} {head : String} {hs s : Span} {m : Node}
      (h : FoundAt n (.data level) (.form [.symbol head hs, m] s)) (hhole : IsHole head level) : FoundAt n .code m
  | mark {level : Nat} {head : String} {hs s : Span} {m : Node}
      (h : FoundAt n (.data level) (.form [.symbol head hs, m] s)) (hmark : ¬IsHole head level) :
      FoundAt n (.data (levelIn head level)) m
  | datum {level : Nat} {d : Delimiter} {ns : List Node} {s : Span} {m : Node}
      (h : FoundAt n (.data level) (.sequence d ns s)) (hmark : ¬IsMark d ns) (hm : m ∈ ns) : FoundAt n (.data level) m

theorem isCallTo_iff {name : String} : n.isCallTo name = true ↔ n.head? = some name := by
  simp [isCallTo]

theorem FoundAt.of_mem_holes (h : n.FoundAt (.data level) k) {hole : Template.Hole} (hhole : hole ∈ holes level k) :
    n.FoundAt .code hole.operand := by
  induction level, k using Template.induct with
  | symbol level name s | literal level value s => cases hhole
  | hole level head hs operand s hhead =>
    rw [holes_hole hhead] at hhole
    obtain rfl := List.mem_singleton.mp hhole
    exact h.hole hhead
  | mark level head hs operand s hhead ih =>
    rw [holes_mark hhead] at hhole
    exact ih (h.mark hhead) hhole
  | sequence level d ns s hmark ih =>
    rw [holes_sequence hmark] at hhole
    obtain ⟨m, hm, hhole⟩ := mem_holesAll.mp hhole
    exact ih m hm (h.datum hmark hm) hhole

theorem FoundAt.of_mem_parts (h : n.FoundAt .code k) (hm : m ∈ k.parts) : n.FoundAt .code m := by
  unfold parts at hm
  split at hm
  · cases hm
  split at hm
  · next htemplate =>
    obtain ⟨hole, hhole, rfl⟩ := List.mem_map.mp hm
    exact (h.template (isCallTo_iff.mp htemplate)).of_mem_holes hhole
  · next hquote htemplate =>
    cases k with
    | sequence d ns s => exact h.item (mt isCallTo_iff.mpr hquote) (mt isCallTo_iff.mpr htemplate) hm
    | symbol name s | literal value s => cases hm

def ReachedAt (n : Node) : Place → Node → Prop
  | .code, m => n.Evaluated m
  | .data level, k => ∀ hole ∈ holes level k, n.Evaluated hole.operand

theorem FoundAt.reachedAt {place : Place} (h : n.FoundAt place m) : n.ReachedAt place m := by
  induction h with
  | root => exact ReflTransGen.refl
  | @item d ns s m _ hquote htemplate hm ih =>
    refine ReflTransGen.tail ih ?_
    rw [parts, if_neg (mt isCallTo_iff.mp hquote), if_neg (mt isCallTo_iff.mp htemplate)]
    exact hm
  | @template k _ hk ih =>
    intro hole hhole
    have hquote : ¬k.isCallTo "quote" = true := by simp [isCallTo, hk]
    refine ReflTransGen.tail ih ?_
    rw [parts, if_neg hquote, if_pos (isCallTo_iff.mpr hk)]
    exact List.mem_map_of_mem hhole
  | hole _ hhole ih => exact ih ⟨_, _⟩ (by rw [holes_hole hhole]; exact List.mem_singleton_self _)
  | mark _ hmark ih => exact fun hole hhole ↦ ih hole (by rwa [holes_mark hmark])
  | datum _ hmark hm ih =>
    exact fun hole hhole ↦ ih hole (by rw [holes_sequence hmark]; exact mem_holesAll.mpr ⟨_, hm, hhole⟩)

theorem foundAt_code_iff : n.FoundAt .code m ↔ n.Evaluated m := by
  refine ⟨FoundAt.reachedAt, fun h ↦ ?_⟩
  induction h with
  | refl => exact .root
  | tail _ hm ih => exact ih.of_mem_parts hm

end Node

namespace Expansion

variable {x : Expansion} {n m r : Node} {w w' : World} {fuel : Nat}

/-- No call in the code of the form is one of a macro. Quoting and templates are left out. -/
def Idle (x : Expansion) (n : Node) : Prop :=
  ∀ m head, n.FoundAt .code m → m.head? = some head → head ≠ "quote" → head ≠ "quasiquote" →
    x.lookup (x.mangle head) = none

theorem Idle.callee?_eq_none (h : x.Idle n) (hquote : x.lookup (x.mangle "quote") = none)
    (htemplate : x.lookup (x.mangle "quasiquote") = none) (hm : n.Evaluated m) : x.callee? m = none := by
  rw [callee?, Option.bind_eq_none_iff]
  intro head hhead
  by_cases hq : head = "quote"
  · rw [hq, hquote]
  by_cases ht : head = "quasiquote"
  · rw [ht, htemplate]
  · exact h m head (Node.foundAt_code_iff.mpr hm) hhead hq ht

theorem all_of_mem_mapM {ns ms : List Node} (h : ns.mapM (x.all fuel) w = some ⟨.ok ms, [], w'⟩) (hm : m ∈ ns) :
    ∃ r s s', x.all fuel m s = some ⟨.ok r, [], s'⟩ := by
  induction ns generalizing ms w with
  | nil => exact absurd hm List.not_mem_nil
  | cons k ns ih =>
    rw [Process.mapM_cons_eq] at h
    obtain ⟨r, log₁, s, log₂, hk, hrest, hlog⟩ := Process.bind_eq_ok h
    obtain ⟨rfl, rfl⟩ := List.append_eq_nil_iff.mp hlog.symm
    obtain ⟨ms, hms, -⟩ := Process.map_eq_ok hrest
    rcases List.mem_cons.mp hm with rfl | hm
    · exact ⟨r, w, s, hk⟩
    · exact ih hms hm

section Forms

variable (hx : ∀ name p b, x.lookup name = some (p, b) → b.expander.AnswersForms)

include hx

theorem head_of_no_log {mode : Mode} {steps : Nat} {e : Expanded}
    (h : x.head fuel mode steps n w = some ⟨.ok e, [], w'⟩) : x.callee? n = none ∧ e = ⟨n, false⟩ := by
  cases fuel with
  | zero => cases h
  | succ fuel =>
    rcases hc : x.callee? n with _ | ⟨provenance, b⟩
    · rw [head_of_callee_none hc] at h
      cases h
      exact ⟨rfl, rfl⟩
    rcases hlimit : x.limit.filter (· ≤ steps) with _ | limit
    · obtain ⟨s, ⟨e, herror⟩ | ⟨m, -, hform⟩⟩ := head_of_answer (fun _ _ ↦ trivial) hx (fun _ _ ↦ trivial) hc hlimit w
      · rw [herror] at h
        cases h
      · rw [hform] at h
        obtain ⟨⟨_, _, _⟩, -, he⟩ := Option.map_eq_some_iff.mp h
        cases he
    · simp only [head_of_callee hc, hlimit] at h
      cases h

theorem callee?_of_no_log (h : x.all fuel n w = some ⟨.ok r, [], w'⟩) (hm : n.Evaluated m) : x.callee? m = none := by
  induction fuel generalizing n w r w' with
  | zero => cases h
  | succ fuel ih =>
    rw [all_succ] at h
    obtain ⟨e, log₁, s, log₂, hhead, hrest, hlog⟩ := Process.bind_eq_ok h
    obtain ⟨rfl, rfl⟩ := List.append_eq_nil_iff.mp hlog.symm
    obtain ⟨ms, hwalk, -⟩ := Process.map_eq_ok hrest
    obtain ⟨hnone, rfl⟩ := head_of_no_log hx hhead
    rcases hm.cases_head with rfl | ⟨k, hk, hkm⟩
    · exact hnone
    · obtain ⟨r, t, t', hr⟩ := all_of_mem_mapM hwalk hk
      exact ih hr hkm

end Forms

/-- If quoting is left to the walk and no call in the code of a form is one of a macro, expansion of the tree gives the
form itself, makes no step and draws no symbol. Template and core macros leave no other trees without a step. -/
theorem all_of_idle (hquote : x.lookup (x.mangle "quote") = none) (htemplate : x.lookup (x.mangle "quasiquote") = none)
    (n : Node) :
    (x.Idle n → ∀ fuel w, sizeOf n + 2 ≤ fuel → x.all fuel n w = some ⟨.ok n, [], w⟩) ∧
    ((∀ name p b, x.lookup name = some (p, b) → AnyTemplateOrCore b.expander) →
      ∀ fuel w r w', x.all fuel n w = some ⟨.ok r, [], w'⟩ → x.Idle n) := by
  constructor
  · intro hidle fuel w hfuel
    obtain ⟨k, rfl⟩ := Nat.exists_eq_add_of_le hfuel
    have hall : x.all (sizeOf n + k + 2) n = pure n :=
      all_of_settled (fun m ↦ hidle.callee?_eq_none hquote htemplate) (Nat.le_add_right ..)
    rw [Nat.add_right_comm, hall]
    rfl
  · intro hx fuel w r w' h m head hm hhead _ _
    have hnone := callee?_of_no_log (fun name p b hb ↦ (hx name p b hb).answersForms) h (Node.foundAt_code_iff.mp hm)
    rwa [callee?, hhead, Option.bind_some] at hnone

/-- `(list (quote (when 1 2)) (quasiquote ((when 1 2) (unquote x) (quasiquote (unquote (when 1 2))))))`. -/
def quotedCalls : Node :=
  .form [.symbol "list" .nowhere, .form [.symbol "quote" .nowhere, callInHole] .nowhere,
    .form [.symbol "quasiquote" .nowhere,
      .form [callInHole, .form [.symbol "unquote" .nowhere, .symbol "x" .nowhere] .nowhere,
        .form [.symbol "quasiquote" .nowhere, .form [.symbol "unquote" .nowhere, callInHole] .nowhere] .nowhere] .nowhere]
      .nowhere] .nowhere

theorem idle_quotedCalls :
    coreMacros.lookup (coreMacros.mangle "quote") = none ∧ coreMacros.lookup (coreMacros.mangle "quasiquote") = none ∧
    coreMacros.Idle quotedCalls ∧ ¬coreMacros.Idle formedTemplate ∧
    ∀ fuel w, sizeOf quotedCalls + 2 ≤ fuel → coreMacros.all fuel quotedCalls w = some ⟨.ok quotedCalls, [], w⟩ := by
  have hquote : coreMacros.lookup (coreMacros.mangle "quote") = none := rfl
  have htemplate : coreMacros.lookup (coreMacros.mangle "quasiquote") = none := rfl
  obtain ⟨hsame, hidle⟩ := all_of_idle hquote htemplate quotedCalls
  have hquoted : coreMacros.Idle quotedCalls :=
    hidle (fun _ _ _ ↦ anyTemplateOrCore_coreMacros) 9 ⟨.new Name.mangle, none⟩ _ _ rfl
  have hhole : formedTemplate.FoundAt .code callInHole :=
    (((Node.FoundAt.root.template rfl).mark (by simp [IsHole])).mark (by simp [IsHole])).hole ⟨.inl rfl, rfl⟩
  refine ⟨hquote, htemplate, hquoted, fun hformed ↦ ?_, hsame hquoted⟩
  have hwhen : (coreMacros.lookup (coreMacros.mangle "when")).isSome = true := rfl
  rw [hformed callInHole "when" hhole rfl (by decide) (by decide)] at hwhen
  cases hwhen

end Expansion

end MacroLisp
