import MacroLisp.Proofs.Expansion.Leftover
import MacroLisp.Proofs.Lowering.Emission

namespace MacroLisp

theorem Host.Expr.WellFormed.isTarget {e place : Host.Expr} (h : e.WellFormed) (hp : e.asTarget? = some place) :
    place.IsTarget := by
  cases h with
  | name id =>
    cases hp
    exact .name id
  | member attr hv =>
    cases hp
    exact .member attr hv
  | _ => cases hp

namespace Lowering

open Host (Expr Stmt Role)

variable {S : Role → String → Prop} {μ : String → String} {e : Expr} {s : Stmt}

theorem IsValue.wellFormed (h : IsValue S μ e) : e.WellFormed := by
  induction h with
  | constant c => exact .constant c
  | load _ => exact .name _
  | temporary k => exact .name _
  | attr _ _ ih => exact .member _ ih
  | binary op _ _ ihl ihr => exact .binary op ihl ihr
  | unary op _ ih => exact .unary op ih
  | boolean op hlen _ ih => exact .boolean op hlen ih
  | compare _ hlen hne _ ihl ih => exact .compare ihl hlen hne ih
  | conditional _ _ _ iht ihb iho => exact .conditional iht ihb iho
  | call _ _ _ _ ihf iha ihk => exact .call ihf iha ihk
  | list _ ih => exact .list ih
  | tuple _ ih => exact .tuple ih
  | dict hlen _ _ ihk ihv => exact .dict hlen ihk ihv

theorem IsStatement.wellFormed (h : IsStatement S μ s) : s.WellFormed := by
  have hassign : ∀ k v, IsValue S μ v → (Stmt.assign [.name (temporary μ k) .store] v).WellFormed :=
    fun k v hv ↦ .assign (.name _) hv.wellFormed
  induction h with
  | expr h => exact .expr h.wellFormed
  | assign he hp hv => exact .assign (he.wellFormed.isTarget hp) hv.wellFormed
  | imports hne _ => exact .imports hne
  | ifElse k ht _ hb _ ho ihbody ihorelse =>
    refine .ifElse (temporary μ k) (NameSupply.isReserved_fresh _ _) (Stmt.lastTarget?_append_assign _ _ _)
      (Stmt.lastTarget?_append_assign _ _ _) ht.wellFormed ?_ ?_
    · exact List.forall_mem_append.mpr ⟨ihbody, List.forall_mem_singleton.mpr (hassign k _ hb)⟩
    · exact List.forall_mem_append.mpr ⟨ihorelse, List.forall_mem_singleton.mpr (hassign k _ ho)⟩

theorem temporary_injective : Function.Injective (temporary Name.mangle) :=
  fun _ _ h ↦ NameSupply.count_eq_of_fresh_eq h

end Lowering

namespace Compiler

open Lowering (Emits)

variable {μ : String → String} {c : Compiler}

theorem keeps {S : Host.Role → String → Prop} {P : Node → Prop}
    (h : ∀ x, c.expansion = some x → ∀ fuel n w e log w', w.names.mangle = μ → P n →
      x.head fuel .value 0 n w = some ⟨.ok e, log, w'⟩ → P e.node) : c.Keeps S P μ := by
  intro fuel n hn
  unfold expand
  split
  · exact .pure hn
  · next x hx =>
    have hhead : Emits S μ (x.head fuel .value 0 n).quietly fun r ↦ ∀ e, r = .ok e → P e.node := by
      intro w r stmts w' hw hp
      obtain ⟨⟨r, log, w'⟩, hrun, ho⟩ := Option.map_eq_some_iff.mp hp
      cases ho
      refine Emits.silent ?_ (x.advances_head fuel .value 0 n w _ hrun)
      rintro e rfl
      exact h x hx fuel n w e log w' hw hn hrun
    refine hhead.bind fun r hr ↦ ?_
    cases r with
    | error e => exact .throw _
    | ok e => exact .pure (hr e rfl)

theorem keepsNames {S : String → Prop} (h : ∀ x, c.expansion = some x → ∀ fuel n w e log w', w.names.mangle = μ →
    n.AllNames S → x.head fuel .value 0 n w = some ⟨.ok e, log, w'⟩ → e.node.AllNames S) : c.KeepsNames S μ :=
  keeps h

/-- Compilation emits well-formed modules only: whatever the macros are and whatever they ask for, and for all forms,
the supply of fresh names mangling as usual. -/
theorem module_wellFormed (c : Compiler) (fuel : ℕ) (withLibrary : Bool) (forms : List Node) {w w' : World}
    {m : Host.Module} {log : List Host.Stmt} (hw : w.names.mangle = Name.mangle)
    (h : c.module fuel withLibrary forms w = some ⟨.ok m, log, w'⟩) : m.WellFormed := by
  have hc : c.KeepsNames (fun _ ↦ True) Name.mangle := keepsNames fun _ _ _ _ _ _ _ _ _ _ _ _ _ ↦ trivial
  obtain ⟨hstmts, ks, htemporaries, hnodup⟩ :=
    emits_module (S := fun _ ↦ True) (fun _ _ ↦ trivial) hc hw (fun _ _ _ _ ↦ trivial) h
  refine ⟨fun s hs ↦ (hstmts s hs).wellFormed, ?_⟩
  rw [htemporaries]
  exact hnodup.map Lowering.temporary_injective

def whenWithBranch : Node :=
  .form [.symbol "when" .nowhere, .symbol "a" .nowhere, .form [.symbol "if" .nowhere, .symbol "b" .nowhere,
    .form [.symbol "setv" .nowhere, .symbol "x.y" .nowhere, .literal (.int 1) .nowhere] .nowhere] .nowhere] .nowhere

/-- One conditional inside another. The inner one gets its name first. -/
theorem module_wellFormed_whenWithBranch :
    let w : World := ⟨.new Name.mangle, none⟩
    w.names.mangle = Name.mangle ∧ ∃ m log w',
      (⟨some Expansion.coreMacros⟩ : Compiler).module 9 true [whenWithBranch] w = some ⟨.ok m, log, w'⟩ ∧
      Host.Stmt.temporariesOfAll m.body = ["_hy_gensym_if_2", "_hy_gensym_if_1"] ∧ m.WellFormed := by
  have hrun : ((⟨some Expansion.coreMacros⟩ : Compiler).module 9 true [whenWithBranch] ⟨.new Name.mangle, none⟩).map
      (fun o ↦ o.result.toOption.map fun m ↦ Host.Stmt.temporariesOfAll m.body) =
        some (some ["_hy_gensym_if_2", "_hy_gensym_if_1"]) := by decide +kernel
  obtain ⟨m, log, w', ho, htemporaries⟩ := Outcome.exists_ok_of_map hrun
  exact ⟨rfl, m, log, w', ho, htemporaries, module_wellFormed _ 9 true [whenWithBranch] rfl ho⟩

end Compiler

end MacroLisp
