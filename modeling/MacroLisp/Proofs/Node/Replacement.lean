import MacroLisp.Proofs.Node.Bare
import MacroLisp.Proofs.Node.Subnodes

namespace MacroLisp.Node

variable {σ : List (String × Node)} {n : Node}

mutual

/-- The node with trees in place of the symbols that have one. -/
def replace (σ : List (String × Node)) : Node → Node
  | symbol name s => (σ.lookup name).getD (symbol name s)
  | literal value s => literal value s
  | sequence d items s => sequence d (replaceAll σ items) s

def replaceAll (σ : List (String × Node)) : List Node → List Node
  | [] => []
  | n :: ns => replace σ n :: replaceAll σ ns

end

@[simp] theorem replaceAll_eq_map (σ : List (String × Node)) (ns : List Node) : replaceAll σ ns = ns.map (replace σ) := by
  induction ns with
  | nil => rfl
  | cons n ns ih => simp [replaceAll, ih]

@[simp] theorem replace_sequence (σ : List (String × Node)) (d : Delimiter) (ns : List Node) (s : Span) :
    (sequence d ns s).replace σ = sequence d (ns.map (replace σ)) s := by
  rw [replace, replaceAll_eq_map]

@[simp] theorem replace_form (σ : List (String × Node)) (ns : List Node) (s : Span) :
    (form ns s).replace σ = form (ns.map (replace σ)) s := replace_sequence σ .paren ns s

theorem replace_eq_self (h : n.AllNames fun name ↦ σ.lookup name = none) : n.replace σ = n := by
  induction n using Node.induct with
  | symbol name s => rw [replace, allNames_symbol.mp h, Option.getD_none]
  | literal value s => rfl
  | sequence d ns s ih =>
    have hns : ns.map (replace σ) = ns.map id :=
      List.map_congr_left fun n hn ↦ ih n hn (allNames_sequence.mp h n hn)
    rw [replace_sequence, hns, List.map_id]

theorem map_replace_symbols {symbols : List (String × Span)} {trees : List Node} (hnodup : (symbols.map Prod.fst).Nodup)
    (hlength : symbols.length = trees.length) :
    symbols.map (fun p ↦ (symbol p.1 p.2).replace ((symbols.map Prod.fst).zip trees)) = trees := by
  induction symbols generalizing trees with
  | nil => exact (List.length_eq_zero_iff.mp hlength.symm).symm
  | cons p symbols ih =>
    obtain ⟨tree, trees, rfl⟩ : ∃ tree trees', trees = tree :: trees' :=
      List.exists_cons_of_length_eq_add_one hlength.symm
    obtain ⟨hp, hnodup⟩ := List.nodup_cons.mp hnodup
    have htail : symbols.map (fun q ↦ (symbol q.1 q.2).replace ((p.1, tree) :: (symbols.map Prod.fst).zip trees)) =
        symbols.map fun q ↦ (symbol q.1 q.2).replace ((symbols.map Prod.fst).zip trees) := by
      refine List.map_congr_left fun q hq ↦ ?_
      have hne : q.1 ≠ p.1 := fun he ↦ hp (he ▸ List.mem_map_of_mem hq)
      rw [replace, replace, List.lookup_cons, beq_false_of_ne hne]
    rw [List.map_cons, List.map_cons, List.zip_cons_cons, htail, ih hnodup (Nat.succ.inj hlength)]
    simp [replace]

end MacroLisp.Node
