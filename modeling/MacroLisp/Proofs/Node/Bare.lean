import MacroLisp.Node.Basic

namespace MacroLisp.Node

mutual

/-- The node with no place anywhere in it. -/
def bare : Node → Node
  | symbol name _ => symbol name .nowhere
  | literal value _ => literal value .nowhere
  | sequence d items _ => sequence d (bareAll items) .nowhere

def bareAll : List Node → List Node
  | [] => []
  | n :: ns => bare n :: bareAll ns

end

@[simp] theorem bareAll_eq_map (ns : List Node) : bareAll ns = ns.map bare := by
  induction ns with
  | nil => rfl
  | cons n ns ih => simp [bareAll, ih]

theorem induct {P : Node → Prop} (symbol : ∀ name s, P (symbol name s)) (literal : ∀ value s, P (literal value s))
    (sequence : ∀ d items s, (∀ n ∈ items, P n) → P (sequence d items s)) (n : Node) : P n := by
  refine @Node.rec P (fun ns ↦ ∀ n ∈ ns, P n) symbol literal sequence ?_ ?_ n
  · intro n hn
    cases hn
  · intro n ns hn hns m hm
    rcases List.mem_cons.mp hm with rfl | hm
    · exact hn
    · exact hns m hm

end MacroLisp.Node
