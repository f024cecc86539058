import MacroLisp.Node.Basic

namespace MacroLisp.Node

variable {name : String} {m n : Node} {ns : List Node} {d : Delimiter} {s : Span}

theorem exists_of_symbol? (h : n.symbol? = some name) : ∃ s, n = symbol name s := by
  cases n with
  | symbol name' s =>
    cases h
    exact ⟨s, rfl⟩
  | literal value s => cases h
  | sequence d items s => cases h

mutual

def subnodes : Node → List Node
  | symbol name s => [symbol name s]
  | literal value s => [literal value s]
  | sequence d items s => sequence d items s :: subnodesAll items

def subnodesAll : List Node → List Node
  | [] => []
  | n :: ns => subnodes n ++ subnodesAll ns

end

theorem mem_subnodesAll : m ∈ subnodesAll ns ↔ ∃ n ∈ ns, m ∈ n.subnodes := by
  induction ns with
  | nil => simp [subnodesAll]
  | cons n ns ih => simp [subnodesAll, ih]

theorem self_mem_subnodes (n : Node) : n ∈ n.subnodes := by
  cases n <;> simp [subnodes]

def Mentions (n : Node) (name : String) : Prop := ∃ s, symbol name s ∈ n.subnodes

@[simp] theorem mentions_symbol {name' : String} : (symbol name' s).Mentions name ↔ name = name' := by
  simp [Mentions, subnodes]

@[simp] theorem not_mentions_literal {l : Literal} : ¬(literal l s).Mentions name := by
  simp [Mentions, subnodes]

@[simp] theorem mentions_sequence : (sequence d ns s).Mentions name ↔ ∃ n ∈ ns, n.Mentions name := by
  simp only [Mentions, subnodes, List.mem_cons, reduceCtorEq, false_or, mem_subnodesAll]
  exact ⟨fun ⟨s, n, hn, h⟩ ↦ ⟨n, hn, s, h⟩, fun ⟨n, hn, s, h⟩ ↦ ⟨s, n, hn, h⟩⟩

@[simp] theorem mentions_form : (form ns s).Mentions name ↔ ∃ n ∈ ns, n.Mentions name := mentions_sequence

@[simp] theorem mentions_placedAt : (n.placedAt s).Mentions name ↔ n.Mentions name := by
  unfold placedAt
  split
  · cases n <;> simp [withSpan]
  · rfl

/-- The symbols of the node all have names of this kind. -/
def AllNames (S : String → Prop) (n : Node) : Prop := ∀ name, n.Mentions name → S name

section AllNames

variable {S T : String → Prop}

theorem AllNames.mono (h : n.AllNames S) (hST : ∀ name, S name → T name) : n.AllNames T :=
  fun name hm ↦ hST name (h name hm)

@[simp] theorem allNames_symbol : (symbol name s).AllNames S ↔ S name := by
  simp [AllNames]

@[simp] theorem allNames_literal {l : Literal} : (literal l s).AllNames S := fun _ hm ↦ absurd hm not_mentions_literal

@[simp] theorem allNames_sequence : (sequence d ns s).AllNames S ↔ ∀ n ∈ ns, n.AllNames S := by
  simp only [AllNames, mentions_sequence]
  constructor
  · exact fun h n hn name hm ↦ h name ⟨n, hn, hm⟩
  · rintro h name ⟨n, hn, hm⟩
    exact h n hn name hm

@[simp] theorem allNames_form : (form ns s).AllNames S ↔ ∀ n ∈ ns, n.AllNames S := allNames_sequence

theorem AllNames.args (h : n.AllNames S) : ∀ a ∈ (n.form?.getD []).drop 1, a.AllNames S := by
  intro a ha
  unfold form? itemsIn? at ha
  split at ha
  · split at ha
    · exact allNames_sequence.mp h a (List.mem_of_mem_drop ha)
    · simp at ha
  · simp at ha

@[simp] theorem allNames_placedAt : (n.placedAt s).AllNames S ↔ n.AllNames S := by
  simp [AllNames]

end AllNames

end MacroLisp.Node
