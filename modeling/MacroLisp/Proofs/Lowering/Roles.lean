import MacroLisp.Proofs.Host.Names
import MacroLisp.Proofs.Node.Subnodes

namespace MacroLisp

open Host (Role)

/-- The names that a node brings into the host by itself, and what they are to be there. Dotted symbols fall into their
parts and are left out. -/
inductive Node.Gives : Node → Role → String → Prop
  | symbol {name : String} {s : Span} (h : Name.IsSingle name) : Gives (.symbol name s) .name name
  | keyword {k : String} {s : Span} : Gives (.literal (.keyword k) s) .keyword k
  | member {name : String} {object : Node} {attrs : List Node} {hs s t : Span} (h : .symbol name s ∈ attrs) :
    Gives (.sequence .paren (.symbol "." hs :: object :: attrs) t) .member name
  | module {path : String} {args : List Node} {hs s t : Span} (h : .symbol path s ∈ args) :
    Gives (.sequence .paren (.symbol "import" hs :: args) t) .module path
  | asName {name : String} {args : List Node} {hs ks s t : Span}
    (h : [.literal (.keyword "as") ks, .symbol name s] <:+: args) :
    Gives (.sequence .paren (.symbol "import" hs :: args) t) .asName name

namespace Lowering

/-- A class of nodes that has the parts of its nodes, and in which names only have roles that are open to them. Every
role is open to a name that is mangled to one identifier. -/
structure Admits (S : Role → String → Prop) (P : Node → Prop) : Prop where
  part : ∀ {d ns s}, P (.sequence d ns s) → ∀ n ∈ ns, P n
  given : ∀ {n r name}, P n → n.Gives r name → S r name
  whole : ∀ r {name}, Name.IsWhole name → S r name

/-- Names of one kind for all roles, but for keywords, whose names are left open. -/
def ofNames (T : String → Prop) : Role → String → Prop
  | .keyword, _ => True
  | _, name => T name

theorem admits_allNames {T : String → Prop} (hT : ∀ name, name ≠ "" → T name) :
    Admits (ofNames T) (Node.AllNames T) where
  part h := Node.allNames_sequence.mp h
  given := by
    rintro n r name hn (⟨-⟩ | ⟨⟩ | ⟨h⟩ | ⟨h⟩ | ⟨h⟩)
    · exact Node.allNames_symbol.mp hn
    · trivial
    · have hargs := Node.allNames_sequence.mp hn _ (List.mem_cons_of_mem _ (List.mem_cons_of_mem _ h))
      exact Node.allNames_symbol.mp hargs
    · have hargs := Node.allNames_sequence.mp hn _ (List.mem_cons_of_mem _ h)
      exact Node.allNames_symbol.mp hargs
    · have hmem := h.subset (List.mem_cons_of_mem _ (List.mem_singleton_self _))
      have hargs := Node.allNames_sequence.mp hn _ (List.mem_cons_of_mem _ hmem)
      exact Node.allNames_symbol.mp hargs
  whole r name h := by
    cases r with
    | keyword => trivial
    | name | member | module | asName => exact hT name h.ne_empty

end Lowering

end MacroLisp
