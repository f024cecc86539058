import MacroLisp.Node.Printer
import MacroLisp.Proofs.Node.Bare
import Mathlib.Data.List.Forall2

namespace MacroLisp.Node

/-- The same tree, wherever it and its parts were read. -/
def Alike (n m : Node) : Prop := n.bare = m.bare

abbrev AllAlike : List Node → List Node → Prop := List.Forall₂ Alike

variable {n m : Node} {ns ms : List Node} {d : Delimiter} {name : String} {l : Literal} {s s' : Span}

theorem Alike.refl (n : Node) : n.Alike n := rfl

theorem Alike.symm (h : n.Alike m) : m.Alike n := Eq.symm h

theorem AllAlike.symm (h : AllAlike ns ms) : AllAlike ms ns := (List.Forall₂.imp (fun _ _ ↦ Alike.symm) h.flip)

theorem allAlike_iff : AllAlike ns ms ↔ ns.map bare = ms.map bare := by
  rw [← List.forall₂_eq_eq_eq, List.forall₂_map_left_iff, List.forall₂_map_right_iff]
  rfl

theorem alike_symbol : (symbol name s).Alike m ↔ ∃ s', m = symbol name s' := by
  cases m <;> simp [Alike, bare, eq_comm]

theorem alike_literal : (literal l s).Alike m ↔ ∃ s', m = literal l s' := by
  cases m <;> simp [Alike, bare, eq_comm]

theorem alike_sequence : (sequence d ns s).Alike m ↔ ∃ ms s', m = sequence d ms s' ∧ AllAlike ns ms := by
  cases m with
  | symbol | literal => simp [Alike, bare]
  | sequence d' ms s' =>
    simp only [Alike, bare, bareAll_eq_map, sequence.injEq, and_true, allAlike_iff]
    constructor
    · rintro ⟨rfl, h⟩
      exact ⟨ms, s', ⟨rfl, rfl, rfl⟩, h⟩
    · rintro ⟨ms', s'', ⟨rfl, rfl, rfl⟩, h⟩
      exact ⟨rfl, h⟩

theorem alike_symbol_symbol (name : String) (s s' : Span) : (symbol name s).Alike (symbol name s') := rfl

theorem alike_literal_literal (l : Literal) (s s' : Span) : (literal l s).Alike (literal l s') := rfl

theorem AllAlike.sequence (h : AllAlike ns ms) (d : Delimiter) (s s' : Span) :
    (sequence d ns s).Alike (sequence d ms s') :=
  alike_sequence.mpr ⟨ms, s', rfl, h⟩

theorem AllAlike.form (h : AllAlike ns ms) (s s' : Span) : (form ns s).Alike (form ms s') := h.sequence .paren s s'

theorem Alike.induct {P : ∀ n m : Node, n.Alike m → Prop}
    (symbol : ∀ name s s', P (symbol name s) (symbol name s') (alike_symbol_symbol name s s'))
    (literal : ∀ l s s', P (literal l s) (literal l s') (alike_literal_literal l s s'))
    (sequence : ∀ d ns ms s s' (h : AllAlike ns ms), List.Forall₂ (fun n m ↦ ∃ h, P n m h) ns ms →
      P (sequence d ns s) (sequence d ms s') (h.sequence d s s')) (h : n.Alike m) : P n m h := by
  induction n using Node.induct generalizing m with
  | symbol name s =>
    obtain ⟨s', rfl⟩ := alike_symbol.mp h
    exact symbol name s s'
  | literal l s =>
    obtain ⟨s', rfl⟩ := alike_literal.mp h
    exact literal l s s'
  | sequence d ns s ih =>
    obtain ⟨ms, s', rfl, hitems⟩ := alike_sequence.mp h
    refine sequence d ns ms s s' hitems ?_
    clear h
    induction hitems with
    | nil => exact .nil
    | cons h _ ihItems =>
      obtain ⟨ihFirst, ihRest⟩ := List.forall_mem_cons.mp ih
      exact .cons ⟨h, ihFirst h⟩ (ihItems ihRest)

theorem Alike.elim {P : ∀ n m : Node, n.Alike m → Prop}
    (symbol : ∀ name s s', P (symbol name s) (symbol name s') (alike_symbol_symbol name s s'))
    (literal : ∀ l s s', P (literal l s) (literal l s') (alike_literal_literal l s s'))
    (sequence : ∀ d ns ms s s' (h : AllAlike ns ms), P (sequence d ns s) (sequence d ms s') (h.sequence d s s'))
    (h : n.Alike m) : P n m h := by
  induction h using Alike.induct with
  | symbol name s s' => exact symbol name s s'
  | literal l s s' => exact literal l s s'
  | sequence d ns ms s s' h _ => exact sequence d ns ms s s' h

theorem Alike.text_eq (h : n.Alike m) : n.text = m.text := by
  induction h using Alike.induct with
  | symbol name s s' => rfl
  | literal l s s' => rfl
  | sequence d ns ms s s' h ih =>
    have htexts : ns.map text = ms.map text := by
      clear h
      induction ih with
      | nil => rfl
      | cons h _ ih =>
        obtain ⟨-, htext⟩ := h
        rw [List.map_cons, List.map_cons, htext, ih]
    rw [text, text, texts_eq_map, texts_eq_map, htexts]

theorem Alike.symbol?_eq (h : n.Alike m) : n.symbol? = m.symbol? := by
  induction h using Alike.elim <;> rfl

theorem Alike.head?_eq (h : n.Alike m) : n.head? = m.head? := by
  induction h using Alike.elim with
  | symbol name s s' => rfl
  | literal l s s' => rfl
  | sequence d ns ms s s' h =>
    cases d with
    | bracket | brace => rfl
    | paren =>
      cases h with
      | nil => rfl
      | cons h _ => induction h using Alike.elim <;> rfl

theorem Alike.isCallTo_eq (h : n.Alike m) (name : String) : n.isCallTo name = m.isCallTo name := by
  rw [isCallTo, isCallTo, h.head?_eq]

theorem Alike.items? (h : n.Alike m) : Option.Rel AllAlike n.items? m.items? := by
  induction h using Alike.elim with
  | symbol name s s' => exact .none
  | literal l s s' => exact .none
  | sequence d ns ms s s' h => exact .some h

theorem Alike.itemsIn? (h : n.Alike m) (d : Delimiter) : Option.Rel AllAlike (n.itemsIn? d) (m.itemsIn? d) := by
  induction h using Alike.elim with
  | symbol name s s' => exact .none
  | literal l s s' => exact .none
  | sequence d' ns ms s s' h =>
    unfold Node.itemsIn?
    dsimp only
    split
    · exact .some h
    · exact .none

theorem alike_withSpan (n : Node) (s : Span) : (n.withSpan s).Alike n := by
  cases n <;> rfl

theorem alike_placedAt (n : Node) (s : Span) : (n.placedAt s).Alike n := by
  unfold placedAt
  split
  · exact alike_withSpan n s
  · rfl

theorem Alike.placedAt (h : n.Alike m) (s s' : Span) : (n.placedAt s).Alike (m.placedAt s') :=
  (alike_placedAt n s).trans (Eq.trans h (alike_placedAt m s').symm)

end MacroLisp.Node
