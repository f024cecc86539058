import MacroLisp.Proofs.Reader.Grammar

namespace MacroLisp

open Cursor (byteLength)

variable {p q : Cursor} {w cs tail : List Char} {mark : Mark} {n k : ℕ}

namespace Cursor

/-- The place in a text with more behind it, and so many bytes more before it. -/
def move (k : ℕ) (tail : List Char) (p : Cursor) : Cursor := ⟨p.offset + k, p.rest ++ tail⟩

theorem Passes.move (h : p.Passes w q) (k : ℕ) (tail : List Char) : (p.move k tail).Passes w (q.move k tail) := by
  refine ⟨?_, ?_⟩
  · simp [Cursor.move, h.rest]
  · simp only [Cursor.move, h.offset]
    omega

theorem Passes.stop_eq (h : p.Passes w q) : q.stop = p.stop := by
  simp only [stop, h.rest, h.offset, byteLength_append, Nat.add_assoc]

theorem advance_move (hn : n ≤ p.rest.length) (k : ℕ) (tail : List Char) :
    (p.move k tail).advance n = (p.advance n).move k tail := by
  simp only [move, advance, List.take_append_of_le_length hn, List.drop_append_of_le_length hn, Cursor.mk.injEq, and_true]
  omega

theorem skipFrom_move (b : Bool) (o : ℕ) (cs : List Char) (h : (skipFrom b o cs).rest = [] → tail = []) :
    skipFrom b (o + k) (cs ++ tail) = (skipFrom b o cs).move k tail := by
  induction cs generalizing b o with
  | nil =>
    obtain rfl := h rfl
    rfl
  | cons c cs ih =>
    simp only [skipFrom, List.cons_append] at h ⊢
    rw [Nat.add_right_comm]
    split_ifs at h ⊢ with hb hblank hsemicolon
    · exact ih _ _ h
    · exact ih _ _ h
    · exact ih _ _ h
    · rfl

theorem skip_move (h : p.skip.rest = [] → tail = []) (k : ℕ) : (p.move k tail).skip = p.skip.move k tail :=
  skipFrom_move false p.offset p.rest h

theorem skipFrom_append_newline (b : Bool) (o : ℕ) (cs tail : List Char) (h : (skipFrom b o cs).rest = []) :
    skipFrom b o (cs ++ '\n' :: tail) = skipFrom false (o + byteLength cs + 1) tail := by
  induction cs generalizing b o with
  | nil => cases b <;> rfl
  | cons c cs ih =>
    simp only [skipFrom, List.cons_append, byteLength_cons] at h ⊢
    rw [← Nat.add_assoc o]
    split_ifs at h ⊢ with hb hblank hsemicolon
    · exact ih _ _ h
    · exact ih _ _ h
    · exact ih _ _ h

theorem skip_move_newline (h : p.skip.rest = []) (tail : List Char) :
    (p.move 0 ('\n' :: tail)).skip = (⟨p.stop + 1, tail⟩ : Cursor).skip :=
  skipFrom_append_newline false p.offset p.rest tail h

theorem skip_move_of_length_lt (h : tail.length < (p.move k tail).skip.rest.length) : p.skip.rest ≠ [] := by
  intro hnil
  have hpass : ∀ (b : Bool) (o : ℕ) (cs : List Char), (skipFrom b o cs).rest = [] →
      (skipFrom b (o + k) (cs ++ tail)).rest.length ≤ tail.length := by
    intro b o cs
    induction cs generalizing b o with
    | nil => exact fun _ ↦ length_rest_skipFrom_le _ _ tail
    | cons c cs ih =>
      intro h
      simp only [skipFrom, List.cons_append] at h ⊢
      rw [Nat.add_right_comm]
      split_ifs at h ⊢ with hb hblank hsemicolon
      · exact ih _ _ h
      · exact ih _ _ h
      · exact ih _ _ h
  exact absurd (hpass false p.offset p.rest hnil) (Nat.not_le_of_lt h)

end Cursor

namespace Form

theorem mark?_append_iff (h : n < cs.length) : mark? (cs ++ tail) = some (mark, n) ↔ mark? cs = some (mark, n) := by
  have hpos : ∀ {ds}, mark? ds = some (mark, n) → 0 < n := fun hmark ↦ (length_of_mark? hmark).1
  rcases cs with _ | ⟨a, _ | ⟨b, cs⟩⟩
  · cases h
  · have hn : n = 0 := Nat.lt_one_iff.mp h
    subst hn
    exact iff_of_false (fun hmark ↦ absurd (hpos hmark) (by decide)) fun hmark ↦ absurd (hpos hmark) (by decide)
  by_cases htilde : a = '~'
  · subst htilde
    by_cases hb : b = '@' <;> simp [mark?, hb]
  by_cases hsign : a = '#'
  · subst hsign
    by_cases hb : b = '*'
    · subst hb
      rcases cs with _ | ⟨c, cs⟩
      · -- The mark has two characters at least, and one more tells which it is.
        have hn : n < 2 := h
        have hlong : ∀ ds, mark? ('#' :: '*' :: ds) ≠ some (mark, n) := by
          intro ds hmark
          rcases ds with _ | ⟨c, ds⟩
          · simp only [mark?, Option.some.injEq, Prod.mk.injEq] at hmark
            omega
          · by_cases hc : c = '*' <;> simp [mark?, hc] at hmark <;> omega
        exact iff_of_false (hlong _) (hlong _)
      · by_cases hc : c = '*' <;> simp [mark?, hc]
    · simp [mark?, hb]
  · by_cases hquote : a = '\'' <;> by_cases hquasi : a = '\x60' <;> simp [mark?, htilde, hsign, hquote, hquasi]

theorem EndsWord.append {rest : List Char} (h : EndsWord rest) (htail : EndsWord tail) : EndsWord (rest ++ tail) := by
  cases rest with
  | nil => exact htail
  | cons c rest => exact h

theorem TokenAt.move (h : TokenAt w p q) (htail : EndsWord tail) (k : ℕ) : TokenAt w (p.move k tail) (q.move k tail) :=
  ⟨h.passes.move k tail, h.ne_nil, h.chars, h.ends.append htail⟩

theorem classify_append (htail : IsEnd tail) (w rest : List Char) :
    WordKind.classify w (rest ++ tail) = WordKind.classify w rest := by
  cases rest with
  | nil =>
    rw [List.nil_append, classify_of_isEnd htail]
    simp [WordKind.classify]
  | cons c rest => rfl

theorem AtClosing.move (h : AtClosing p) (hp : p.rest ≠ []) (k : ℕ) (tail : List Char) : AtClosing (p.move k tail) := by
  intro c hc
  rw [Cursor.move, List.head?_append_of_ne_nil _ hp] at hc
  exact h c hc

end Form

end MacroLisp
