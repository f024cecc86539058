import MacroLisp.Proofs.Reader.Lookup

namespace MacroLisp

open Cursor (isTerminator isSymbolChar byteLength)

variable {p q stop : Cursor} {w cs : List Char} {form : Form} {mark : Mark} {n : ℕ}

theorem Cursor.Passes.eq_advance (h : p.Passes w q) : p.advance w.length = q := by
  obtain ⟨o, cs⟩ := p
  obtain ⟨o', cs'⟩ := q
  obtain ⟨rfl, rfl⟩ : cs = w ++ cs' ∧ o' = o + byteLength w := ⟨h.rest, h.offset⟩
  exact Form.advance_append o w cs'

theorem Cursor.offset_le_skip (p : Cursor) : p.offset ≤ p.skip.offset := by
  obtain ⟨w, hw, -⟩ := p.exists_passes_skip
  exact hw.offset_le

namespace Form

def AtClosing (p : Cursor) : Prop := ∀ c ∈ p.rest.head?, ∃ d : Delimiter, c = d.closing

theorem attemptLeaf_of_some {found : Form × Cursor} (h : leaf? p = some found) : attemptLeaf p = ⟨some found, 0⟩ := by
  rw [attemptLeaf, h]

theorem attemptLeaf_of_none (h : leaf? p = none) : attemptLeaf p = ⟨none, p.offset⟩ := by
  rw [attemptLeaf, h]

theorem le_furthest_find (h : (find p).result = none) : p.offset ≤ (find p).furthest := by
  cases hmark : mark? p.rest with
  | some found =>
    cases hbody : (find (p.advance found.2).skip).result with
    | some inside =>
      rw [find_of_mark hmark hbody] at h
      cases h
    | none =>
      rw [find_of_mark_missed hmark hbody] at h ⊢
      rw [attemptLeaf_of_none h]
      exact Nat.le_max_left _ _
  | none =>
    cases htag : isTag (wordAt p.rest) with
    | true =>
      cases hbody : (find (p.advance (wordAt p.rest).length).skip).result with
      | some inside =>
        rw [find_of_tag hmark htag hbody] at h
        cases h
      | none =>
        rw [find_of_tag_missed hmark htag hbody]
        exact Nat.le_max_left _ _
    | false =>
      cases hopened : p.rest.head?.bind opened? with
      | some d =>
        rw [find_of_opened hmark htag hopened _ rfl] at h ⊢
        split_ifs at h ⊢
        exact Nat.le_max_left _ _
      | none =>
        rw [find_of_leaf hmark htag hopened] at h ⊢
        rw [result_attemptLeaf] at h
        rw [attemptLeaf_of_none h]

theorem AtClosing.find_eq (h : AtClosing p) : find p = ⟨none, p.offset⟩ := by
  obtain ⟨o, cs⟩ := p
  have hleaf : mark? cs = none ∧ wordAt cs = [] ∧ cs.head?.bind opened? = none ∧ cs.head? ≠ some '"' := by
    cases cs with
    | nil => exact ⟨rfl, rfl, rfl, by simp⟩
    | cons c cs =>
      obtain ⟨d, rfl⟩ := h c rfl
      have hword : wordAt (d.closing :: cs) = [] := List.takeWhile_cons_of_neg (by cases d <;> decide)
      exact ⟨by cases d <;> rfl, hword, by cases d <;> rfl, by cases d <;> simp [Delimiter.closing]⟩
  obtain ⟨hmark, hword, hopened, hquote⟩ := hleaf
  rw [find_of_leaf hmark (by rw [hword]; rfl) hopened]
  refine attemptLeaf_of_none ?_
  rw [leaf?_of_ne hquote, word?]
  simp [hword]

theorem find_of_opening {d : Delimiter} (h : p.Passes [d.opening] q) (items : List Form × Cursor × ℕ)
    (hitems : findItems (p.advance 1) = items) : find p =
    if items.2.1.rest.head? = some d.closing then
      ⟨some (.sequence d items.1 ⟨p.offset, (items.2.1.advance 1).offset⟩, items.2.1.advance 1), items.2.2⟩
    else ⟨none, max p.offset items.2.2⟩ := by
  have hrest : p.rest = d.opening :: q.rest := h.rest
  have hword : wordAt p.rest = [] := by
    rw [hrest]
    exact List.takeWhile_cons_of_neg (by cases d <;> decide)
  refine find_of_opened ?_ (by rw [hword]; rfl) ?_ items hitems
  · rw [hrest]
    cases d <;> rfl
  · rw [hrest]
    cases d <;> rfl

/-- The characters are a whole word or tag, which ends at the second place. -/
structure TokenAt (w : List Char) (p q : Cursor) : Prop where
  passes : p.Passes w q
  ne_nil : w ≠ []
  chars : ∀ c ∈ w, isSymbolChar c = true
  ends : EndsWord q.rest

theorem tokenAt_wordAt (h : wordAt p.rest ≠ []) : TokenAt (wordAt p.rest) p (p.advance (wordAt p.rest).length) := by
  obtain ⟨o, cs⟩ := p
  have hcs : wordAt cs ++ cs.dropWhile isSymbolChar = cs := List.takeWhile_append_dropWhile
  have hadvance := advance_append o (wordAt cs) (cs.dropWhile isSymbolChar)
  rw [hcs] at hadvance
  rw [hadvance]
  refine ⟨⟨hcs.symm, rfl⟩, h, fun c hc ↦ List.mem_takeWhile_imp hc, fun c hc ↦ ?_⟩
  have hnot := List.head?_dropWhile_not isSymbolChar cs
  rwa [Option.mem_def.mp hc] at hnot

theorem tokenAt_of_word? (h : word? p = some (form, stop)) : ∃ w, TokenAt w p stop ∧ isTag w = false ∧
    form = .word (WordKind.classify w stop.rest) w ⟨p.offset, stop.offset⟩ := by
  rw [word?] at h
  split_ifs at h with hword
  cases h
  simp only [Bool.or_eq_true, List.isEmpty_iff, not_or] at hword
  exact ⟨_, tokenAt_wordAt hword.1, by simpa using hword.2, rfl⟩

theorem mark?_eq_none_of_isTag (h : isTag w = true) : mark? w = none := by
  unfold isTag at h
  split at h
  · next c w =>
    have hstar : ∀ cs, c :: w ≠ '*' :: cs := by simpa using h
    simp [mark?, hstar]
  · cases h

namespace TokenAt

variable (h : TokenAt w p q)

include h

theorem wordAt_eq : wordAt p.rest = w := by
  rw [h.passes.rest]
  exact wordAt_append h.chars h.ends

theorem advance_eq : p.advance w.length = q := h.passes.eq_advance

theorem head_not_terminator : ∀ c ∈ p.rest.head?, isTerminator c = false := by
  intro c hc
  obtain ⟨c', w', rfl⟩ := List.exists_cons_of_ne_nil h.ne_nil
  rw [h.passes.rest] at hc
  obtain rfl : c' = c := by simpa using hc
  exact not_terminator_of_isSymbolChar (h.chars c' (by simp))

theorem skip_eq : p.skip = p := by
  obtain ⟨o, cs⟩ := p
  obtain ⟨c, w', rfl⟩ := List.exists_cons_of_ne_nil h.ne_nil
  obtain rfl : cs = c :: w' ++ q.rest := h.passes.rest
  have hc := h.head_not_terminator c rfl
  simp only [isTerminator, decide_eq_false_iff_not, not_or] at hc
  simp [Cursor.skip, Cursor.skipFrom, hc.1, hc.2.2.2.2.2.2.2.2]

theorem head?_ne_quote : p.rest.head? ≠ some '"' := fun hquote ↦ by
  have := h.head_not_terminator '"' hquote
  simp [isTerminator] at this

theorem opened?_eq_none : p.rest.head?.bind opened? = none := by
  cases hc : p.rest.head? with
  | none => rfl
  | some c =>
    have := h.head_not_terminator c hc
    rw [Option.bind_some]
    unfold opened?
    split <;> simp_all [isTerminator]

theorem mark?_eq : mark? p.rest = mark? w := by
  have hstar : ∀ cs, q.rest ≠ '*' :: cs := fun cs hcs ↦ absurd (h.ends '*' (by simp [hcs])) (by decide)
  obtain ⟨c, w', rfl⟩ := List.exists_cons_of_ne_nil h.ne_nil
  have hc := h.chars c (by simp)
  rw [h.passes.rest, List.cons_append]
  by_cases hsign : c = '#'
  · subst hsign
    -- Whether stars are next is to be seen from the token too, since no star ends it.
    rcases w' with _ | ⟨c', _ | ⟨c'', w''⟩⟩
    · simp [mark?, hstar]
    · by_cases hc' : c' = '*' <;> simp [mark?, hstar, hc']
    · by_cases hc' : c' = '*' <;> by_cases hc'' : c'' = '*' <;> simp [mark?, hc', hc'']
  · have hnone : ∀ cs, mark? (c :: cs) = none := by
      intro cs
      unfold mark?
      split <;> simp_all [isSymbolChar]
    rw [hnone, hnone]

theorem leaf?_eq (htag : isTag w = false) :
    leaf? p = some (.word (WordKind.classify w q.rest) w ⟨p.offset, q.offset⟩, q) := by
  rw [leaf?_of_ne h.head?_ne_quote, word?]
  simp [h.wordAt_eq, h.advance_eq, htag, h.ne_nil]

theorem drop (hne : w.drop n ≠ []) : TokenAt (w.drop n) (p.advance n) q := by
  have hle : n ≤ w.length := by
    by_contra! hlt
    exact hne (List.drop_eq_nil_of_le hlt.le)
  refine ⟨⟨?_, ?_⟩, hne, fun c hc ↦ h.chars c (List.mem_of_mem_drop hc), h.ends⟩
  · simp [Cursor.advance, h.passes.rest, List.drop_append_of_le_length hle]
  · have hbytes := Cursor.byteLength_append (w.take n) (w.drop n)
    rw [List.take_append_drop] at hbytes
    simp only [Cursor.advance, h.passes.rest, List.take_append_of_le_length hle, h.passes.offset]
    omega

theorem find_ne_none (htag : isTag w = false) : (find p).result ≠ none := by
  cases hmark : mark? p.rest with
  | some found =>
    cases hbody : (find (p.advance found.2).skip).result with
    | some inside => simp [find_of_mark hmark hbody]
    | none => simp [find_of_mark_missed hmark hbody, h.leaf?_eq htag]
  | none =>
    rw [find_of_leaf hmark (by rw [h.wordAt_eq, htag]) h.opened?_eq_none, result_attemptLeaf, h.leaf?_eq htag]
    simp

end TokenAt

/-- A mark, or a mark and a tag. With no form behind it this is a word. -/
def Dangling (w : List Char) : Prop := ∃ mark n, mark? w = some (mark, n) ∧ (w.drop n = [] ∨ isTag (w.drop n) = true)

theorem TokenAt.dangling (h : TokenAt w p stop) (hmark : mark? p.rest = some (mark, n))
    (hmissed : (find (p.advance n).skip).result = none) :
    Dangling w ∧ (find stop.skip).result = none ∧ (find (p.advance n).skip).furthest = (find stop.skip).furthest := by
  rw [h.mark?_eq] at hmark
  have hle : n ≤ w.length := (length_of_mark? hmark).2.trans (List.takeWhile_sublist _).length_le
  by_cases hne : w.drop n = []
  · obtain rfl : n = w.length := hle.antisymm (List.drop_eq_nil_iff.mp hne)
    rw [h.advance_eq] at hmissed ⊢
    exact ⟨⟨mark, _, hmark, .inl hne⟩, hmissed, rfl⟩
  · have htoken := h.drop hne
    rw [htoken.skip_eq] at hmissed ⊢
    have htag : isTag (w.drop n) = true := by
      by_contra hword
      exact htoken.find_ne_none (by simpa using hword) hmissed
    have hnone : mark? (p.advance n).rest = none := htoken.mark?_eq.trans (mark?_eq_none_of_isTag htag)
    rw [← htoken.wordAt_eq] at htag
    cases hbody : (find stop.skip).result with
    | some inside =>
      rw [← htoken.advance_eq, ← htoken.wordAt_eq] at hbody
      rw [find_of_tag hnone htag hbody] at hmissed
      cases hmissed
    | none =>
      have hfurthest := le_furthest_find hbody
      rw [← htoken.advance_eq, ← htoken.wordAt_eq] at hbody
      rw [find_of_tag_missed hnone htag hbody, htoken.wordAt_eq, htoken.advance_eq]
      refine ⟨⟨mark, n, hmark, .inr (htoken.wordAt_eq ▸ htag)⟩, rfl, max_eq_right ?_⟩
      exact (htoken.passes.offset_le.trans stop.offset_le_skip).trans hfurthest

theorem TokenAt.find_of_dangling (h : TokenAt w p stop) (htag : isTag w = false) (hdangling : Dangling w)
    (hclosing : AtClosing stop.skip) : find p = ⟨leaf? p, stop.skip.offset⟩ := by
  obtain ⟨mark, n, hmark, hrest⟩ := hdangling
  have hmissed : (find (p.advance n).skip).result = none := by
    by_cases hnil : w.drop n = []
    · have hle : n ≤ w.length := (length_of_mark? hmark).2.trans (List.takeWhile_sublist _).length_le
      obtain rfl : n = w.length := hle.antisymm (List.drop_eq_nil_iff.mp hnil)
      rw [h.advance_eq, hclosing.find_eq]
    · have htoken := h.drop hnil
      have hbody : (find ((p.advance n).advance (wordAt (p.advance n).rest).length).skip).result = none := by
        rw [htoken.wordAt_eq, htoken.advance_eq, hclosing.find_eq]
      have hbehind := hrest.resolve_left hnil
      rw [htoken.skip_eq, find_of_tag_missed (htoken.mark?_eq.trans (mark?_eq_none_of_isTag hbehind))
        (by rw [htoken.wordAt_eq, hbehind]) hbody]
  rw [← h.mark?_eq] at hmark
  rw [find_of_mark_missed hmark hmissed, (h.dangling hmark hmissed).2.2, hclosing.find_eq,
    attemptLeaf_of_some (h.leaf?_eq htag), Nat.zero_max]

end Form

end MacroLisp
