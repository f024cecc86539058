import MacroLisp.Proofs.Reader.Token

namespace MacroLisp

open Cursor (isSymbolChar byteLength)

variable {p q r b stop : Cursor} {v w : List Char} {form : Form} {mark : Mark} {n : ℕ}

theorem Cursor.Passes.exists_between (hq : p.Passes v q) (hr : p.Passes w r) (hle : q.offset ≤ r.offset) :
    ∃ u, q.Passes u r := by
  rcases List.append_eq_append_iff.mp (hq.rest.symm.trans hr.rest) with ⟨u, rfl, hu⟩ | ⟨u, rfl, hu⟩
  · refine ⟨u, hu, ?_⟩
    rw [hq.offset, hr.offset, byteLength_append, Nat.add_assoc]
  · rw [hq.offset, hr.offset, byteLength_append] at hle
    have hnil : u = [] := by
      by_contra hne
      have := byteLength_pos hne
      omega
    subst hnil
    refine ⟨[], hu.symm, ?_⟩
    simp [hq.offset, hr.offset]

theorem Cursor.eq_of_rest_eq_nil (h : p.rest = []) : p = ⟨p.stop, []⟩ := by
  obtain ⟨o, cs⟩ := p
  obtain rfl : cs = [] := h
  rfl

namespace Form

/-- No form is found from the first place on, and the furthest miss is at the second, where no closing bracket is. -/
structure Breaks (b p : Cursor) : Prop where
  missed : (find p).result = none
  furthest : (find p).furthest = b.offset
  passes : ∃ w, p.Passes w b
  spared : ∀ d : Delimiter, b.rest.head? ≠ some d.closing

/-- No form is found, or one is found and what comes next is missed. -/
inductive BreaksOff (b p : Cursor) : Prop
  | missed (h : Breaks b p)
  | found {form : Form} {stop : Cursor} (h : (find p).result = some (form, stop)) (hfurthest : (find p).furthest ≤ b.offset)
      (hpass : ∃ w, p.Passes w b) (hnext : Breaks b stop.skip)

theorem BreaksOff.exists_passes (h : BreaksOff b p) : ∃ w, p.Passes w b := by
  cases h with
  | missed h => exact h.passes
  | found _ _ hpass _ => exact hpass

theorem Breaks.not_closing (h : Breaks b p) (d : Delimiter) : p.rest.head? ≠ some d.closing := by
  intro hd
  have hclosing : AtClosing p := fun c hc ↦ ⟨d, Option.some.inj (hc.symm.trans hd)⟩
  have hoffset := h.furthest
  rw [hclosing.find_eq] at hoffset
  obtain ⟨w, hw⟩ := h.passes
  obtain rfl : w = [] := by
    by_contra hne
    have hpos := Cursor.byteLength_pos hne
    have := hw.offset
    dsimp only at hoffset
    omega
  rw [hw.rest] at hd
  exact h.spared d hd

theorem breaks_of_rest_eq_nil (h : p.rest = []) : Breaks p p := by
  have hclosing : AtClosing p := by simp [AtClosing, h]
  exact ⟨by rw [hclosing.find_eq], by rw [hclosing.find_eq], ⟨[], .refl p⟩, by simp [h]⟩

theorem BreaksOff.behind_mark (hmark : mark? p.rest = some (mark, n)) (h : BreaksOff b (p.advance n).skip) : BreaksOff b p := by
  obtain ⟨gap, hgap, -⟩ := (p.advance n).exists_passes_skip
  obtain ⟨w, hw⟩ := h.exists_passes
  have hpass := (p.passes_advance n).trans (hgap.trans hw)
  have hquote : p.rest.head? ≠ some '"' := by
    intro hquote
    obtain ⟨cs, hcs⟩ := List.head?_eq_some_iff.mp hquote
    rw [hcs] at hmark
    cases hmark
  cases h with
  | found h hfurthest _ hnext =>
    have hfind := find_of_mark hmark h
    exact .found (by rw [hfind]) (by rwa [hfind]) ⟨_, hpass⟩ hnext
  | missed h =>
    have hfind := find_of_mark_missed hmark h.missed
    cases hleaf : leaf? p with
    | none =>
      refine .missed ⟨by rw [hfind, hleaf], ?_, ⟨_, hpass⟩, h.spared⟩
      rw [hfind, attemptLeaf_of_none hleaf, h.furthest]
      exact Nat.max_eq_right hpass.offset_le
    | some found =>
      -- The mark begins a word, behind which a form is missed just as it was missed behind the mark.
      obtain ⟨form, stop⟩ := found
      have hword := hleaf
      rw [leaf?_of_ne hquote] at hword
      obtain ⟨w', htoken, -, -⟩ := tokenAt_of_word? hword
      obtain ⟨-, hmissed, hsame⟩ := htoken.dangling hmark h.missed
      have hfurthest : (find stop.skip).furthest = b.offset := hsame.symm.trans h.furthest
      obtain ⟨gap', hgap', -⟩ := stop.exists_passes_skip
      have hbetween := (htoken.passes.trans hgap').exists_between hpass (hfurthest ▸ le_furthest_find hmissed)
      refine .found (by rw [hfind, hleaf]) ?_ ⟨_, hpass⟩ ⟨hmissed, hfurthest, hbetween, h.spared⟩
      rw [hfind, attemptLeaf_of_some hleaf, h.furthest, Nat.zero_max]

theorem BreaksOff.behind_tag (htoken : TokenAt w p q) (htag : isTag w = true) (h : BreaksOff b q.skip) : BreaksOff b p := by
  obtain ⟨gap, hgap, -⟩ := q.exists_passes_skip
  obtain ⟨v, hv⟩ := h.exists_passes
  have hpass := htoken.passes.trans (hgap.trans hv)
  have hmark : mark? p.rest = none := htoken.mark?_eq.trans (mark?_eq_none_of_isTag htag)
  rw [← htoken.wordAt_eq] at htag
  rw [← htoken.advance_eq, ← htoken.wordAt_eq] at h
  cases h with
  | found h hfurthest _ hnext =>
    have hfind := find_of_tag hmark htag h
    exact .found (by rw [hfind]) (by rwa [hfind]) ⟨_, hpass⟩ hnext
  | missed h =>
    have hfind := find_of_tag_missed hmark htag h.missed
    refine .missed ⟨by rw [hfind], ?_, ⟨_, hpass⟩, h.spared⟩
    rw [hfind, h.furthest]
    exact Nat.max_eq_right hpass.offset_le

theorem breaksOff_of_chars (hne : p.rest ≠ []) (hchars : ∀ c ∈ p.rest, isSymbolChar c = true) :
    BreaksOff ⟨p.stop, []⟩ p := by
  induction hlength : p.rest.length using Nat.strong_induction_on generalizing p with
  | _ k ih =>
    have hend : Breaks ⟨p.stop, []⟩ (⟨p.stop, []⟩ : Cursor).skip := breaks_of_rest_eq_nil rfl
    have htoken : TokenAt p.rest p ⟨p.stop, []⟩ := ⟨⟨(List.append_nil _).symm, rfl⟩, hne, hchars, by simp [EndsWord]⟩
    cases hmark : mark? p.rest with
    | some found =>
      obtain ⟨mark, n⟩ := found
      refine .behind_mark hmark ?_
      have hstop : (p.advance n).stop = p.stop := p.stop_advance n
      by_cases hnil : p.rest.drop n = []
      · rw [Cursor.eq_of_rest_eq_nil (p := p.advance n) hnil, hstop]
        exact .missed hend
      · have hbehind := htoken.drop hnil
        have hlt := length_rest_skip_mark_lt hmark
        rw [hbehind.skip_eq] at hlt ⊢
        rw [← hstop]
        exact ih _ (hlength ▸ hlt) hnil (fun c hc ↦ hchars c (List.mem_of_mem_drop hc)) rfl
    | none =>
      cases htag : isTag p.rest with
      | true => exact .behind_tag htoken htag (.missed hend)
      | false =>
        have hfind := find_of_leaf hmark (by rw [htoken.wordAt_eq, htag]) htoken.opened?_eq_none
        rw [attemptLeaf_of_some (htoken.leaf?_eq htag)] at hfind
        exact .found (by rw [hfind]) (by rw [hfind]; exact Nat.zero_le _) ⟨_, htoken.passes⟩ hend

/-- The items break off, and what comes next closes no sequence. -/
structure ItemsBreak (b p : Cursor) : Prop where
  items : ∃ forms last, findItems p = (forms, last, b.offset) ∧ ∀ d : Delimiter, last.rest.head? ≠ some d.closing
  passes : ∃ w, p.skip.Passes w b
  spared : ∀ d : Delimiter, b.rest.head? ≠ some d.closing

theorem Breaks.items (h : Breaks b p.skip) : ItemsBreak b p := by
  refine ⟨⟨[], p.skip, ?_, h.not_closing⟩, h.passes, h.spared⟩
  rw [findItems_of_missed h.missed, h.furthest]

theorem ItemsBreak.cons (h : (find p.skip).result = some (form, stop)) (hfurthest : (find p.skip).furthest ≤ b.offset)
    (hpass : ∃ w, p.skip.Passes w b) (hitems : ItemsBreak b stop) : ItemsBreak b p := by
  obtain ⟨forms, last, heq, hlast⟩ := hitems.items
  refine ⟨⟨form :: forms, last, ?_, hlast⟩, hpass, hitems.spared⟩
  rw [findItems_of_found h, heq, max_eq_right hfurthest]

theorem BreaksOff.items (h : BreaksOff b p.skip) : ItemsBreak b p := by
  cases h with
  | missed h => exact h.items
  | found h hfurthest hpass hnext => exact .cons h hfurthest hpass hnext.items

theorem ItemsBreak.sequence {d : Delimiter} (hopen : p.Passes [d.opening] q) (h : ItemsBreak b q) : Breaks b p := by
  obtain ⟨forms, last, hitems, hlast⟩ := h.items
  obtain ⟨gap, hgap, -⟩ := q.exists_passes_skip
  obtain ⟨w, hw⟩ := h.passes
  have hpass := hopen.trans (hgap.trans hw)
  rw [← hopen.eq_advance] at hitems
  have hfind := find_of_opening hopen _ hitems
  rw [if_neg (hlast d)] at hfind
  refine ⟨by rw [hfind], ?_, ⟨_, hpass⟩, h.spared⟩
  rw [hfind]
  exact Nat.max_eq_right hpass.offset_le

end Form

end MacroLisp
