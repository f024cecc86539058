import MacroLisp.Proofs.Reader.Break
import MacroLisp.Proofs.Reader.Continuation

namespace MacroLisp

open Cursor (isSymbolChar byteLength)

variable {p q last stop : Cursor} {w cs tail inner : List Char} {form : Form} {forms : List Form} {mark : Mark}
  {d : Delimiter} {n k cut offset : ℕ}

/-- The place is between two characters of the span. -/
def Span.Splits (s : Span) (offset : ℕ) : Prop := s.start < offset ∧ offset < s.stop

instance (s : Span) (offset : ℕ) : Decidable (s.Splits offset) := inferInstanceAs (Decidable (_ ∧ _))

namespace Cursor

theorem move_injective (h : p.move k tail = q.move k tail) : p = q := by
  obtain ⟨hoffset, hrest⟩ := Cursor.mk.inj h
  obtain ⟨o, cs⟩ := p
  obtain ⟨o', cs'⟩ := q
  exact Cursor.mk.injEq .. ▸ ⟨Nat.add_right_cancel hoffset, List.append_cancel_right hrest⟩

theorem Passes.of_move (h : (p.move k tail).Passes w (q.move k tail)) : p.Passes w q := by
  have hrest : p.rest ++ tail = w ++ (q.rest ++ tail) := h.rest
  have hoffset : q.offset + k = p.offset + k + byteLength w := h.offset
  rw [← List.append_assoc] at hrest
  exact ⟨List.append_cancel_right hrest, by omega⟩

theorem Passes.exists_move (h : (p.move 0 tail).Passes w q) (hq : tail.length ≤ q.rest.length) :
    ∃ r : Cursor, q = r.move 0 tail := by
  have hrest : p.rest ++ tail = w ++ q.rest := h.rest
  rcases List.append_eq_append_iff.mp hrest with ⟨u, rfl, rfl⟩ | ⟨u, hu, hq'⟩
  · obtain rfl : u = [] := by
      rw [List.length_append] at hq
      exact List.length_eq_zero_iff.mp (by omega)
    exact ⟨⟨q.offset, []⟩, rfl⟩
  · obtain ⟨o, cs⟩ := q
    obtain rfl : cs = u ++ tail := hq'
    exact ⟨⟨o, u⟩, rfl⟩

theorem Passes.exists_append (h : (p.move 0 tail).Passes w q) (hq : q.rest.length ≤ tail.length) :
    ∃ u, w = p.rest ++ u ∧ tail = u ++ q.rest ∧ q.offset = p.stop + byteLength u := by
  have hrest : p.rest ++ tail = w ++ q.rest := h.rest
  have hoffset : q.offset = p.offset + byteLength w := h.offset
  obtain ⟨u, rfl, htail⟩ : ∃ u, w = p.rest ++ u ∧ tail = u ++ q.rest := by
    rcases List.append_eq_append_iff.mp hrest with hu | ⟨u, hu, hq'⟩
    · exact hu
    · rw [hq', List.length_append] at hq
      obtain rfl : u = [] := List.length_eq_zero_iff.mp (by omega)
      exact ⟨[], by simpa using hu.symm, hq'.symm⟩
  exact ⟨u, rfl, htail, by rw [hoffset, byteLength_append, stop, Nat.add_assoc]⟩

end Cursor

namespace Form

theorem AtClosing.of_move (h : AtClosing (p.move k tail).skip) : AtClosing p.skip := by
  by_cases hnil : p.skip.rest = []
  · exact atClosing_of_rest_eq_nil hnil
  · intro c hc
    refine h c ?_
    rw [Cursor.skip_move fun h ↦ absurd h hnil, Cursor.move, List.head?_append_of_ne_nil _ hnil]
    exact hc

theorem TokenAt.of_move (h : TokenAt w (p.move k tail) (q.move k tail)) : TokenAt w p q := by
  refine ⟨h.passes.of_move, h.ne_nil, h.chars, fun c hc ↦ h.ends c ?_⟩
  have hne : q.rest ≠ [] := by
    rintro hnil
    simp [hnil] at hc
  rw [Cursor.move, List.head?_append_of_ne_nil _ hne]
  exact hc

theorem IsAt.length_tail_lt (h : form.IsAt p (stop.move k tail)) : tail.length < p.rest.length := by
  refine lt_of_le_of_lt ?_ h.length_rest_lt
  rw [Cursor.move, List.length_append]
  exact Nat.le_add_left _ _

theorem skip_advance_move (h : tail.length < ((p.move k tail).advance n).skip.rest.length) :
    n < p.rest.length ∧ ((p.move k tail).advance n).skip = (p.advance n).skip.move k tail := by
  have hle := ((p.move k tail).advance n).length_rest_skip_le
  rw [length_rest_advance, Cursor.move, List.length_append] at hle
  have hn : n < p.rest.length := by
    rw [Cursor.move] at h
    omega
  rw [Cursor.advance_move hn.le] at h ⊢
  exact ⟨hn, Cursor.skip_move (fun hnil ↦ absurd hnil (Cursor.skip_move_of_length_lt h)) k⟩

theorem AllAt.exists_of_move_of (h : ∀ form ∈ forms, ∀ p stop, IsAt form (p.move 0 tail) (stop.move 0 tail) →
      ∃ form', IsAt form' p stop) (hlast : last.rest ≠ []) (hall : AllAt forms (p.move 0 tail) (last.move 0 tail)) :
    ∃ forms', AllAt forms' p last := by
  have hlong : tail.length < (last.move 0 tail).rest.length := by
    rw [Cursor.move, List.length_append]
    have := List.length_pos_iff.mpr hlast
    omega
  induction forms generalizing p with
  | nil =>
    have hskip : (p.move 0 tail).skip = last.move 0 tail := hall
    have hne := Cursor.skip_move_of_length_lt (hskip ▸ hlong)
    rw [Cursor.skip_move fun hnil ↦ absurd hnil hne] at hskip
    exact ⟨[], Cursor.move_injective hskip⟩
  | cons form forms ih =>
    obtain ⟨stop, hform, hforms⟩ := hall
    obtain ⟨w, hw⟩ := hforms.exists_passes
    have hstop : tail.length < stop.rest.length := by
      have hle := stop.length_rest_skip_le
      rw [hw.rest, List.length_append] at hle
      omega
    have hne := Cursor.skip_move_of_length_lt (hstop.trans hform.length_rest_lt)
    rw [Cursor.skip_move fun hnil ↦ absurd hnil hne] at hform
    obtain ⟨v, -, hv⟩ := hform.exists_passes
    obtain ⟨r, rfl⟩ := hv.exists_move hstop.le
    obtain ⟨form', hform'⟩ := h form (by simp) _ _ hform
    obtain ⟨forms', hforms'⟩ := ih (fun form hm ↦ h form (by simp [hm])) hforms
    refine ⟨form' :: forms', r, hform', hforms'⟩

theorem IsAt.exists_of_move (h : form.IsAt (p.move 0 tail) (stop.move 0 tail)) : ∃ form', IsAt form' p stop := by
  induction form using Form.induct generalizing p stop with
  | word kind w s =>
    obtain ⟨htoken, htag, -, -, hmark⟩ := h
    exact ⟨.word _ w _, htoken.of_move, htag, rfl, rfl, hmark.imp_right fun h ↦ ⟨h.1, h.2.of_move⟩⟩
  | string inner s =>
    obtain ⟨hinner, hpass, -⟩ := h
    exact ⟨.string inner _, hinner, hpass.of_move, rfl⟩
  | marked mark body s ih =>
    obtain ⟨n, hmark, hbody, -⟩ := h
    obtain ⟨hn, hskip⟩ := skip_advance_move hbody.length_tail_lt
    obtain ⟨body', hbody'⟩ := ih (hskip ▸ hbody)
    exact ⟨.marked mark body' _, n, (mark?_append_iff hn).mp hmark, hbody', rfl⟩
  | tagged tag body s ih =>
    obtain ⟨q, htoken, htag, hbody, -⟩ := h
    have hlong := hbody.length_tail_lt
    obtain ⟨r, rfl⟩ := htoken.passes.exists_move (hlong.le.trans q.length_rest_skip_le)
    rw [Cursor.skip_move fun hnil ↦ absurd hnil (Cursor.skip_move_of_length_lt hlong)] at hbody
    obtain ⟨body', hbody'⟩ := ih hbody
    exact ⟨.tagged tag body' _, r, htoken.of_move, htag, hbody', rfl⟩
  | sequence d items s ih =>
    obtain ⟨q, last, hopen, hall, hclose, -⟩ := h
    have hlast : last = (⟨last.offset, d.closing :: stop.rest⟩ : Cursor).move 0 tail := by
      obtain ⟨o, cs⟩ := last
      obtain rfl : cs = d.closing :: stop.rest ++ tail := hclose.rest
      rfl
    obtain ⟨w, hw⟩ := hall.exists_passes
    have hlong : tail.length ≤ q.rest.length := by
      have hle := q.length_rest_skip_le
      rw [hw.rest, List.length_append, hlast, Cursor.move, List.length_append] at hle
      omega
    obtain ⟨r, rfl⟩ := hopen.exists_move hlong
    rw [hlast] at hall hclose
    obtain ⟨items', hitems'⟩ := AllAt.exists_of_move_of (fun form hm p stop ↦ ih form hm) (by simp) hall
    exact ⟨.sequence d items' _, r, _, hopen.of_move, hitems', hclose.of_move, rfl⟩

mutual

/-- The places of the strings in a form, quotes included. -/
def strings : Form → List Span
  | .word .. => []
  | .string _ s => [s]
  | .marked _ body _ | .tagged _ body _ => strings body
  | .sequence _ items _ => stringsAll items

def stringsAll : List Form → List Span
  | [] => []
  | form :: forms => strings form ++ stringsAll forms

end

theorem AllAt.strings_inside_of (h : ∀ form ∈ forms, ∀ p stop, IsAt form p stop →
      ∀ s ∈ form.strings, p.offset ≤ s.start ∧ s.stop ≤ stop.offset) (hall : AllAt forms p last) :
    ∀ s ∈ stringsAll forms, p.skip.offset ≤ s.start ∧ s.stop ≤ last.offset := by
  induction forms generalizing p with
  | nil => simp [stringsAll]
  | cons form forms ih =>
    obtain ⟨stop, hform, hforms⟩ := hall
    have hlt := hform.offset_lt
    have hskip := stop.offset_le_skip
    obtain ⟨w, hw⟩ := hforms.exists_passes
    have hlast := hw.offset_le
    intro s hs
    rcases List.mem_append.mp hs with hs | hs
    · obtain ⟨hstart, hstop⟩ := h form (by simp) _ _ hform s hs
      omega
    · obtain ⟨hstart, hstop⟩ := ih (fun form hm ↦ h form (by simp [hm])) hforms s hs
      omega

theorem IsAt.strings_inside (h : form.IsAt p stop) :
    ∀ s ∈ form.strings, p.offset ≤ s.start ∧ s.stop ≤ stop.offset := by
  induction form using Form.induct generalizing p stop with
  | word kind w s => simp [strings]
  | string inner s =>
    obtain ⟨-, -, rfl⟩ := h
    simp [strings]
  | marked mark body s ih =>
    obtain ⟨n, -, hbody, -⟩ := h
    intro s hs
    obtain ⟨hstart, hstop⟩ := ih hbody s hs
    have hadvance := (p.passes_advance n).offset_le
    have hskip := (p.advance n).offset_le_skip
    omega
  | tagged tag body s ih =>
    obtain ⟨q, htoken, -, hbody, -⟩ := h
    intro s hs
    obtain ⟨hstart, hstop⟩ := ih hbody s hs
    have hadvance := htoken.passes.offset_le
    have hskip := q.offset_le_skip
    omega
  | sequence d items s ih =>
    obtain ⟨q, last, hopen, hall, hclose, -⟩ := h
    intro s hs
    obtain ⟨hstart, hstop⟩ := AllAt.strings_inside_of (fun form hm p stop ↦ ih form hm) hall s hs
    have hfirst := hopen.offset_le
    have hskip := q.offset_le_skip
    have hlast := hclose.offset_le
    omega

theorem AllAt.strings_inside (h : AllAt forms p last) :
    ∀ s ∈ stringsAll forms, p.skip.offset ≤ s.start ∧ s.stop ≤ last.offset :=
  AllAt.strings_inside_of (fun _ _ _ _ ↦ IsAt.strings_inside) h

/-- Which place a text that is cut off is reported at: the quote of the string that the cut is in, or else the cut itself. -/
structure Blames (strings : List Span) (cut offset : ℕ) : Prop where
  quote : ∀ s ∈ strings, s.Splits cut → offset = s.start
  plain : (∀ s ∈ strings, ¬s.Splits cut) → offset = cut

theorem blames_of_le {strings : List Span} (h : ∀ s ∈ strings, cut ≤ s.start) : Blames strings cut cut :=
  ⟨fun s hs hsplits ↦ absurd hsplits.1 (Nat.not_lt_of_le (h s hs)), fun _ ↦ rfl⟩

theorem Blames.append_left {strings strings' : List Span} (h : Blames strings cut offset)
    (hbehind : ∀ s ∈ strings', cut ≤ s.start) : Blames (strings ++ strings') cut offset := by
  constructor
  · intro s hs hsplits
    rcases List.mem_append.mp hs with hs | hs
    · exact h.quote s hs hsplits
    · exact absurd hsplits.1 (Nat.not_lt_of_le (hbehind s hs))
  · exact fun hall ↦ h.plain fun s hs ↦ hall s (List.mem_append_left _ hs)

theorem Blames.append_right {strings strings' : List Span} (h : Blames strings' cut offset)
    (hbefore : ∀ s ∈ strings, s.stop ≤ cut) : Blames (strings ++ strings') cut offset := by
  constructor
  · intro s hs hsplits
    rcases List.mem_append.mp hs with hs | hs
    · exact absurd hsplits.2 (Nat.not_lt_of_le (hbefore s hs))
    · exact h.quote s hs hsplits
  · exact fun hall ↦ h.plain fun s hs ↦ hall s (List.mem_append_right _ hs)

theorem stop_le_offset_skip_move (h : p.skip.rest = []) : p.stop ≤ (p.move 0 tail).skip.offset := by
  obtain ⟨gap, hgap, -⟩ := (p.move 0 tail).exists_passes_skip
  have hle : (p.move 0 tail).skip.rest.length ≤ tail.length := by
    by_contra! hlong
    exact Cursor.skip_move_of_length_lt hlong h
  obtain ⟨u, -, -, hoffset⟩ := hgap.exists_append hle
  omega

theorem breaks_skip (h : p.skip.rest = []) : ∃ b, b.offset = p.stop ∧ Breaks b p.skip := by
  refine ⟨p.skip, ?_, breaks_of_rest_eq_nil h⟩
  have hstop := p.stop_skip
  rwa [Cursor.stop, h] at hstop

theorem breaks_of_string (hinner : IsInner inner) (h : (p.move 0 tail).Passes ('"' :: inner ++ ['"']) stop)
    (hp : p.rest ≠ []) (hstop : stop.rest.length < tail.length) : Breaks p p := by
  obtain ⟨c, cs, hcs⟩ := List.exists_cons_of_ne_nil hp
  obtain rfl : c = '"' := by
    have hrest : p.rest ++ tail = '"' :: (inner ++ ['"'] ++ stop.rest) := h.rest
    rw [hcs, List.cons_append] at hrest
    exact (List.cons.inj hrest).1
  have hleaf : leaf? p = none := by
    cases hinner' : stringInner (p.offset + 1) cs with
    | none => rw [leaf?_of_quote hcs, hinner', Option.map_none]
    | some found =>
      -- A string that is closed before the cut would be the one that the cut is in.
      obtain ⟨inner', stop'⟩ := found
      have hstart : p.Passes ['"'] ⟨p.offset + 1, cs⟩ := ⟨hcs, rfl⟩
      obtain ⟨hinside, hpass⟩ := isInner_of_stringInner hinner'
      have hclosed := leaf?_of_passes hinside ((hstart.trans hpass).move 0 tail)
      rw [leaf?_of_passes hinner h] at hclosed
      obtain rfl : stop = stop'.move 0 tail := (Prod.mk.inj (Option.some.inj hclosed)).2
      rw [Cursor.move, List.length_append] at hstop
      omega
  have hfind : find p = ⟨none, p.offset⟩ := (find_of_quote hcs).trans (attemptLeaf_of_none hleaf)
  refine ⟨by rw [hfind], by rw [hfind], ⟨[], .refl p⟩, fun d ↦ ?_⟩
  rw [hcs]
  cases d <;> simp [Delimiter.closing]

theorem mark?_of_append (h : mark? (cs ++ tail) = some (mark, n)) (hn : cs.length ≤ n) (hne : cs ≠ []) :
    (∀ c ∈ cs, isSymbolChar c = true) ∨ ∃ mark', mark? cs = some (mark', cs.length) := by
  have hsign := take_of_mark? h
  rw [List.take_append, List.take_of_length_le hn] at hsign
  have hleft : cs <+: mark.sign := ⟨_, hsign⟩
  have htake : cs = mark.sign.take cs.length := List.prefix_iff_eq_take.mp hleft
  have hpos := List.length_pos_iff.mpr hne
  have hle := hleft.length_le
  have hthree : mark.sign.length ≤ 3 := by cases mark <;> decide
  generalize cs.length = k at htake hpos hle
  subst htake
  obtain rfl | rfl | rfl : k = 1 ∨ k = 2 ∨ k = 3 := by omega
  all_goals
    cases mark <;>
      first
      | exact .inl (List.all_eq_true.mp (by decide))
      | exact .inr ⟨_, rfl⟩
      | exact absurd hle (by decide)

theorem AllAt.itemsBreak_of (h : ∀ form ∈ forms, ∀ p stop, IsAt form (p.move 0 tail) stop → p.rest ≠ [] →
      stop.rest.length < tail.length → ∃ b, Blames form.strings p.stop b.offset ∧ BreaksOff b p)
    (hall : AllAt forms (p.move 0 tail) last) (hlast : last.rest.length ≤ tail.length) :
    ∃ b, Blames (stringsAll forms) p.stop b.offset ∧ ItemsBreak b p := by
  induction forms generalizing p with
  | nil =>
    obtain rfl : (p.move 0 tail).skip = last := hall
    have hgap : p.skip.rest = [] := by
      by_contra hne
      rw [Cursor.skip_move fun hnil ↦ absurd hnil hne, Cursor.move, List.length_append] at hlast
      have := List.length_pos_iff.mpr hne
      omega
    obtain ⟨b, hb, hbreaks⟩ := breaks_skip hgap
    exact ⟨b, hb ▸ blames_of_le (by simp [stringsAll]), hbreaks.items⟩
  | cons form forms ih =>
    by_cases hgap : p.skip.rest = []
    · obtain ⟨b, hb, hbreaks⟩ := breaks_skip hgap
      refine ⟨b, ?_, hbreaks.items⟩
      rw [hb]
      exact blames_of_le fun s hs ↦ (stop_le_offset_skip_move hgap).trans (hall.strings_inside s hs).1
    obtain ⟨stop, hform, hforms⟩ := hall
    rw [Cursor.skip_move fun hnil ↦ absurd hnil hgap] at hform
    obtain ⟨v, -, hv⟩ := hform.exists_passes
    by_cases hstop : stop.rest.length < tail.length
    · obtain ⟨b, hblames, hbreaks⟩ := h form (by simp) _ _ hform hgap hstop
      rw [Cursor.stop_skip] at hblames
      obtain ⟨u, -, -, hoffset⟩ := hv.exists_append hstop.le
      rw [Cursor.stop_skip] at hoffset
      have hskip := stop.offset_le_skip
      refine ⟨b, hblames.append_left fun s hs ↦ ?_, hbreaks.items⟩
      have hstart := (hforms.strings_inside s hs).1
      omega
    · obtain ⟨r, rfl⟩ := hv.exists_move (Nat.le_of_not_lt hstop)
      obtain ⟨form', hform'⟩ := hform.exists_of_move
      obtain ⟨b, hblames, hitems⟩ := ih (fun form hm ↦ h form (by simp [hm])) hforms
      obtain ⟨hfound, hfurthest⟩ := hform'.find_result
      obtain ⟨gap, hr, -⟩ := r.exists_passes_skip
      obtain ⟨w, hw⟩ := hitems.passes
      have hpass := hv.of_move
      rw [hpass.stop_eq, Cursor.stop_skip] at hblames
      refine ⟨b, hblames.append_right fun s hs ↦ ?_,
        .cons hfound (hfurthest.trans hw.offset_le) ⟨_, hpass.trans (hr.trans hw)⟩ hitems⟩
      have hinside := (hform.strings_inside s hs).2
      have hr := hpass.stop_eq
      rw [Cursor.stop_skip] at hr
      simp only [Cursor.stop, Cursor.move] at hr hinside ⊢
      omega

theorem IsAt.breaks_of {items : List Form} {s : Span} (h : ∀ form ∈ items, ∀ p stop, IsAt form (p.move 0 tail) stop →
      p.rest ≠ [] → stop.rest.length < tail.length → ∃ b, Blames form.strings p.stop b.offset ∧ BreaksOff b p)
    (hseq : (Form.sequence d items s).IsAt (p.move 0 tail) stop) (hp : p.rest ≠ []) (hstop : stop.rest.length < tail.length) :
    ∃ b, Blames (stringsAll items) p.stop b.offset ∧ Breaks b p := by
  obtain ⟨q, last, hopen, hall, hclose, -⟩ := hseq
  obtain ⟨c, cs, hcs⟩ := List.exists_cons_of_ne_nil hp
  have hrest : p.rest ++ tail = d.opening :: q.rest := hopen.rest
  rw [hcs, List.cons_append] at hrest
  obtain ⟨rfl, hq⟩ := List.cons.inj hrest
  obtain ⟨r, rfl⟩ := hopen.exists_move (by rw [← hq, List.length_append]; omega)
  have hlast : last.rest.length ≤ tail.length := by
    rw [hclose.rest]
    exact hstop
  obtain ⟨b, hblames, hitems⟩ := AllAt.itemsBreak_of h hall hlast
  rw [hopen.of_move.stop_eq] at hblames
  exact ⟨b, hblames, hitems.sequence hopen.of_move⟩

theorem breaksOff_behind (h : ∀ {p stop}, IsAt form (p.move 0 tail) stop → p.rest ≠ [] → stop.rest.length < tail.length →
      ∃ b, Blames form.strings p.stop b.offset ∧ BreaksOff b p)
    (hform : form.IsAt (p.move 0 tail).skip stop) (hstop : stop.rest.length < tail.length) :
    ∃ b, Blames form.strings p.stop b.offset ∧ BreaksOff b p.skip := by
  by_cases hgap : p.skip.rest = []
  · obtain ⟨b, hb, hbreaks⟩ := breaks_skip hgap
    refine ⟨b, ?_, .missed hbreaks⟩
    rw [hb]
    exact blames_of_le fun s hs ↦ (stop_le_offset_skip_move hgap).trans (hform.strings_inside s hs).1
  · rw [Cursor.skip_move fun hnil ↦ absurd hnil hgap] at hform
    obtain ⟨b, hblames, hbreaks⟩ := h hform hgap hstop
    rw [Cursor.stop_skip] at hblames
    exact ⟨b, hblames, hbreaks⟩

theorem IsAt.breaksOff (h : form.IsAt (p.move 0 tail) stop) (hp : p.rest ≠ []) (hstop : stop.rest.length < tail.length) :
    ∃ b, Blames form.strings p.stop b.offset ∧ BreaksOff b p := by
  induction form using Form.induct generalizing p stop with
  | word kind w s =>
    obtain ⟨u, rfl, -, -⟩ := h.1.passes.exists_append hstop.le
    exact ⟨_, blames_of_le (by simp [strings]),
      breaksOff_of_chars hp fun c hc ↦ h.1.chars c (List.mem_append_left u hc)⟩
  | string inner s =>
    obtain ⟨hinner, hpass, rfl⟩ := h
    refine ⟨p, ?_, .missed (breaks_of_string hinner hpass hp hstop)⟩
    have hsplits : Span.Splits ⟨p.offset, stop.offset⟩ p.stop := by
      obtain ⟨u, -, htail, hoffset⟩ := hpass.exists_append hstop.le
      have hleft := Cursor.byteLength_pos hp
      have hne : u ≠ [] := by
        rintro rfl
        rw [htail, List.nil_append] at hstop
        exact Nat.lt_irrefl _ hstop
      have hright := Cursor.byteLength_pos hne
      simp only [Span.Splits, Cursor.stop] at hoffset ⊢
      omega
    exact ⟨by simp [strings, Cursor.move], fun hall ↦ absurd hsplits (hall _ (by simp [strings, Cursor.move]))⟩
  | marked mark body s ih =>
    obtain ⟨n, hmark, hbody, -⟩ := h
    by_cases hn : n < p.rest.length
    · rw [Cursor.advance_move hn.le] at hbody
      obtain ⟨b, hblames, hbreaks⟩ := breaksOff_behind ih hbody hstop
      rw [Cursor.stop_advance] at hblames
      exact ⟨b, hblames, .behind_mark ((mark?_append_iff hn).mp hmark) hbreaks⟩
    · refine ⟨⟨p.stop, []⟩, blames_of_le fun s hs ↦ ?_, ?_⟩
      · have hle : ((p.move 0 tail).advance n).rest.length ≤ tail.length := by
          rw [length_rest_advance, Cursor.move, List.length_append]
          omega
        obtain ⟨u, -, -, hoffset⟩ := ((p.move 0 tail).passes_advance n).exists_append hle
        have hskip := ((p.move 0 tail).advance n).offset_le_skip
        have hstart := (hbody.strings_inside s hs).1
        omega
      · rcases mark?_of_append hmark (Nat.le_of_not_lt hn) hp with hchars | ⟨mark', hmark'⟩
        · exact breaksOff_of_chars hp hchars
        · have hend : p.advance p.rest.length = ⟨p.stop, []⟩ := by
            rw [Cursor.eq_of_rest_eq_nil (p := p.advance p.rest.length) (by simp [Cursor.advance]), Cursor.stop_advance]
          refine .behind_mark hmark' ?_
          rw [hend]
          exact .missed (breaks_of_rest_eq_nil rfl)
  | tagged tag body s ih =>
    obtain ⟨q, htoken, htag, hbody, -⟩ := h
    by_cases hq : q.rest.length < tail.length
    · obtain ⟨u, hu, -, hoffset⟩ := htoken.passes.exists_append hq.le
      refine ⟨⟨p.stop, []⟩, blames_of_le fun s hs ↦ ?_,
        breaksOff_of_chars hp fun c hc ↦ htoken.chars c (hu ▸ List.mem_append_left u hc)⟩
      have hskip := q.offset_le_skip
      have hstart := (hbody.strings_inside s hs).1
      omega
    · obtain ⟨r, rfl⟩ := htoken.passes.exists_move (Nat.le_of_not_lt hq)
      obtain ⟨b, hblames, hbreaks⟩ := breaksOff_behind ih hbody hstop
      rw [htoken.of_move.passes.stop_eq] at hblames
      exact ⟨b, hblames, .behind_tag htoken.of_move htag hbreaks⟩
  | sequence d items s ih =>
    obtain ⟨b, hblames, hbreaks⟩ := h.breaks_of (fun form hm p stop hform hp hstop ↦ ih form hm hform hp hstop) hp hstop
    exact ⟨b, hblames, .missed hbreaks⟩

end Form

theorem Reader.read_of_missed {r : Reader} (hr : r.isExhausted = false) (h : (Form.find r.cursor.skip).result = none) :
    r.read = (.error (r.missed (Form.find r.cursor.skip).furthest), r) := by
  simp only [read, hr, h, Bool.false_eq_true, if_false]

/-- A form between brackets that is cut off anywhere is not read. The error is that the text is over, unless the cut is in a
string; then it is about the quote of that string. The reader stays where it is, whatever reader macros are in force. -/
theorem read_of_truncated {pre post : String} {d : Delimiter} {items : List Form} {s : Span} {stop : Cursor}
    (hform : (Form.find (.ofList (pre ++ post).toList)).result = some (.sequence d items s, stop)) (hstop : stop.rest = [])
    (hpre : pre ≠ "") (hpost : post ≠ "") (macros : ReaderMacros) :
    let r : Reader := { Reader.ofString pre with macros }
    let strings := (Form.sequence d items s).strings
    ((∀ s ∈ strings, ¬s.Splits pre.utf8ByteSize) → r.read = (.error .endOfInput, r)) ∧
    ∀ s ∈ strings, s.Splits pre.utf8ByteSize →
      ∃ e, r.read = (.error e, r) ∧ e.code = "quasi::read::syntax" ∧ e.label? = some ⟨s.start, 1, "here"⟩ := by
  intro r strings
  have hne : pre.toList ≠ [] := by simpa using hpre
  have hcut : (Cursor.ofList pre.toList).stop = pre.utf8ByteSize := by
    simp [Cursor.ofList, Cursor.stop, Cursor.byteLength_toList]
  have htext : Cursor.ofList (pre ++ post).toList = (Cursor.ofList pre.toList).move 0 post.toList := by
    simp [Cursor.move, Cursor.ofList]
  have hend : stop.skip.rest = [] := List.length_eq_zero_iff.mp (Nat.le_zero.mp (by
    simpa [hstop] using stop.length_rest_skip_le))
  have hisAt := Form.isAt_of_find hform (.inr (Form.atClosing_of_rest_eq_nil hend))
  rw [htext] at hisAt
  have hskip : r.cursor.skip = r.cursor := by
    obtain ⟨q, -, hopen, -⟩ := hisAt
    have hrest : pre.toList ++ post.toList = d.opening :: q.rest := hopen.rest
    have hstart := Form.skip_of_start hne (fun c hc ↦ ?_) 0 []
    · rwa [List.append_nil] at hstart
    · rw [← List.head?_append_of_ne_nil _ hne, hrest] at hc
      obtain rfl := Option.some.inj hc
      cases d <;> decide
  have hr : r.isExhausted = false := by
    rw [Reader.isExhausted, hskip]
    exact List.isEmpty_eq_false_iff.mpr hne
  obtain ⟨b, hblames, hbreaks⟩ := hisAt.breaks_of (fun _ _ _ _ ↦ Form.IsAt.breaksOff) hne (by
    simpa [hstop, List.length_pos_iff] using hpost)
  rw [hcut] at hblames
  have hread : r.read = (.error (r.missed b.offset), r) := by
    rw [← hbreaks.furthest]
    have hmissed := Reader.read_of_missed hr (by rw [hskip]; exact hbreaks.missed)
    rwa [hskip] at hmissed
  have hleft : r.cursor.stop = pre.utf8ByteSize := hcut
  rw [hread]
  constructor
  · intro hplain
    rw [hblames.plain hplain, Reader.missed, if_pos hleft.le]
  · intro s hs hsplits
    have hlt : b.offset < pre.utf8ByteSize := (hblames.quote s hs hsplits).trans_lt hsplits.1
    refine ⟨_, rfl, ?_, ?_⟩
    · rw [Reader.missed, if_neg (by omega)]
      rfl
    · rw [Reader.missed, if_neg (by omega), hblames.quote s hs hsplits]
      rfl

/-- `(f #* "b c")`, cut off in the string and behind the sign of unpacking. -/
theorem read_of_truncated_call :
    let items : List Form := [.word .symbol ['f'] ⟨1, 2⟩, .marked .unpackIterable (.string ['b', ' ', 'c'] ⟨6, 11⟩) ⟨3, 11⟩]
    let found := some (Form.sequence .paren items ⟨0, 12⟩, (⟨12, []⟩ : Cursor))
    (Form.find (.ofList ("(f #* \"b" ++ " c\")").toList)).result = found ∧
    (Form.find (.ofList ("(f #*" ++ " \"b c\")").toList)).result = found ∧
    (∃ e, (Reader.ofString "(f #* \"b").read = (.error e, .ofString "(f #* \"b") ∧ e.code = "quasi::read::syntax" ∧
      e.label? = some ⟨6, 1, "here"⟩) ∧
    (Reader.ofString "(f #*").read = (.error .endOfInput, .ofString "(f #*") := by
  intro items found
  have hstring : (Form.find (.ofList ("(f #* \"b" ++ " c\")").toList)).result = found := rfl
  have hsign : (Form.find (.ofList ("(f #*" ++ " \"b c\")").toList)).result = found := rfl
  refine ⟨hstring, hsign, ?_, ?_⟩
  · exact (read_of_truncated hstring rfl (by decide) (by decide) ∅).2 ⟨6, 11⟩ (by decide) (by decide)
  · refine (read_of_truncated hsign rfl (by decide) (by decide) ∅).1 fun s hs ↦ ?_
    obtain rfl : s = ⟨6, 11⟩ := by simpa [Form.strings, Form.stringsAll, items] using hs
    decide

end MacroLisp
