import MacroLisp.Proofs.Reader.Progress
import MacroLisp.Proofs.Reader.Token

namespace MacroLisp

open Cursor (byteLength)

namespace Form

variable {p last stop : Cursor} {cs inner : List Char} {form : Form} {forms : List Form} {d : Delimiter}

theorem induct {P : Form → Prop} (word : ∀ kind w s, P (.word kind w s)) (string : ∀ inner s, P (.string inner s))
    (marked : ∀ mark body s, P body → P (.marked mark body s)) (tagged : ∀ tag body s, P body → P (.tagged tag body s))
    (sequence : ∀ d items s, (∀ form ∈ items, P form) → P (.sequence d items s)) (form : Form) : P form := by
  refine @Form.rec P (fun forms ↦ ∀ form ∈ forms, P form) word string marked tagged sequence ?_ ?_ form
  · intro form hform
    cases hform
  · intro form forms hform hforms m hm
    rcases List.mem_cons.mp hm with rfl | hm
    · exact hform
    · exact hforms m hm

mutual

/-- How a form is written from the one place to the other. A mark may be the word itself where a closing bracket or the end
of the text comes next. -/
def IsAt : Form → Cursor → Cursor → Prop
  | .word kind w s, p, stop => TokenAt w p stop ∧ isTag w = false ∧ kind = WordKind.classify w stop.rest ∧
      s = ⟨p.offset, stop.offset⟩ ∧ (mark? w = none ∨ Dangling w ∧ AtClosing stop.skip)
  | .string inner s, p, stop => IsInner inner ∧ p.Passes ('"' :: inner ++ ['"']) stop ∧ s = ⟨p.offset, stop.offset⟩
  | .marked mark body s, p, stop => ∃ n, mark? p.rest = some (mark, n) ∧ IsAt body (p.advance n).skip stop ∧
      s = ⟨p.offset, stop.offset⟩
  | .tagged tag body s, p, stop => ∃ q, TokenAt ('#' :: tag) p q ∧ isTag ('#' :: tag) = true ∧ IsAt body q.skip stop ∧
      s = ⟨p.offset, stop.offset⟩
  | .sequence d items s, p, stop => ∃ q last, p.Passes [d.opening] q ∧ AllAt items q last ∧
      last.Passes [d.closing] stop ∧ s = ⟨p.offset, stop.offset⟩

def AllAt : List Form → Cursor → Cursor → Prop
  | [], p, last => p.skip = last
  | form :: forms, p, last => ∃ stop, IsAt form p.skip stop ∧ AllAt forms stop last

end

theorem find_of_quote (h : p.rest = '"' :: cs) : find p = attemptLeaf p := by
  have hword : wordAt p.rest = [] := by
    rw [h]
    exact List.takeWhile_cons_of_neg (by decide)
  exact find_of_leaf (by rw [h]; rfl) (by rw [hword]; rfl) (by rw [h]; rfl)

theorem leaf?_of_passes (hinner : IsInner inner) (h : p.Passes ('"' :: inner ++ ['"']) stop) :
    leaf? p = some (.string inner ⟨p.offset, stop.offset⟩, stop) := by
  obtain ⟨o, cs⟩ := p
  obtain ⟨o', cs'⟩ := stop
  obtain rfl : cs = '"' :: inner ++ ['"'] ++ cs' := h.rest
  obtain rfl : o' = o + byteLength ('"' :: inner ++ ['"']) := h.offset
  have hstring := stringInner_of_isInner hinner (o + 1) cs'
  simp [leaf?, hstring, show '"'.utf8Size = 1 from rfl, Nat.add_assoc]

theorem AllAt.passes_of (h : ∀ form ∈ forms, ∀ p stop, IsAt form p stop → ∃ w, w ≠ [] ∧ p.Passes w stop)
    (hall : AllAt forms p last) : ∃ w, p.skip.Passes w last := by
  induction forms generalizing p with
  | nil =>
    obtain rfl : p.skip = last := hall
    exact ⟨[], .refl _⟩
  | cons form forms ih =>
    obtain ⟨stop, hform, hforms⟩ := hall
    obtain ⟨w, -, hw⟩ := h form (by simp) _ _ hform
    obtain ⟨gap, hgap, -⟩ := stop.exists_passes_skip
    obtain ⟨v, hv⟩ := ih (fun form hm ↦ h form (by simp [hm])) hforms
    exact ⟨_, hw.trans (hgap.trans hv)⟩

theorem IsAt.exists_passes (h : form.IsAt p stop) : ∃ w, w ≠ [] ∧ p.Passes w stop := by
  induction form using Form.induct generalizing p stop with
  | word kind w s => exact ⟨w, h.1.ne_nil, h.1.passes⟩
  | string inner s => exact ⟨_, by simp, h.2.1⟩
  | marked mark body s ih =>
    obtain ⟨n, hmark, hbody, -⟩ := h
    obtain ⟨w, hne, hw⟩ := ih hbody
    obtain ⟨gap, hgap, -⟩ := (p.advance n).exists_passes_skip
    exact ⟨_, by simp [hne], (p.passes_advance n).trans (hgap.trans hw)⟩
  | tagged tag body s ih =>
    obtain ⟨q, htoken, -, hbody, -⟩ := h
    obtain ⟨w, -, hw⟩ := ih hbody
    obtain ⟨gap, hgap, -⟩ := q.exists_passes_skip
    exact ⟨_, by simp, htoken.passes.trans (hgap.trans hw)⟩
  | sequence d items s ih =>
    obtain ⟨q, last, hopen, hall, hclose, -⟩ := h
    obtain ⟨gap, hgap, -⟩ := q.exists_passes_skip
    obtain ⟨w, hw⟩ := AllAt.passes_of (fun form hm p stop ↦ ih form hm) hall
    exact ⟨_, by simp, hopen.trans (hgap.trans (hw.trans hclose))⟩

theorem AllAt.exists_passes (h : AllAt forms p last) : ∃ w, p.skip.Passes w last :=
  AllAt.passes_of (fun _ _ _ _ ↦ IsAt.exists_passes) h

theorem IsAt.rest_ne_nil (h : form.IsAt p stop) : p.rest ≠ [] := by
  obtain ⟨w, hne, hw⟩ := h.exists_passes
  simp [hw.rest, hne]

theorem IsAt.offset_lt (h : form.IsAt p stop) : p.offset < stop.offset := by
  obtain ⟨w, hne, hw⟩ := h.exists_passes
  have := hw.offset
  have := Cursor.byteLength_pos hne
  omega

theorem IsAt.length_rest_lt (h : form.IsAt p stop) : stop.rest.length < p.rest.length := by
  obtain ⟨w, hne, hw⟩ := h.exists_passes
  have := List.length_pos_iff.mpr hne
  rw [hw.rest, List.length_append]
  omega

theorem atClosing_of_passes (h : p.Passes [d.closing] stop) : AtClosing p := by
  intro c hc
  rw [h.rest] at hc
  exact ⟨d, (Option.some.inj hc).symm⟩

theorem AllAt.findItems_eq (h : ∀ form ∈ forms, ∀ p stop, IsAt form p stop →
      (find p).result = some (form, stop) ∧ (find p).furthest ≤ stop.skip.offset)
    (hclosing : AtClosing last) (hall : AllAt forms p last) :
    ∃ furthest, findItems p = (forms, last, furthest) ∧ furthest ≤ last.offset := by
  induction forms generalizing p with
  | nil =>
    obtain rfl : p.skip = last := hall
    refine ⟨_, findItems_of_missed ?_, ?_⟩
    · rw [hclosing.find_eq]
    · rw [hclosing.find_eq]
  | cons form forms ih =>
    obtain ⟨stop, hform, hforms⟩ := hall
    obtain ⟨hfound, hfurthest⟩ := h form (by simp) _ _ hform
    obtain ⟨furthest, hitems, hle⟩ := ih (fun form hm ↦ h form (by simp [hm])) hforms
    obtain ⟨w, hw⟩ := hforms.exists_passes
    rw [findItems_of_found hfound, hitems]
    exact ⟨_, rfl, max_le (hfurthest.trans hw.offset_le) hle⟩

/-- A form that is written at a place is found there, and what was missed on the way is no further than what comes next. -/
theorem IsAt.find_result (h : form.IsAt p stop) :
    (find p).result = some (form, stop) ∧ (find p).furthest ≤ stop.skip.offset := by
  induction form using Form.induct generalizing p stop with
  | word kind w s =>
    obtain ⟨htoken, htag, rfl, rfl, hnone | ⟨hdangling, hclosing⟩⟩ := h
    · rw [find_of_leaf (htoken.mark?_eq.trans hnone) (by rw [htoken.wordAt_eq, htag]) htoken.opened?_eq_none,
        attemptLeaf_of_some (htoken.leaf?_eq htag)]
      exact ⟨rfl, Nat.zero_le _⟩
    · rw [htoken.find_of_dangling htag hdangling hclosing]
      exact ⟨htoken.leaf?_eq htag, le_rfl⟩
  | string inner s =>
    obtain ⟨hinner, hpass, rfl⟩ := h
    rw [find_of_quote hpass.rest, attemptLeaf_of_some (leaf?_of_passes hinner hpass)]
    exact ⟨rfl, Nat.zero_le _⟩
  | marked mark body s ih =>
    obtain ⟨n, hmark, hbody, rfl⟩ := h
    obtain ⟨hfound, hfurthest⟩ := ih hbody
    rw [find_of_mark hmark hfound]
    exact ⟨rfl, hfurthest⟩
  | tagged tag body s ih =>
    obtain ⟨q, htoken, htag, hbody, rfl⟩ := h
    obtain ⟨hfound, hfurthest⟩ := ih hbody
    rw [← htoken.advance_eq, ← htoken.wordAt_eq] at hfound hfurthest
    rw [find_of_tag (htoken.mark?_eq.trans (mark?_eq_none_of_isTag htag)) (by rw [htoken.wordAt_eq, htag]) hfound]
    refine ⟨?_, hfurthest⟩
    rw [htoken.wordAt_eq]
    rfl
  | sequence d items s ih =>
    obtain ⟨q, last, hopen, hall, hclose, rfl⟩ := h
    obtain ⟨furthest, hitems, hle⟩ := hall.findItems_eq (fun form hm p stop ↦ ih form hm) (atClosing_of_passes hclose)
    rw [← hopen.eq_advance] at hitems
    rw [find_of_opening hopen _ hitems, if_pos (by rw [hclose.rest]; rfl)]
    have hstop : last.advance 1 = stop := hclose.eq_advance
    rw [hstop]
    exact ⟨rfl, (hle.trans hclose.offset_le).trans stop.offset_le_skip⟩

def Followed (stop : Cursor) : Prop := (find stop.skip).result ≠ none ∨ AtClosing stop.skip

theorem isAt_of_leaf? (h : leaf? p = some (form, stop))
    (hmark : ∀ w, TokenAt w p stop → mark? w = none ∨ Dangling w ∧ AtClosing stop.skip) : form.IsAt p stop := by
  by_cases hquote : p.rest.head? = some '"'
  · obtain ⟨cs, hcs⟩ := List.head?_eq_some_iff.mp hquote
    rw [leaf?_of_quote hcs] at h
    obtain ⟨⟨inner, stop'⟩, hinner, he⟩ := Option.map_eq_some_iff.mp h
    cases he
    have hstart : p.Passes ['"'] ⟨p.offset + 1, cs⟩ := ⟨hcs, rfl⟩
    obtain ⟨hinside, hpass⟩ := isInner_of_stringInner hinner
    exact ⟨hinside, hstart.trans hpass, rfl⟩
  · rw [leaf?_of_ne hquote] at h
    obtain ⟨w, htoken, htag, rfl⟩ := tokenAt_of_word? h
    exact ⟨htoken, htag, rfl, rfl, hmark w htoken⟩

theorem isAt_of_find_aux (k : ℕ) :
    (∀ p form stop, 2 * p.rest.length < k → (find p).result = some (form, stop) → Followed stop → form.IsAt p stop) ∧
    ∀ p, 2 * p.rest.length + 1 < k → AtClosing (findItems p).2.1 → AllAt (findItems p).1 p (findItems p).2.1 := by
  induction k with
  | zero => exact ⟨fun _ _ _ h ↦ absurd h (Nat.not_lt_zero _), fun _ h ↦ absurd h (Nat.not_lt_zero _)⟩
  | succ k ih =>
    obtain ⟨ihForm, ihItems⟩ := ih
    constructor
    · intro p form stop hk h hfollowed
      cases hmark : mark? p.rest with
      | some found =>
        obtain ⟨mark, n⟩ := found
        have hlt := length_rest_skip_mark_lt hmark
        cases hbody : (find (p.advance n).skip).result with
        | some inside =>
          rw [find_of_mark hmark hbody] at h
          cases h
          exact ⟨n, hmark, ihForm _ _ _ (by omega) hbody hfollowed, rfl⟩
        | none =>
          rw [find_of_mark_missed hmark hbody] at h
          refine isAt_of_leaf? h fun w htoken ↦ .inr ?_
          obtain ⟨hdangling, hmissed, -⟩ := htoken.dangling hmark hbody
          exact ⟨hdangling, hfollowed.resolve_left (absurd hmissed)⟩
      | none =>
        cases htag : isTag (wordAt p.rest) with
        | true =>
          have hlt := length_rest_skip_tag_lt htag
          cases hbody : (find (p.advance (wordAt p.rest).length).skip).result with
          | some inside =>
            rw [find_of_tag hmark htag hbody] at h
            cases h
            have hne : wordAt p.rest ≠ [] := fun hnil ↦ by simp [hnil, isTag] at htag
            obtain ⟨tag, hsign⟩ : ∃ tag, wordAt p.rest = '#' :: tag := by
              unfold isTag at htag
              split at htag
              · next hword => exact ⟨_, hword⟩
              · cases htag
            have htoken := tokenAt_wordAt hne
            rw [hsign] at htoken htag hbody hlt ⊢
            exact ⟨_, htoken, htag, ihForm _ _ _ (by omega) hbody hfollowed, rfl⟩
          | none =>
            rw [find_of_tag_missed hmark htag hbody] at h
            cases h
        | false =>
          cases hopened : p.rest.head?.bind opened? with
          | some d =>
            have hlt := length_rest_advance_one_lt hopened
            rw [find_of_opened hmark htag hopened _ rfl] at h
            split_ifs at h with hclosed
            cases h
            have hopen := p.passes_advance 1
            rw [take_of_opened hopened] at hopen
            have hclose := (findItems (p.advance 1)).2.1.passes_advance 1
            obtain ⟨cs, hcs⟩ := List.head?_eq_some_iff.mp hclosed
            rw [hcs] at hclose
            exact ⟨_, _, hopen, ihItems _ (by omega) (atClosing_of_passes hclose), hclose, rfl⟩
          | none =>
            rw [find_of_leaf hmark htag hopened, result_attemptLeaf] at h
            exact isAt_of_leaf? h fun w htoken ↦ .inl (htoken.mark?_eq ▸ hmark)
    · intro p hk hclosing
      have hle := p.length_rest_skip_le
      cases hform : (find p.skip).result with
      | none =>
        rw [findItems_of_missed hform]
        rfl
      | some found =>
        obtain ⟨form, stop⟩ := found
        have hlt := length_rest_find_lt hform
        rw [findItems_of_found hform] at hclosing ⊢
        have hforms := ihItems stop (by omega) hclosing
        refine ⟨stop, ihForm _ _ _ (by omega) hform ?_, hforms⟩
        cases hnext : (find stop.skip).result with
        | some next => exact .inl (by simp [hnext])
        | none =>
          rw [findItems_of_missed hnext] at hclosing
          exact .inr hclosing

theorem isAt_of_find (h : (find p).result = some (form, stop)) (hfollowed : Followed stop) : form.IsAt p stop :=
  (isAt_of_find_aux _).1 p form stop (Nat.lt_succ_self _) h hfollowed

theorem AllAt.followed (h : AllAt forms stop last) (hlast : AtClosing last) : Followed stop := by
  cases forms with
  | nil =>
    obtain rfl : stop.skip = last := h
    exact .inr hlast
  | cons form forms =>
    obtain ⟨stop', hform, -⟩ := h
    exact .inl (by simp [hform.find_result.1])

theorem AllAt.length_le (h : AllAt forms p last) : forms.length ≤ p.rest.length := by
  induction forms generalizing p with
  | nil => exact Nat.zero_le _
  | cons form forms ih =>
    obtain ⟨stop, hform, hforms⟩ := h
    have hlt := hform.length_rest_lt
    have hle := p.length_rest_skip_le
    have := ih hforms
    rw [List.length_cons]
    omega

theorem atClosing_of_rest_eq_nil (h : p.rest = []) : AtClosing p := by simp [AtClosing, h]

end Form

namespace Reader

variable {r : Reader} {ns : List Node} {forms : List Form} {last : Cursor}

theorem exists_allAt_of_complete_drain {limit : ℕ} (hlimit : r.cursor.rest.length < limit)
    (hns : complete (r.drain limit) = .ok ns) :
    ∃ forms last, Form.AllAt forms r.cursor last ∧ last.rest = [] ∧ Form.buildAll r.macros forms = .ok ns := by
  induction limit generalizing r ns with
  | zero => exact absurd hlimit (Nat.not_lt_zero _)
  | succ limit ih =>
    cases hr : r.isExhausted with
    | true =>
      rw [complete_drain_of_isExhausted hr] at hns
      cases hns
      exact ⟨[], _, rfl, List.isEmpty_iff.mp hr, rfl⟩
    | false =>
      obtain ⟨form, stop, n, ns', hform, hn, hrest, rfl⟩ := find_of_complete_drain hr hns
      have hlt := (Form.length_rest_find_lt hform).trans_le r.cursor.length_rest_skip_le
      obtain ⟨forms, last, hforms, hlast, hbuild⟩ := ih (r := { r with cursor := stop })
        (hlt.trans_le (Nat.le_of_lt_succ hlimit)) hrest
      have hfollowed := hforms.followed (Form.atClosing_of_rest_eq_nil hlast)
      refine ⟨form :: forms, last, ⟨stop, Form.isAt_of_find hform hfollowed, hforms⟩, hlast, ?_⟩
      rw [Form.buildAll, hn, hbuild]
      rfl

theorem complete_drain_of_allAt {limit : ℕ} (hlimit : forms.length < limit) (h : Form.AllAt forms r.cursor last)
    (hlast : last.rest = []) (hbuild : Form.buildAll r.macros forms = .ok ns) : complete (r.drain limit) = .ok ns := by
  induction forms generalizing limit r ns with
  | nil =>
    obtain ⟨limit, rfl⟩ : ∃ k, limit = k + 1 := Nat.exists_eq_add_one.mpr hlimit
    obtain rfl : r.cursor.skip = last := h
    cases hbuild
    exact complete_drain_of_isExhausted (List.isEmpty_iff.mpr hlast) limit
  | cons form forms ih =>
    obtain ⟨limit, rfl⟩ : ∃ k, limit = k + 1 := ⟨limit - 1, by simp only [List.length_cons] at hlimit; omega⟩
    obtain ⟨stop, hform, hforms⟩ := h
    obtain ⟨n, ns', hn, hns, rfl⟩ := Form.exists_of_buildAll_cons hbuild
    have hr : r.isExhausted = false := List.isEmpty_eq_false_iff.mpr hform.rest_ne_nil
    rw [complete_drain_of_find hr hform.find_result.1 hn,
      ih (r := { r with cursor := stop }) (Nat.lt_of_succ_lt_succ hlimit) hforms hns]
    rfl

end Reader

/-- A text is read in full if and only if it consists of forms as the rules say, from each of which a node is built. -/
theorem readAll_eq_ok_iff {source : String} {ns : List Node} : readAll source = .ok ns ↔
    ∃ forms last, Form.AllAt forms (.ofList source.toList) last ∧ last.rest = [] ∧ Form.buildAll ∅ forms = .ok ns := by
  rw [Reader.readAll_eq]
  constructor
  · exact Reader.exists_allAt_of_complete_drain (Nat.lt_succ_self _)
  · rintro ⟨forms, last, hforms, hlast, hbuild⟩
    exact Reader.complete_drain_of_allAt (Nat.lt_succ_of_le hforms.length_le) hforms hlast hbuild

end MacroLisp
