import MacroLisp.Proofs.Reader.Places

namespace MacroLisp.Form

variable {p stop : Cursor} {form : Form} {mark : Mark} {d : Delimiter} {n : ℕ}

def findItems (p : Cursor) : List Form × Cursor × ℕ := attemptItems (fuelFor p) p

theorem length_rest_skip_advance_lt (hn : 0 < n) (hp : n ≤ p.rest.length) :
    (p.advance n).skip.rest.length < p.rest.length := by
  have hskip := (p.advance n).length_rest_skip_le
  rw [length_rest_advance] at hskip
  omega

theorem length_rest_skip_mark_lt (h : mark? p.rest = some (mark, n)) :
    (p.advance n).skip.rest.length < p.rest.length := by
  obtain ⟨hpos, hle⟩ := length_of_mark? h
  exact length_rest_skip_advance_lt hpos (hle.trans (List.takeWhile_sublist _).length_le)

theorem length_rest_skip_tag_lt (h : isTag (wordAt p.rest) = true) :
    (p.advance (wordAt p.rest).length).skip.rest.length < p.rest.length := by
  refine length_rest_skip_advance_lt (List.length_pos_iff.mpr fun hnil ↦ ?_) (List.takeWhile_sublist _).length_le
  rw [hnil] at h
  cases h

theorem length_rest_advance_one_lt (h : p.rest.head?.bind opened? = some d) :
    (p.advance 1).rest.length < p.rest.length := by
  cases hrest : p.rest with
  | nil =>
    rw [hrest] at h
    cases h
  | cons c cs =>
    rw [length_rest_advance, hrest]
    exact Nat.lt_succ_self _

theorem attempt_congr (fuel : ℕ) :
    (∀ fuel' p, 2 * p.rest.length < fuel → 2 * p.rest.length < fuel' → attempt fuel p = attempt fuel' p) ∧
    ∀ fuel' p, 2 * p.rest.length + 1 < fuel → 2 * p.rest.length + 1 < fuel' →
      attemptItems fuel p = attemptItems fuel' p := by
  induction fuel with
  | zero => exact ⟨fun _ _ h ↦ absurd h (Nat.not_lt_zero _), fun _ _ h ↦ absurd h (Nat.not_lt_zero _)⟩
  | succ fuel ih =>
    obtain ⟨ihForm, ihItems⟩ := ih
    constructor
    · intro fuel' p h h'
      obtain ⟨fuel', rfl⟩ : ∃ k, fuel' = k + 1 := ⟨fuel' - 1, by omega⟩
      cases hmark : mark? p.rest with
      | some found =>
        obtain ⟨mark, n⟩ := found
        have hlt := length_rest_skip_mark_lt hmark
        simp only [attempt, hmark, ihForm fuel' (p.advance n).skip (by omega) (by omega)]
      | none =>
        cases htag : isTag (wordAt p.rest) with
        | true =>
          have hlt := length_rest_skip_tag_lt htag
          have hbody := ihForm fuel' (p.advance (wordAt p.rest).length).skip (by omega) (by omega)
          simp only [attempt, hmark, htag, if_true, hbody]
        | false =>
          cases hopened : p.rest.head?.bind opened? with
          | some d =>
            have hlt := length_rest_advance_one_lt hopened
            simp only [attempt, hmark, htag, hopened, Bool.false_eq_true, if_false,
              ihItems fuel' (p.advance 1) (by omega) (by omega)]
          | none => simp only [attempt, hmark, htag, hopened, Bool.false_eq_true, if_false]
    · intro fuel' p h h'
      obtain ⟨fuel', rfl⟩ : ∃ k, fuel' = k + 1 := ⟨fuel' - 1, by omega⟩
      have hle := p.length_rest_skip_le
      have hfirst := ihForm fuel' p.skip (by omega) (by omega)
      simp only [attemptItems, hfirst]
      cases hform : (attempt fuel' p.skip).result with
      | none => rfl
      | some found =>
        have hlt := length_rest_attempt_lt hform
        simp only [ihItems fuel' found.2 (by omega) (by omega)]

theorem attempt_eq_find {fuel : ℕ} (h : 2 * p.rest.length < fuel) : attempt fuel p = find p :=
  (attempt_congr fuel).1 _ p h (by simp only [fuelFor]; omega)

theorem attemptItems_eq_findItems {fuel : ℕ} (h : 2 * p.rest.length + 1 < fuel) : attemptItems fuel p = findItems p :=
  (attempt_congr fuel).2 _ p h (by simp only [fuelFor]; omega)

section Mark

variable (h : mark? p.rest = some (mark, n))

include h

theorem find_of_mark (hbody : (find (p.advance n).skip).result = some (form, stop)) :
    find p = ⟨some (.marked mark form ⟨p.offset, stop.offset⟩, stop), (find (p.advance n).skip).furthest⟩ := by
  have hlt := length_rest_skip_mark_lt h
  have hfuel : attempt (2 * p.rest.length + 1) (p.advance n).skip = find (p.advance n).skip :=
    attempt_eq_find (by omega)
  rw [find, fuelFor, attempt, h]
  simp only [hfuel, hbody]

theorem find_of_mark_missed (hbody : (find (p.advance n).skip).result = none) :
    find p = ⟨leaf? p, max (attemptLeaf p).furthest (find (p.advance n).skip).furthest⟩ := by
  have hlt := length_rest_skip_mark_lt h
  have hfuel : attempt (2 * p.rest.length + 1) (p.advance n).skip = find (p.advance n).skip :=
    attempt_eq_find (by omega)
  rw [find, fuelFor, attempt, h]
  simp only [hfuel, hbody, ← result_attemptLeaf]

end Mark

section Tag

variable (hmark : mark? p.rest = none) (htag : isTag (wordAt p.rest) = true)

include hmark htag

theorem find_of_tag (hbody : (find (p.advance (wordAt p.rest).length).skip).result = some (form, stop)) :
    find p = ⟨some (.tagged ((wordAt p.rest).drop 1) form ⟨p.offset, stop.offset⟩, stop),
      (find (p.advance (wordAt p.rest).length).skip).furthest⟩ := by
  have hlt := length_rest_skip_tag_lt htag
  have hfuel : attempt (2 * p.rest.length + 1) (p.advance (wordAt p.rest).length).skip =
      find (p.advance (wordAt p.rest).length).skip := attempt_eq_find (by omega)
  rw [find, fuelFor, attempt, hmark]
  simp only [htag, if_true, hfuel, hbody]

theorem find_of_tag_missed (hbody : (find (p.advance (wordAt p.rest).length).skip).result = none) :
    find p = ⟨none, max p.offset (find (p.advance (wordAt p.rest).length).skip).furthest⟩ := by
  have hlt := length_rest_skip_tag_lt htag
  have hfuel : attempt (2 * p.rest.length + 1) (p.advance (wordAt p.rest).length).skip =
      find (p.advance (wordAt p.rest).length).skip := attempt_eq_find (by omega)
  rw [find, fuelFor, attempt, hmark]
  simp only [htag, if_true, hfuel, hbody]

end Tag

section Opened

variable (hmark : mark? p.rest = none) (htag : isTag (wordAt p.rest) = false)

include hmark htag

theorem find_of_opened (hopened : p.rest.head?.bind opened? = some d) (items : List Form × Cursor × ℕ)
    (hitems : findItems (p.advance 1) = items) : find p =
    if items.2.1.rest.head? = some d.closing then
      ⟨some (.sequence d items.1 ⟨p.offset, (items.2.1.advance 1).offset⟩, items.2.1.advance 1), items.2.2⟩
    else ⟨none, max p.offset items.2.2⟩ := by
  have hlt := length_rest_advance_one_lt hopened
  have hfuel : attemptItems (2 * p.rest.length + 1) (p.advance 1) = items :=
    (attemptItems_eq_findItems (by omega)).trans hitems
  rw [find, fuelFor, attempt, hmark]
  simp only [htag, hopened, hfuel, Bool.false_eq_true, if_false]

theorem find_of_leaf (hopened : p.rest.head?.bind opened? = none) : find p = attemptLeaf p := by
  rw [find, fuelFor, attempt, hmark]
  simp only [htag, hopened, Bool.false_eq_true, if_false]

end Opened

theorem length_rest_find_lt (h : (find p).result = some (form, stop)) : stop.rest.length < p.rest.length :=
  length_rest_attempt_lt h

theorem findItems_of_found (h : (find p.skip).result = some (form, stop)) : findItems p =
    (form :: (findItems stop).1, (findItems stop).2.1, max (find p.skip).furthest (findItems stop).2.2) := by
  have hle := p.length_rest_skip_le
  have hlt := length_rest_find_lt h
  have hfirst : attempt (2 * p.rest.length + 1) p.skip = find p.skip := attempt_eq_find (by omega)
  have hrest : attemptItems (2 * p.rest.length + 1) stop = findItems stop := attemptItems_eq_findItems (by omega)
  rw [findItems, fuelFor, attemptItems]
  simp only [hfirst, h, hrest]

theorem findItems_of_missed (h : (find p.skip).result = none) : findItems p = ([], p.skip, (find p.skip).furthest) := by
  have hle := p.length_rest_skip_le
  have hfirst : attempt (2 * p.rest.length + 1) p.skip = find p.skip := attempt_eq_find (by omega)
  rw [findItems, fuelFor, attemptItems]
  simp only [hfirst, h]

end MacroLisp.Form
