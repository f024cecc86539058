import MacroLisp.Reader.Form
import Mathlib.Algebra.Order.Group.Nat

namespace MacroLisp

variable {cs : List Char} {form : Form} {p : Cursor}

theorem Cursor.length_rest_skipFrom_le (b : Bool) (o : ℕ) (cs : List Char) : (skipFrom b o cs).rest.length ≤ cs.length := by
  induction cs generalizing b o with
  | nil => rfl
  | cons c cs ih =>
    simp only [skipFrom, List.length_cons]
    split_ifs
    · exact (ih _ _).trans (Nat.le_succ _)
    · exact (ih _ _).trans (Nat.le_succ _)
    · exact (ih _ _).trans (Nat.le_succ _)
    · rfl

theorem Cursor.length_rest_skip_le (p : Cursor) : p.skip.rest.length ≤ p.rest.length :=
  length_rest_skipFrom_le false p.offset p.rest

namespace Form

theorem leaf?_of_quote (h : p.rest = '"' :: cs) : leaf? p = (stringInner (p.offset + 1) cs).map fun (inner, stop) ↦
    (.string inner ⟨p.offset, stop.offset⟩, stop) := by
  simp [leaf?, h]

theorem leaf?_of_ne (h : p.rest.head? ≠ some '"') : leaf? p = word? p := by
  unfold leaf?
  split
  · next he => simp [he] at h
  · rfl

theorem result_attemptLeaf (p : Cursor) : (attemptLeaf p).result = leaf? p := by
  unfold attemptLeaf
  split
  · next found hfound => exact hfound.symm
  · next hmissed => exact hmissed.symm

theorem result_attempt_of_mark {mark : Mark} {n : ℕ} (h : mark? p.rest = some (mark, n)) (fuel : ℕ) :
    (attempt (fuel + 1) p).result = match (attempt fuel (p.advance n).skip).result with
      | some (form, stop) => some (.marked mark form ⟨p.offset, stop.offset⟩, stop)
      | none => leaf? p := by
  rw [attempt, h]
  dsimp only
  cases (attempt fuel (p.advance n).skip).result with
  | some found => rfl
  | none => exact result_attemptLeaf p

theorem result_attempt_of_tag (hmark : mark? p.rest = none) (htag : isTag (wordAt p.rest) = true) (fuel : ℕ) :
    (attempt (fuel + 1) p).result =
      (attempt fuel (p.advance (wordAt p.rest).length).skip).result.map fun (form, stop) ↦
        (.tagged ((wordAt p.rest).drop 1) form ⟨p.offset, stop.offset⟩, stop) := by
  rw [attempt, hmark]
  dsimp only
  rw [if_pos htag]
  cases (attempt fuel (p.advance (wordAt p.rest).length).skip).result <;> rfl

theorem result_attempt_of_opened {d : Delimiter} (hmark : mark? p.rest = none) (htag : isTag (wordAt p.rest) = false)
    (hopened : p.rest.head?.bind opened? = some d) (fuel : ℕ) :
    (attempt (fuel + 1) p).result =
      let items := attemptItems fuel (p.advance 1)
      if items.2.1.rest.head? = some d.closing then
        some (.sequence d items.1 ⟨p.offset, (items.2.1.advance 1).offset⟩, items.2.1.advance 1)
      else none := by
  rw [attempt, hmark]
  dsimp only
  rw [if_neg (by simp [htag]), hopened]
  dsimp only
  split_ifs <;> rfl

theorem result_attempt_of_leaf (hmark : mark? p.rest = none) (htag : isTag (wordAt p.rest) = false)
    (hopened : p.rest.head?.bind opened? = none) (fuel : ℕ) : (attempt (fuel + 1) p).result = leaf? p := by
  rw [attempt, hmark]
  dsimp only
  rw [if_neg (by simp [htag]), hopened]
  exact result_attemptLeaf p

theorem length_rest_stringInner_lt {o : ℕ} {inner : List Char} {stop : Cursor}
    (h : stringInner o cs = some (inner, stop)) : stop.rest.length < cs.length := by
  fun_induction stringInner o cs generalizing inner stop with
  | case1 => cases h
  | case2 => cases h
  | case3 o c cs ih =>
    obtain ⟨⟨inner', stop'⟩, hinner, he⟩ := Option.map_eq_some_iff.mp h
    obtain ⟨-, rfl⟩ := Prod.mk.inj he
    exact (ih hinner).trans (by simp only [List.length_cons]; omega)
  | case4 =>
    cases h
    exact Nat.lt_succ_self _
  | case5 o c cs _ _ _ ih =>
    obtain ⟨⟨inner', stop'⟩, hinner, he⟩ := Option.map_eq_some_iff.mp h
    obtain ⟨-, rfl⟩ := Prod.mk.inj he
    exact (ih hinner).trans (Nat.lt_succ_self _)

theorem length_rest_advance (p : Cursor) (n : ℕ) : (p.advance n).rest.length = p.rest.length - n := List.length_drop

theorem length_rest_word?_lt {stop : Cursor} (h : word? p = some (form, stop)) : stop.rest.length < p.rest.length := by
  unfold word? at h
  dsimp only at h
  split at h
  · cases h
  · next hne =>
    obtain ⟨-, rfl⟩ := Prod.mk.inj (Option.some.inj h)
    have hpos : 0 < (wordAt p.rest).length := List.length_pos_iff.mpr fun hnil ↦ by simp [hnil] at hne
    have hle : (wordAt p.rest).length ≤ p.rest.length := (List.takeWhile_sublist _).length_le
    rw [length_rest_advance]
    omega

theorem length_rest_leaf?_lt {stop : Cursor} (h : leaf? p = some (form, stop)) : stop.rest.length < p.rest.length := by
  by_cases hquote : p.rest.head? = some '"'
  · obtain ⟨cs, hcs⟩ := List.head?_eq_some_iff.mp hquote
    rw [leaf?_of_quote hcs] at h
    obtain ⟨⟨inner, stop'⟩, hinner, he⟩ := Option.map_eq_some_iff.mp h
    obtain ⟨-, rfl⟩ := Prod.mk.inj he
    rw [hcs]
    exact (length_rest_stringInner_lt hinner).trans (Nat.lt_succ_self _)
  · rw [leaf?_of_ne hquote] at h
    exact length_rest_word?_lt h

theorem length_rest_lt (fuel : ℕ) :
    (∀ (p : Cursor) (form : Form) (stop : Cursor), (attempt fuel p).result = some (form, stop) →
      stop.rest.length < p.rest.length) ∧
    ∀ p : Cursor, (attemptItems fuel p).2.1.rest.length ≤ p.rest.length := by
  induction fuel with
  | zero => exact ⟨fun p form stop h ↦ by simp [attempt] at h, fun p ↦ p.length_rest_skip_le⟩
  | succ fuel ih =>
    obtain ⟨ihForm, ihItems⟩ := ih
    constructor
    · intro p form stop h
      -- A form inside begins behind a mark, a tag or a bracket.
      have hinside : ∀ n, (p.advance n).skip.rest.length ≤ p.rest.length := by
        intro n
        have := (p.advance n).length_rest_skip_le
        rw [length_rest_advance] at this
        omega
      cases hmark : mark? p.rest with
      | some found =>
        obtain ⟨mark, n⟩ := found
        rw [result_attempt_of_mark hmark] at h
        split at h
        · next body stop' hbody =>
          cases h
          exact (ihForm _ _ _ hbody).trans_le (hinside n)
        · exact length_rest_leaf?_lt h
      | none =>
        cases htag : isTag (wordAt p.rest) with
        | true =>
          rw [result_attempt_of_tag hmark htag] at h
          obtain ⟨⟨body, stop'⟩, hbody, he⟩ := Option.map_eq_some_iff.mp h
          cases he
          exact (ihForm _ _ _ hbody).trans_le (hinside _)
        | false =>
          cases hopened : p.rest.head?.bind opened? with
          | some d =>
            rw [result_attempt_of_opened hmark htag hopened] at h
            dsimp only at h
            split at h
            · next hclosed =>
              cases h
              have hle := ihItems (p.advance 1)
              have hpos := List.length_pos_of_mem (List.mem_of_head? hclosed)
              rw [length_rest_advance] at hle ⊢
              omega
            · cases h
          | none =>
            rw [result_attempt_of_leaf hmark htag hopened] at h
            exact length_rest_leaf?_lt h
    · intro p
      rw [attemptItems]
      dsimp only
      split
      · next form stop hform =>
        have hlt := ihForm _ _ _ hform
        have hskip := p.length_rest_skip_le
        exact (ihItems stop).trans (hlt.le.trans hskip)
      · exact p.length_rest_skip_le

theorem length_rest_attempt_lt {fuel : ℕ} {stop : Cursor} (h : (attempt fuel p).result = some (form, stop)) :
    stop.rest.length < p.rest.length :=
  (length_rest_lt fuel).1 p form stop h

end Form

end MacroLisp
