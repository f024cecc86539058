import MacroLisp.Proofs.Reader.Places

namespace MacroLisp

open Cursor (byteLength)

variable {source cs : List Char} {n m : Node} {e : ReadError}

def OnlyLayout (cs : List Char) : Prop := Layout (cs ++ ['\n'])

theorem Span.Covers.start_le_stop {s : Span} (h : s.Covers source cs) : s.start ≤ s.stop := by
  obtain ⟨before, after, -, rfl⟩ := h
  exact Nat.le_add_right _ _

theorem Node.Nested.inside (h : n.Nested source) :
    ∀ child ∈ n.children, n.span.start ≤ child.span.start ∧ child.span.start ≤ child.span.stop ∧
      child.span.stop ≤ n.span.stop := by
  cases h with
  | symbol | literal => simp [children, items?]
  | delimited inner htext hinside hordered =>
    intro child hchild
    obtain ⟨hstart, hlt, hstop⟩ := hinside child hchild
    exact ⟨hstart.le, hlt.le, hstop.le⟩
  | marked behind htext hinside =>
    intro child hchild
    obtain ⟨hstart, hlt, hstop⟩ := hinside
    rcases List.mem_cons.mp hchild with rfl | hchild
    · exact ⟨le_rfl, htext.start_le_stop, le_rfl⟩
    · obtain rfl := List.mem_singleton.mp hchild
      exact ⟨(Nat.le_add_right _ _).trans hstart, hlt.le, hstop.le⟩

namespace Reader

variable {r r' : Reader} {k : ℕ}

/-- The reader after a number of reads, whatever came of them. -/
def after (r : Reader) (k : ℕ) : Reader := (fun r ↦ r.read.2)^[k] r

/-- Reading a form: the way goes over layout to the start of the form and on to its end, and the form is nested as its text
shows. -/
structure Takes (source : List Char) (r : Reader) (n : Node) (r' : Reader) : Prop where
  forward : r.position < r'.position
  stop : r'.position = n.span.stop
  gap : ∃ w, Layout w ∧ Span.Covers source ⟨r.position, n.span.start⟩ w
  written : ∃ cs, cs ≠ [] ∧ n.span.Covers source cs
  nested : ∀ m ∈ n.subnodes, m.Nested source ∧ ∀ child ∈ m.children, m.span.start ≤ child.span.start ∧
    child.span.start ≤ child.span.stop ∧ child.span.stop ≤ m.span.stop

theorem isExhausted_iff : r.isExhausted = true ↔ OnlyLayout r.cursor.rest := by
  rw [isExhausted, List.isEmpty_iff, Cursor.rest_skip_eq_nil_iff]
  rfl

theorem read_of_isExhausted (hr : r.isExhausted = true) :
    r.read = (.error .endOfInput, { r with cursor := r.cursor.skip }) := by
  rw [read, if_pos hr]

theorem exists_of_read_ok (h : r.read = (.ok n, r')) :
    ∃ form stop, r.isExhausted = false ∧ (Form.find r.cursor.skip).result = some (form, stop) ∧
      form.build r.macros = .ok n ∧ r' = { r with cursor := stop } := by
  cases hr : r.isExhausted with
  | true =>
    rw [read_of_isExhausted hr] at h
    cases h
  | false =>
    cases hform : (Form.find r.cursor.skip).result with
    | none => simp [read, hr, hform] at h
    | some found =>
      obtain ⟨form, stop⟩ := found
      cases hm : form.build r.macros with
      | error e => simp [read, hr, hform, hm] at h
      | ok m =>
        rw [read_of_find hr hform hm] at h
        cases h
        exact ⟨form, stop, rfl, rfl, hm, rfl⟩

theorem eq_of_read_error (h : r.read = (.error e, r')) (hr : r.isExhausted = false) : r' = r := by
  cases hform : (Form.find r.cursor.skip).result with
  | none =>
    simp only [read, hr, hform, Bool.false_eq_true, if_false] at h
    cases h
    rfl
  | some found =>
    obtain ⟨form, stop⟩ := found
    cases hm : form.build r.macros with
    | error e =>
      simp only [read, hr, hform, hm, Bool.false_eq_true, if_false] at h
      cases h
      rfl
    | ok m =>
      rw [read_of_find hr hform hm] at h
      cases h

theorem length_rest_of_read_ok (h : r.read = (.ok n, r')) : r'.cursor.rest.length < r.cursor.rest.length := by
  obtain ⟨form, stop, -, hform, -, rfl⟩ := exists_of_read_ok h
  exact (Form.length_rest_attempt_lt hform).trans_le r.cursor.length_rest_skip_le

theorem takes_of_read_ok (hmacros : r.macros = ∅) (hin : r.cursor.IsIn source) (h : r.read = (.ok n, r')) :
    r.Takes source n r' ∧ r'.macros = ∅ ∧ r'.cursor.IsIn source := by
  obtain ⟨form, stop, hr, hform, hn, rfl⟩ := exists_of_read_ok h
  have hne : r.cursor.skip.rest ≠ [] := fun hnil ↦ by simp [isExhausted, hnil] at hr
  obtain ⟨w, hgap, hlayout⟩ := Cursor.exists_layout_of_rest_skip_ne hne
  have hstands := (Form.stands _).1 _ _ _ _ (hgap.isIn hin) hform (hmacros ▸ hn)
  obtain ⟨cs, hcs, hpass⟩ := hstands.passes
  refine ⟨⟨hgap.offset_le.trans_lt hstands.offset_lt, ?_, ⟨w, hlayout, ?_⟩, ⟨cs, hcs, ?_⟩, fun m hm ↦ ?_⟩,
    hmacros, hpass.isIn (hgap.isIn hin)⟩
  · rw [hstands.span]
    rfl
  · rw [hstands.span]
    exact hgap.covers hin
  · rw [hstands.span]
    exact hpass.covers (hgap.isIn hin)
  · have hnested := hstands.nested m hm
    exact ⟨hnested, hnested.inside⟩

theorem position_of_isExhausted (hin : r.cursor.IsIn source) (hr : r.isExhausted = true) :
    r.cursor.skip.offset = byteLength source := by
  obtain ⟨before, hbefore⟩ := hin
  obtain ⟨w, hw⟩ : ∃ w, r.cursor.Passes w r.cursor.skip := ⟨_, r.cursor.exists_passes_skip.choose_spec.1⟩
  have hall := hbefore.trans hw
  have hrest : source = before ++ w ++ r.cursor.skip.rest := hall.rest
  rw [List.isEmpty_iff.mp hr, List.append_nil] at hrest
  rw [hall.offset, hrest]
  exact Nat.zero_add _

theorem isIn_read (hmacros : r.macros = ∅) (hin : r.cursor.IsIn source) :
    r.read.2.macros = ∅ ∧ r.read.2.cursor.IsIn source := by
  rcases hread : r.read with ⟨e | n, r'⟩
  · cases hr : r.isExhausted with
    | true =>
      rw [read_of_isExhausted hr] at hread
      cases hread
      obtain ⟨w, hw, -⟩ := r.cursor.exists_passes_skip
      exact ⟨hmacros, hw.isIn hin⟩
    | false =>
      obtain rfl := eq_of_read_error hread hr
      exact ⟨hmacros, hin⟩
  · exact (takes_of_read_ok hmacros hin hread).2

theorem isIn_after (hmacros : r.macros = ∅) (hin : r.cursor.IsIn source) (k : ℕ) :
    (r.after k).macros = ∅ ∧ (r.after k).cursor.IsIn source := by
  induction k with
  | zero => exact ⟨hmacros, hin⟩
  | succ k ih =>
    rw [after, Function.iterate_succ_apply']
    exact isIn_read ih.1 ih.2

theorem exists_drain {limit : ℕ} (h : r.cursor.rest.length < limit) :
    ∃ ns e, r.drain limit = (ns, some e, r.after (ns.length + 1)) ∧ ns.length ≤ r.cursor.rest.length ∧
      (∀ i (hi : i < ns.length), (r.after i).read.1 = .ok ns[i]) ∧ (r.after ns.length).read.1 = .error e := by
  induction limit generalizing r with
  | zero => exact absurd h (Nat.not_lt_zero _)
  | succ limit ih =>
    rcases hread : r.read with ⟨e | n, r'⟩
    · refine ⟨[], e, ?_, Nat.zero_le _, fun i hi ↦ absurd hi (Nat.not_lt_zero _), by simp [after, hread]⟩
      simp [drain, after, hread]
    · have hlt := length_rest_of_read_ok hread
      obtain ⟨ns, e, hdrain, hlength, hok, herror⟩ := ih (r := r') (by omega)
      have hafter : ∀ k, r.after (k + 1) = r'.after k := by
        intro k
        rw [after, Function.iterate_succ_apply, hread]
        rfl
      refine ⟨n :: ns, e, ?_, ?_, fun i hi ↦ ?_, ?_⟩
      · rw [drain, hread, List.length_cons, hafter]
        simp only [hdrain]
      · rw [List.length_cons]
        omega
      · cases i with
        | zero => simp [after, hread]
        | succ i =>
          rw [hafter]
          exact hok i (Nat.lt_of_succ_lt_succ hi)
      · rw [List.length_cons, hafter]
        exact herror

end Reader

/-- A text is read without gaps or overlaps, whatever is in it and however often it is read on. The place is always one between
two characters. A read that succeeds takes a form as its text shows it. A read that fails leaves the place as it is, unless
only layout was left. To read all forms takes at most as many reads as the text has bytes, and one that fails. -/
theorem reading_goes_forward (source : String) :
    (∀ k, let r := (Reader.ofString source).after k
      (String.Pos.Raw.mk r.position).IsValid source ∧
      match r.read with
      | (.ok n, r') => r.Takes source.toList n r'
      | (.error e, r') =>
        (¬OnlyLayout r.cursor.rest → r'.position = r.position) ∧
        (OnlyLayout r.cursor.rest → e = .endOfInput ∧ r'.position = source.utf8ByteSize)) ∧
    ∃ ns e, ns.length ≤ source.utf8ByteSize ∧
      (∀ i (hi : i < ns.length), ((Reader.ofString source).after i).read.1 = .ok ns[i]) ∧
      ((Reader.ofString source).after ns.length).read.1 = .error e ∧
      readAll source =
        if e = .endOfInput ∧ ((Reader.ofString source).after (ns.length + 1)).isExhausted then .ok ns else .error e := by
  have hstart : (Reader.ofString source).cursor.IsIn source.toList := ⟨[], .refl _⟩
  constructor
  · intro k r
    obtain ⟨hmacros, hin⟩ : r.macros = ∅ ∧ r.cursor.IsIn source.toList := Reader.isIn_after rfl hstart k
    constructor
    · obtain ⟨before, hbefore⟩ := hin
      refine String.Pos.Raw.isValid_iff_exists_append.mpr
        ⟨String.ofList before, String.ofList r.cursor.rest, ?_, ?_⟩
      · rw [← String.ofList_append, ← hbefore.rest]
        exact String.ofList_toList.symm
      · have hoffset := hbefore.offset
        rw [← String.toList_ofList (l := before), Cursor.byteLength_toList] at hoffset
        exact String.Pos.Raw.ext (hoffset.trans (Nat.zero_add _))
    · rcases hread : r.read with ⟨e | n, r'⟩
      · refine ⟨fun hleft ↦ ?_, fun hleft ↦ ?_⟩
        · have hr : r.isExhausted = false := Bool.eq_false_iff.mpr (mt Reader.isExhausted_iff.mp hleft)
          rw [Reader.eq_of_read_error hread hr]
        · have hr := Reader.isExhausted_iff.mpr hleft
          rw [Reader.read_of_isExhausted hr] at hread
          cases hread
          exact ⟨rfl, (Reader.position_of_isExhausted hin hr).trans (Cursor.byteLength_toList source)⟩
      · exact (Reader.takes_of_read_ok hmacros hin hread).1
  · obtain ⟨ns, e, hdrain, hlength, hok, herror⟩ :=
      Reader.exists_drain (r := .ofString source) (Nat.lt_succ_self _)
    refine ⟨ns, e, ?_, hok, herror, ?_⟩
    · rw [← Cursor.byteLength_toList]
      exact hlength.trans (Cursor.length_le_byteLength _)
    · rw [Reader.readAll_eq]
      exact congrArg Reader.complete hdrain

end MacroLisp
