import MacroLisp.Proofs.Reader.Continuation

namespace MacroLisp

open Cursor (byteLength)

def Span.shift (k : ℕ) (s : Span) : Span := ⟨s.start + k, s.stop + k⟩

namespace Node

mutual

def shift (k : ℕ) : Node → Node
  | symbol name s => symbol name (s.shift k)
  | literal value s => literal value (s.shift k)
  | sequence d items s => sequence d (shiftAll k items) (s.shift k)

def shiftAll (k : ℕ) : List Node → List Node
  | [] => []
  | n :: ns => shift k n :: shiftAll k ns

end

@[simp] theorem shiftAll_eq_map (k : ℕ) (ns : List Node) : shiftAll k ns = ns.map (shift k) := by
  induction ns with
  | nil => rfl
  | cons n ns ih => simp [shiftAll, ih]

theorem shift_zero (n : Node) : n.shift 0 = n := by
  induction n using induct with
  | symbol name s | literal value s => rfl
  | sequence d ns s ih =>
    have hns : ns.map (shift 0) = ns.map id := List.map_congr_left ih
    rw [shift, shiftAll_eq_map, hns, List.map_id]
    rfl

/-- The last token of the node is a symbol with such a name. -/
def EndsIn (S : String → Prop) (n : Node) : Prop := ∃ name s, symbol name s ∈ n.subnodes ∧ s.stop = n.span.stop ∧ S name

end Node

namespace Form

variable {p q last stop : Cursor} {w tail : List Char} {form : Form} {forms forms' : List Form} {n : Node} {ns : List Node}
  {k : ℕ}

mutual

def shift (k : ℕ) : Form → Form
  | word kind w s => word kind w (s.shift k)
  | string inner s => string inner (s.shift k)
  | marked mark body s => marked mark (shift k body) (s.shift k)
  | tagged tag body s => tagged tag (shift k body) (s.shift k)
  | sequence d items s => sequence d (shiftAll k items) (s.shift k)

def shiftAll (k : ℕ) : List Form → List Form
  | [] => []
  | form :: forms => shift k form :: shiftAll k forms

end

/-- The last word of the form is one only because nothing follows it. -/
def Unsettled : Form → Prop
  | word _ w _ => Dangling w
  | marked _ body _ | tagged _ body _ => Unsettled body
  | string .. | sequence .. => False

theorem AllAt.move_of (h : ∀ form ∈ forms, ∀ p stop, IsAt form p stop → (stop.skip.rest = [] → tail = []) →
      (form.shift k).IsAt (p.move k tail) (stop.move k tail))
    (hlast : last.rest = [] → tail = []) (hall : AllAt forms p last) :
    AllAt (shiftAll k forms) (p.move k tail) (last.move k tail) := by
  induction forms generalizing p with
  | nil =>
    obtain rfl : p.skip = last := hall
    exact Cursor.skip_move hlast k
  | cons form forms ih =>
    obtain ⟨stop, hform, hforms⟩ := hall
    have hgoes : stop.skip.rest = [] → tail = [] := by
      intro hnil
      cases forms with
      | nil =>
        obtain rfl : stop.skip = last := hforms
        exact hlast hnil
      | cons form' forms =>
        obtain ⟨stop', hform', -⟩ := hforms
        exact absurd hnil hform'.rest_ne_nil
    refine ⟨stop.move k tail, ?_, ih (fun form hm ↦ h form (by simp [hm])) hforms⟩
    rw [Cursor.skip_move (fun hnil ↦ absurd hnil hform.rest_ne_nil)]
    exact h form (by simp) _ _ hform hgoes

/-- A form is written in the same way where there is more text around it. If it was the last one, what follows it must begin
with what ends a number, and its last word must be settled. -/
theorem IsAt.move (h : form.IsAt p stop) (htail : IsEnd tail)
    (hsettled : stop.skip.rest = [] → tail = [] ∨ ¬form.Unsettled) (k : ℕ) :
    (form.shift k).IsAt (p.move k tail) (stop.move k tail) := by
  induction form using Form.induct generalizing p stop with
  | word kind w s =>
    obtain ⟨htoken, htag, rfl, rfl, hmark⟩ := h
    refine ⟨htoken.move htail.endsWord k, htag, (classify_append htail w _).symm, rfl, hmark.imp_right ?_⟩
    rintro ⟨hdangling, hclosing⟩
    refine ⟨hdangling, ?_⟩
    by_cases hnil : stop.skip.rest = []
    · obtain rfl := (hsettled hnil).resolve_right (not_not_intro hdangling)
      rw [Cursor.skip_move fun _ ↦ rfl]
      exact atClosing_of_rest_eq_nil (by simp [Cursor.move, hnil])
    · rw [Cursor.skip_move fun h ↦ absurd h hnil]
      exact hclosing.move hnil k tail
  | string inner s =>
    obtain ⟨hinner, hpass, rfl⟩ := h
    exact ⟨hinner, hpass.move k tail, rfl⟩
  | marked mark body s ih =>
    obtain ⟨n, hmark, hbody, rfl⟩ := h
    have hn : n < p.rest.length := by
      have hle := (p.advance n).length_rest_skip_le
      rw [length_rest_advance] at hle
      have := List.length_pos_iff.mpr hbody.rest_ne_nil
      omega
    refine ⟨n, (mark?_append_iff hn).mpr hmark, ?_, rfl⟩
    rw [Cursor.advance_move hn.le, Cursor.skip_move fun hnil ↦ absurd hnil hbody.rest_ne_nil]
    exact ih hbody hsettled
  | tagged tag body s ih =>
    obtain ⟨q, htoken, htag, hbody, rfl⟩ := h
    refine ⟨q.move k tail, htoken.move htail.endsWord k, htag, ?_, rfl⟩
    rw [Cursor.skip_move fun hnil ↦ absurd hnil hbody.rest_ne_nil]
    exact ih hbody hsettled
  | sequence d items s ih =>
    obtain ⟨q, last, hopen, hall, hclose, rfl⟩ := h
    refine ⟨q.move k tail, last.move k tail, hopen.move k tail, ?_, hclose.move k tail, rfl⟩
    refine hall.move_of (fun form hm p stop hform hgoes ↦ ih form hm hform fun hnil ↦ .inl (hgoes hnil)) fun hnil ↦ ?_
    rw [hclose.rest] at hnil
    cases hnil

theorem AllAt.shift (h : AllAt forms p last) (k : ℕ) : AllAt (shiftAll k forms) (p.move k []) (last.move k []) :=
  AllAt.move_of (fun form _ p stop hform _ ↦ hform.move (by simp [IsEnd]) (fun _ ↦ .inl rfl) k) (fun _ ↦ rfl) h

theorem AllAt.of_skip_eq (h : AllAt forms q last) (hskip : p.skip = q.skip) : AllAt forms p last := by
  cases forms with
  | nil => exact hskip.trans h
  | cons form forms =>
    obtain ⟨stop, hform, hforms⟩ := h
    exact ⟨stop, hskip ▸ hform, hforms⟩

theorem AllAt.append (h : AllAt forms p last) (hlast : last.rest = []) (hsettled : ∀ form ∈ forms.getLast?, ¬form.Unsettled)
    (h' : AllAt forms' ⟨p.stop + 1, tail⟩ q) : AllAt (shiftAll 0 forms ++ forms') (p.move 0 ('\n' :: tail)) q := by
  induction forms generalizing p with
  | nil =>
    obtain rfl : p.skip = last := h
    exact h'.of_skip_eq (Cursor.skip_move_newline hlast tail)
  | cons form forms ih =>
    obtain ⟨stop, hform, hforms⟩ := h
    have hend : IsEnd ('\n' :: tail) := by
      intro c hc
      obtain rfl : '\n' = c := by simpa using hc
      rfl
    have hstop : stop.stop = p.stop := by
      obtain ⟨w, -, hw⟩ := hform.exists_passes
      rw [hw.stop_eq, Cursor.stop_skip]
    refine ⟨stop.move 0 ('\n' :: tail), ?_, ih hforms ?_ (hstop ▸ h')⟩
    · rw [Cursor.skip_move fun hnil ↦ absurd hnil hform.rest_ne_nil]
      refine hform.move hend (fun hnil ↦ .inr ?_) 0
      cases forms with
      | nil => exact hsettled form rfl
      | cons form' forms =>
        obtain ⟨stop', hform', -⟩ := hforms
        exact absurd hnil hform'.rest_ne_nil
    · intro form' hform'
      cases forms with
      | nil => cases hform'
      | cons => exact hsettled form' hform'

theorem buildAll_shift_of (h : ∀ form ∈ forms, ∀ n, build ∅ form = .ok n → build ∅ (form.shift k) = .ok (n.shift k))
    (hns : buildAll ∅ forms = .ok ns) : buildAll ∅ (shiftAll k forms) = .ok (ns.map (Node.shift k)) := by
  induction forms generalizing ns with
  | nil =>
    cases hns
    rfl
  | cons form forms ih =>
    obtain ⟨m, ms, hm, hms, rfl⟩ := exists_of_buildAll_cons hns
    rw [shiftAll, buildAll, h form (by simp) m hm, ih (fun form hform ↦ h form (by simp [hform])) hms]
    rfl

theorem build_shift (h : build ∅ form = .ok n) (k : ℕ) : build ∅ (form.shift k) = .ok (n.shift k) := by
  induction form using Form.induct generalizing n with
  | word kind w s =>
    cases kind with
    | keyword | float | symbol =>
      cases h
      rfl
    | integer =>
      rw [build, buildWord] at h
      split at h
      · next hrange =>
        cases h
        rw [shift, build, buildWord, if_pos hrange]
        rfl
      · cases h
  | string inner s =>
    cases h
    rfl
  | marked mark body s ih =>
    obtain ⟨m, hm, rfl⟩ := exists_of_build_marked h
    rw [shift, build, ih hm]
    rfl
  | tagged tag body s ih => exact absurd h build_tagged_ne_ok
  | sequence d items s ih =>
    obtain ⟨ms, hms, rfl⟩ := exists_of_build_sequence h
    rw [shift, build, buildAll_shift_of (fun form hm n ↦ ih form hm) hms, Node.shift, Node.shiftAll_eq_map]
    rfl

theorem buildAll_shift (h : buildAll ∅ forms = .ok ns) (k : ℕ) :
    buildAll ∅ (shiftAll k forms) = .ok (ns.map (Node.shift k)) :=
  buildAll_shift_of (fun _ _ _ h ↦ build_shift h k) h

theorem buildAll_append {ms : List Node} (h : buildAll ∅ forms = .ok ns) (h' : buildAll ∅ forms' = .ok ms) :
    buildAll ∅ (forms ++ forms') = .ok (ns ++ ms) := by
  induction forms generalizing ns with
  | nil =>
    cases h
    exact h'
  | cons form forms ih =>
    obtain ⟨n, ns', hn, hns, rfl⟩ := exists_of_buildAll_cons h
    rw [List.cons_append, buildAll, hn, ih hns]
    rfl

theorem getLast?_of_buildAll (h : buildAll ∅ forms = .ok ns) (hform : forms.getLast? = some form) :
    ∃ n, ns.getLast? = some n ∧ build ∅ form = .ok n := by
  induction forms generalizing ns with
  | nil => cases hform
  | cons form' forms ih =>
    obtain ⟨n, ns', hn, hns, rfl⟩ := exists_of_buildAll_cons h
    cases forms with
    | nil =>
      cases hform
      cases hns
      exact ⟨n, rfl, hn⟩
    | cons form'' forms =>
      obtain ⟨m, hm, hbuild⟩ := ih hns hform
      exact ⟨m, by rw [List.getLast?_cons, hm]; rfl, hbuild⟩

theorem AllAt.exists_isAt (h : AllAt forms p last) (hform : form ∈ forms) : ∃ q stop, form.IsAt q stop := by
  induction forms generalizing p with
  | nil => cases hform
  | cons form' forms ih =>
    obtain ⟨stop, hfirst, hforms⟩ := h
    rcases List.mem_cons.mp hform with rfl | hform
    · exact ⟨_, _, hfirst⟩
    · exact ih hforms hform

theorem span_of_isAt (h : form.IsAt p stop) (hn : build ∅ form = .ok n) : n.span = ⟨p.offset, stop.offset⟩ := by
  cases form with
  | word kind w s =>
    obtain ⟨-, -, -, rfl, -⟩ := h
    exact (leaf_of_buildWord hn).2
  | string inner s =>
    obtain ⟨-, -, rfl⟩ := h
    cases hn
    rfl
  | marked mark body s =>
    obtain ⟨-, -, -, rfl⟩ := h
    obtain ⟨m, -, rfl⟩ := exists_of_build_marked hn
    rfl
  | tagged tag body s => exact absurd hn build_tagged_ne_ok
  | sequence d items s =>
    obtain ⟨-, -, -, -, -, rfl⟩ := h
    obtain ⟨ms, -, rfl⟩ := exists_of_build_sequence hn
    rfl

theorem exists_of_dangling (h : Dangling w) (hw : ∀ c ∈ w, Cursor.isSymbolChar c = true) (rest : List Char) :
    ['#', '*'] <+: w ∧ WordKind.classify w rest = .symbol := by
  obtain ⟨mark, n, hmark, -⟩ := h
  obtain ⟨w', rfl⟩ : ∃ w', w = '#' :: '*' :: w' := by
    unfold mark? at hmark
    split at hmark
    · exact absurd (hw '~' (by simp)) (by decide)
    · exact ⟨_, rfl⟩
    · exact ⟨_, rfl⟩
    · exact absurd (hw '\'' (by simp)) (by decide)
    · exact absurd (hw '\x60' (by simp)) (by decide)
    · exact absurd (hw '~' (by simp)) (by decide)
    · cases hmark
  refine ⟨⟨w', rfl⟩, ?_⟩
  simp [WordKind.classify, WordKind.isKeyword, WordKind.isFloat, WordKind.isInteger, WordKind.dropSign]

theorem endsIn_of_unsettled (h : form.IsAt p stop) (hn : build ∅ form = .ok n) (hunsettled : form.Unsettled) :
    n.EndsIn fun name ↦ ['#', '*'] <+: name.toList := by
  induction form using Form.induct generalizing p n with
  | word kind w s =>
    obtain ⟨htoken, -, rfl, rfl, -⟩ := h
    obtain ⟨hsign, hkind⟩ := exists_of_dangling hunsettled htoken.chars stop.rest
    rw [hkind] at hn
    cases hn
    exact ⟨_, _, Node.self_mem_subnodes _, rfl, by simpa using hsign⟩
  | string inner s => exact hunsettled.elim
  | marked mark body s ih =>
    obtain ⟨k, -, hbody, rfl⟩ := h
    obtain ⟨m, hm, rfl⟩ := exists_of_build_marked hn
    obtain ⟨name, s, hs, hstop, hname⟩ := ih hbody hm hunsettled
    refine ⟨name, s, ?_, ?_, hname⟩
    · simp [Node.form, Node.subnodes, Node.subnodesAll, hs]
    · rw [hstop, span_of_isAt hbody hm]
      rfl
  | tagged tag body s ih => exact absurd hn build_tagged_ne_ok
  | sequence d items s ih => exact hunsettled.elim

end Form

/-- Two texts that can be read are read as one, with a line end between them. What is built of the second stands as many bytes
later as come before it. The last token of the first text may be any but a symbol that begins with the sign of unpacking: what
follows such a symbol is what it unpacks. -/
theorem readAll_append_line {s t : String} {ns ms : List Node} (hs : readAll s = .ok ns) (ht : readAll t = .ok ms)
    (hlast : ∀ n ∈ ns.getLast?, ¬n.EndsIn fun name ↦ ['#', '*'] <+: name.toList) :
    readAll (s ++ "\n" ++ t) = .ok (ns ++ ms.map (Node.shift (s.utf8ByteSize + 1))) := by
  obtain ⟨forms, last, hforms, hend, hns⟩ := readAll_eq_ok_iff.mp hs
  obtain ⟨forms', last', hforms', hend', hms⟩ := readAll_eq_ok_iff.mp ht
  have hsettled : ∀ form ∈ forms.getLast?, ¬form.Unsettled := by
    intro form hform hunsettled
    obtain ⟨n, hn, hbuild⟩ := Form.getLast?_of_buildAll hns hform
    obtain ⟨p, stop, hisAt⟩ := hforms.exists_isAt (List.mem_of_getLast? hform)
    exact hlast n hn (Form.endsIn_of_unsettled hisAt hbuild hunsettled)
  have hbehind := hforms'.shift (s.utf8ByteSize + 1)
  have hmove : (Cursor.ofList t.toList).move (s.utf8ByteSize + 1) [] = ⟨(Cursor.ofList s.toList).stop + 1, t.toList⟩ := by
    simp [Cursor.move, Cursor.ofList, Cursor.stop, Cursor.byteLength_toList]
  rw [hmove] at hbehind
  have hall := hforms.append hend hsettled hbehind
  have htext : (Cursor.ofList s.toList).move 0 ('\n' :: t.toList) = .ofList (s ++ "\n" ++ t).toList := by
    simp [Cursor.move, Cursor.ofList]
  rw [htext] at hall
  refine readAll_eq_ok_iff.mpr ⟨_, _, hall, by simp [Cursor.move, hend'], ?_⟩
  have hbuild := Form.buildAll_append (Form.buildAll_shift hns 0) (Form.buildAll_shift hms (s.utf8ByteSize + 1))
  have hzero : ns.map (Node.shift 0) = ns := (List.map_congr_left fun n _ ↦ n.shift_zero).trans ns.map_id
  rwa [hzero] at hbuild

/-- A symbol that begins with the sign of unpacking may end a form that is closed. A comment at the end is over with its line. -/
theorem readAll_append_line_comment :
    let ns : List Node := [.form [.symbol "f" ⟨1, 2⟩, .symbol "#*" ⟨3, 5⟩] ⟨0, 6⟩, .literal (.int 1) ⟨7, 8⟩]
    let ms : List Node := [.symbol "x" ⟨0, 1⟩]
    readAll "(f #*) 1 ; c" = .ok ns ∧ readAll "x" = .ok ms ∧
    (∀ n ∈ ns.getLast?, ¬n.EndsIn fun name ↦ ['#', '*'] <+: name.toList) ∧
    readAll ("(f #*) 1 ; c" ++ "\n" ++ "x") = .ok (ns ++ ms.map (Node.shift ("(f #*) 1 ; c".utf8ByteSize + 1))) := by
  intro ns ms
  have hs : readAll "(f #*) 1 ; c" = .ok ns := rfl
  have ht : readAll "x" = .ok ms := rfl
  have hlast : ∀ n ∈ ns.getLast?, ¬n.EndsIn fun name ↦ ['#', '*'] <+: name.toList := by
    simp [ns, Node.EndsIn, Node.subnodes]
  exact ⟨hs, ht, hlast, readAll_append_line hs ht hlast⟩

/-- It is not enough that the last token is no bare sign of unpacking. A tag behind the sign is part of the word, until a form
follows that the tag is for. -/
theorem not_readAll_append_line_of_not_bare : ¬∀ (s t : String) (ns ms : List Node), readAll s = .ok ns →
    readAll t = .ok ms → (∀ n ∈ ns.getLast?, ¬n.EndsIn fun name ↦ name = "#*" ∨ name = "#**") →
    readAll (s ++ "\n" ++ t) = .ok (ns ++ ms.map (Node.shift (s.utf8ByteSize + 1))) := by
  intro h
  have hs : readAll "#*#foo" = .ok [.symbol "#*#foo" ⟨0, 6⟩] := rfl
  have ht : readAll "x" = .ok [.symbol "x" ⟨0, 1⟩] := rfl
  have hlast : ∀ n ∈ [Node.symbol "#*#foo" ⟨0, 6⟩].getLast?, ¬n.EndsIn fun name ↦ name = "#*" ∨ name = "#**" := by
    simp [Node.EndsIn, Node.subnodes]
  have hfails : (readAll ("#*#foo" ++ "\n" ++ "x")).isOk = false := by decide +kernel
  rw [h _ _ _ _ hs ht hlast] at hfails
  cases hfails

end MacroLisp
