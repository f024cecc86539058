import MacroLisp.Proofs.Reader.Extent
import MacroLisp.Proofs.Reader.Layout
import MacroLisp.Proofs.Reader.RoundTrip

namespace MacroLisp

namespace Form

open Cursor (isBlank isTerminator)

variable {as bs : List Char} {p q : Cursor}

section Build

variable {macros : ReaderMacros} {form : Form} {forms : List Form} {d : Delimiter} {mark : Mark} {s : Span} {n : Node}
  {ns : List Node}

theorem exists_of_build_marked (h : build macros (.marked mark form s) = .ok n) :
    ∃ m, build macros form = .ok m ∧ n = .form [.symbol mark.head s, m] s := by
  rw [build] at h
  cases hbody : build macros form with
  | error e =>
    rw [hbody] at h
    cases h
  | ok m =>
    rw [hbody] at h
    cases h
    exact ⟨m, rfl, rfl⟩

theorem exists_of_build_sequence (h : build macros (.sequence d forms s) = .ok n) :
    ∃ ms, buildAll macros forms = .ok ms ∧ n = .sequence d ms s := by
  rw [build] at h
  cases hitems : buildAll macros forms with
  | error e =>
    rw [hitems] at h
    cases h
  | ok ms =>
    rw [hitems] at h
    cases h
    exact ⟨ms, rfl, rfl⟩

theorem exists_of_buildAll_cons (h : buildAll macros (form :: forms) = .ok ns) :
    ∃ m ms, build macros form = .ok m ∧ buildAll macros forms = .ok ms ∧ ns = m :: ms := by
  rw [buildAll] at h
  cases hfirst : build macros form with
  | error e =>
    rw [hfirst] at h
    cases h
  | ok m =>
    cases hrest : buildAll macros forms with
    | error e =>
      rw [hfirst, hrest] at h
      cases h
    | ok ms =>
      rw [hfirst, hrest] at h
      cases h
      exact ⟨m, ms, rfl, rfl, rfl⟩

theorem build_tagged_ne_ok {tag : List Char} : build ∅ (.tagged tag form s) ≠ .ok n := by
  intro h
  rw [build] at h
  simp at h

end Build

/-- What is built from the one form is built from the other too, but for the spans. -/
def Builds (form form' : Form) : Prop := ∀ n, build ∅ form = .ok n → ∃ m, build ∅ form' = .ok m ∧ m.bare = n.bare

def BuildsAll (forms forms' : List Form) : Prop :=
  ∀ ns, buildAll ∅ forms = .ok ns → ∃ ms, buildAll ∅ forms' = .ok ms ∧ ms.map Node.bare = ns.map Node.bare

theorem builds_word (kind : WordKind) (w : List Char) (s s' : Span) : Builds (.word kind w s) (.word kind w s') := by
  intro n hn
  cases kind with
  | keyword | float | symbol =>
    cases hn
    exact ⟨_, rfl, rfl⟩
  | integer =>
    rw [build, buildWord] at hn
    split at hn
    · next hrange =>
      cases hn
      exact ⟨.literal (.int (Int64.ofInt (intOfWord w))) s', by rw [build, buildWord, if_pos hrange], rfl⟩
    · cases hn

theorem builds_string (inner : List Char) (s s' : Span) : Builds (.string inner s) (.string inner s') := by
  intro n hn
  cases hn
  exact ⟨_, rfl, rfl⟩

variable {form form' : Form} {forms forms' : List Form}

theorem Builds.marked (h : Builds form form') (mark : Mark) (s s' : Span) :
    Builds (.marked mark form s) (.marked mark form' s') := by
  intro n hn
  obtain ⟨body, hbody, rfl⟩ := exists_of_build_marked hn
  obtain ⟨body', hbody', hbare⟩ := h body hbody
  refine ⟨.form [.symbol mark.head s', body'] s', ?_, by simp [Node.form, Node.bare, hbare]⟩
  rw [build, hbody']
  rfl

theorem builds_tagged (tag : List Char) (s s' : Span) : Builds (.tagged tag form s) (.tagged tag form' s') :=
  fun _ hn ↦ absurd hn build_tagged_ne_ok

theorem BuildsAll.sequence (h : BuildsAll forms forms') (d : Delimiter) (s s' : Span) :
    Builds (.sequence d forms s) (.sequence d forms' s') := by
  intro n hn
  obtain ⟨ns, hns, rfl⟩ := exists_of_build_sequence hn
  obtain ⟨ms, hms, hbare⟩ := h ns hns
  refine ⟨.sequence d ms s', ?_, by simp [Node.bare, hbare]⟩
  rw [build, hms]
  rfl

theorem buildsAll_nil : BuildsAll [] [] := fun ns h ↦ ⟨ns, h, rfl⟩

theorem Builds.cons (h : Builds form form') (hall : BuildsAll forms forms') :
    BuildsAll (form :: forms) (form' :: forms') := by
  intro ns hns
  obtain ⟨n, ns', hn, hns', rfl⟩ := exists_of_buildAll_cons hns
  obtain ⟨m, hm, hbare⟩ := h n hn
  obtain ⟨ms, hms, hbares⟩ := hall ns' hns'
  refine ⟨m :: ms, ?_, by simp [hbare, hbares]⟩
  rw [buildAll, hm, hms]
  rfl

/-- Nothing was found at either of two places, or forms from which the same is built, which are over at places in step. -/
inductive Agree : Option (Form × Cursor) → Option (Form × Cursor) → Prop
  | missed : Agree none none
  | found {form form' : Form} {stop stop' : Cursor} (hbuilds : Builds form form')
      (hstop : Relaid .code stop.rest stop'.rest) : Agree (some (form, stop)) (some (form', stop'))

variable {x y x' y' : Option (Form × Cursor)}

theorem Agree.marked (mark : Mark) (o o' : ℕ) (hleaf : Agree x' y') : Agree x y →
    Agree (match x with | some (form, stop) => some (.marked mark form ⟨o, stop.offset⟩, stop) | none => x')
      (match y with | some (form, stop) => some (.marked mark form ⟨o', stop.offset⟩, stop) | none => y') := by
  intro h
  cases h with
  | missed => exact hleaf
  | found hbuilds hstop => exact .found (hbuilds.marked mark _ _) hstop

theorem Agree.tagged (h : Agree x y) (tag : List Char) (o o' : ℕ) :
    Agree (x.map fun (form, stop) ↦ (.tagged tag form ⟨o, stop.offset⟩, stop))
      (y.map fun (form, stop) ↦ (.tagged tag form ⟨o', stop.offset⟩, stop)) := by
  cases h with
  | missed => exact .missed
  | found _ hstop => exact .found (builds_tagged tag _ _) hstop

theorem word?_agree (h : Relaid .code p.rest q.rest) : Agree (word? p) (word? q) := by
  obtain ⟨hword, hdrop⟩ := relaid_wordAt h
  unfold word?
  simp only [← hword]
  split
  · exact .missed
  · have hkind := classify_of_relaid hdrop (wordAt p.rest)
    refine .found ?_ hdrop
    simp only [Cursor.advance] at hkind ⊢
    rw [hkind]
    exact builds_word _ _ _ _

theorem leaf?_agree (h : Relaid .code p.rest q.rest) : Agree (leaf? p) (leaf? q) := by
  by_cases hquote : p.rest.head? = some '"'
  · obtain ⟨as, has⟩ := List.head?_eq_some_iff.mp hquote
    rw [has] at h
    obtain ⟨bs, hbs, hstring⟩ := h.exists_cons (by decide)
    rw [leaf?_of_quote has, leaf?_of_quote hbs]
    cases hp : stringInner (p.offset + 1) as with
    | some found =>
      obtain ⟨inner, stop⟩ := found
      obtain ⟨stop', hstop', hrest⟩ := stringInner_of_relaid hstring hp (q.offset + 1)
      rw [hstop']
      exact .found (builds_string _ _ _) hrest
    | none =>
      cases hq : stringInner (q.offset + 1) bs with
      | none => exact .missed
      | some found =>
        obtain ⟨stop', hstop', -⟩ := stringInner_of_relaid hstring.symm hq (p.offset + 1)
        rw [hstop'] at hp
        cases hp
  · have hquote' : q.rest.head? ≠ some '"' := fun hq ↦ hquote ((head?_eq_of_relaid h (by decide)).mpr hq)
    rw [leaf?_of_ne hquote, leaf?_of_ne hquote']
    exact word?_agree h

theorem opened?_of_relaid (h : Relaid .code as bs) : as.head?.bind opened? = bs.head?.bind opened? := by
  have hlayout : ∀ {cs : List Char}, StartsLayout cs → cs.head?.bind opened? = none := by
    rintro cs ⟨c, hc, hlayout⟩
    rw [Option.mem_def.mp hc, Option.bind_some]
    unfold opened?
    split <;> simp_all [isBlank]
  cases h with
  | nil => rfl
  | char c h => rfl
  | gap ha hb h => rw [hlayout ha, hlayout hb]

theorem relaid_tail_of_opened {d : Delimiter} (h : Relaid .code as bs) (hopened : as.head?.bind opened? = some d) :
    Relaid .code (as.drop 1) (bs.drop 1) ∧ as ≠ [] ∧ bs ≠ [] := by
  cases as with
  | nil => cases hopened
  | cons c as =>
    have hc : (isBlank c = false ∧ c ≠ ';') ∧ c ≠ '"' := by
      rw [List.head?_cons, Option.bind_some] at hopened
      unfold opened? at hopened
      split at hopened <;> first | decide | cases hopened
    obtain ⟨bs, rfl, htail⟩ := h.exists_cons fun _ ↦ hc.1
    rw [Region.next_code_of_ne hc.2 hc.1.2] at htail
    exact ⟨htail, by simp, by simp⟩

theorem relaid_tail_of_closing {d : Delimiter} (h : Relaid .code as bs) (hclosing : as.head? = some d.closing) :
    Relaid .code (as.drop 1) (bs.drop 1) := by
  obtain ⟨as, rfl⟩ := List.head?_eq_some_iff.mp hclosing
  obtain ⟨bs, rfl, htail⟩ := h.exists_cons fun _ ↦ by cases d <;> decide
  rw [Region.next_code_of_ne (by cases d <;> decide) (by cases d <;> decide)] at htail
  exact htail

variable {fuel fuel' : ℕ}

/-- At places in step the same is found, if there is enough fuel on both sides. -/
def FormsAgree (fuel : ℕ) : Prop :=
  ∀ fuel' p q, Relaid .code p.rest q.rest → 2 * p.rest.length < fuel → 2 * q.rest.length < fuel' →
    Agree (attempt fuel p).result (attempt fuel' q).result

def ItemsAgree (fuel : ℕ) : Prop :=
  ∀ fuel' p q, Relaid .code p.rest q.rest → 2 * p.rest.length + 1 < fuel → 2 * q.rest.length + 1 < fuel' →
    BuildsAll (attemptItems fuel p).1 (attemptItems fuel' q).1 ∧
      Relaid .code (attemptItems fuel p).2.1.rest (attemptItems fuel' q).2.1.rest

theorem FormsAgree.behind (hforms : FormsAgree fuel) {n : ℕ} (h : Relaid .code (p.rest.drop n) (q.rest.drop n))
    (hpos : 0 < n) (hlp : n ≤ p.rest.length) (hlq : n ≤ q.rest.length) (hp : 2 * p.rest.length ≤ fuel)
    (hq : 2 * q.rest.length ≤ fuel') :
    Agree (attempt fuel (p.advance n).skip).result (attempt fuel' (q.advance n).skip).result := by
  have hp' := (p.advance n).length_rest_skip_le
  have hq' := (q.advance n).length_rest_skip_le
  rw [length_rest_advance] at hp' hq'
  exact hforms fuel' _ _ (Relaid.skip h) (by omega) (by omega)

theorem ItemsAgree.result_attempt {d : Delimiter} (hitems : ItemsAgree fuel) (h : Relaid .code p.rest q.rest)
    (hp : 2 * p.rest.length ≤ fuel) (hq : 2 * q.rest.length ≤ fuel') (hmarkP : mark? p.rest = none)
    (hmarkQ : mark? q.rest = none) (htagP : isTag (wordAt p.rest) = false) (htagQ : isTag (wordAt q.rest) = false)
    (hopenedP : p.rest.head?.bind opened? = some d) (hopenedQ : q.rest.head?.bind opened? = some d) :
    Agree (attempt (fuel + 1) p).result (attempt (fuel' + 1) q).result := by
  obtain ⟨htail, hpne, hqne⟩ := relaid_tail_of_opened h hopenedP
  have hppos := List.length_pos_iff.mpr hpne
  have hqpos := List.length_pos_iff.mpr hqne
  obtain ⟨hbuilds, hlast⟩ := hitems fuel' (p.advance 1) (q.advance 1) htail
    (by rw [length_rest_advance]; omega) (by rw [length_rest_advance]; omega)
  have hclosing := head?_eq_of_relaid (c := d.closing) hlast (by cases d <;> decide)
  rw [result_attempt_of_opened hmarkP htagP hopenedP, result_attempt_of_opened hmarkQ htagQ hopenedQ]
  dsimp only
  split_ifs with hleft hright hright
  · exact .found (hbuilds.sequence d _ _) (relaid_tail_of_closing hlast hleft)
  · exact absurd (hclosing.mp hleft) hright
  · exact absurd (hclosing.mpr hright) hleft
  · exact .missed

theorem FormsAgree.succ (hforms : FormsAgree fuel) (hitems : ItemsAgree fuel) : FormsAgree (fuel + 1) := by
  intro fuel' p q h hp hq
  obtain ⟨fuel', rfl⟩ : ∃ k, fuel' = k + 1 := ⟨fuel' - 1, by omega⟩
  obtain ⟨hmark, hmarkDrop⟩ := relaid_mark? h
  obtain ⟨hword, hwordDrop⟩ := relaid_wordAt h
  have hopened := opened?_of_relaid h
  cases hmarkP : mark? p.rest with
  | some found =>
    obtain ⟨mark, n⟩ := found
    have hmarkQ : mark? q.rest = some (mark, n) := by rw [← hmark, hmarkP]
    obtain ⟨hpos, hlp⟩ := length_of_mark? hmarkP
    obtain ⟨-, hlq⟩ := length_of_mark? hmarkQ
    have hbody : Agree (attempt fuel (p.advance n).skip).result (attempt fuel' (q.advance n).skip).result :=
      hforms.behind (hmarkDrop mark n hmarkP) hpos
      (hlp.trans (List.takeWhile_sublist _).length_le) (hlq.trans (List.takeWhile_sublist _).length_le)
      (by omega) (by omega)
    rw [result_attempt_of_mark hmarkP, result_attempt_of_mark hmarkQ]
    exact Agree.marked mark _ _ (leaf?_agree h) hbody
  | none =>
    have hmarkQ : mark? q.rest = none := by rw [← hmark, hmarkP]
    cases htagP : isTag (wordAt p.rest) with
    | true =>
      have htagQ : isTag (wordAt q.rest) = true := by rw [← hword, htagP]
      have hpos : 0 < (wordAt p.rest).length := List.length_pos_iff.mpr fun hnil ↦ by simp [hnil, isTag] at htagP
      have hbody : Agree (attempt fuel (p.advance (wordAt p.rest).length).skip).result
          (attempt fuel' (q.advance (wordAt p.rest).length).skip).result :=
        hforms.behind hwordDrop hpos (List.takeWhile_sublist _).length_le
        (hword ▸ (List.takeWhile_sublist _).length_le) (by omega) (by omega)
      rw [result_attempt_of_tag hmarkP htagP, result_attempt_of_tag hmarkQ htagQ, ← hword]
      exact hbody.tagged _ _ _
    | false =>
      have htagQ : isTag (wordAt q.rest) = false := by rw [← hword, htagP]
      cases hopenedP : p.rest.head?.bind opened? with
      | some d =>
        have hopenedQ : q.rest.head?.bind opened? = some d := by rw [← hopened, hopenedP]
        exact hitems.result_attempt h (Nat.lt_succ_iff.mp (by omega)) (Nat.lt_succ_iff.mp (by omega))
          hmarkP hmarkQ htagP htagQ
          hopenedP hopenedQ
      | none =>
        rw [result_attempt_of_leaf hmarkP htagP hopenedP, result_attempt_of_leaf hmarkQ htagQ (by rw [← hopened, hopenedP])]
        exact leaf?_agree h

theorem ItemsAgree.succ (hforms : FormsAgree fuel) (hitems : ItemsAgree fuel) : ItemsAgree (fuel + 1) := by
  intro fuel' p q h hp hq
  obtain ⟨fuel', rfl⟩ : ∃ k, fuel' = k + 1 := ⟨fuel' - 1, by omega⟩
  have hskip := Relaid.skip h
  have hps := p.length_rest_skip_le
  have hqs := q.length_rest_skip_le
  have hfirst := hforms fuel' p.skip q.skip hskip (by omega) (by omega)
  simp only [attemptItems]
  generalize hx : (attempt fuel p.skip).result = x at hfirst
  generalize hy : (attempt fuel' q.skip).result = y at hfirst
  cases hfirst with
  | missed => exact ⟨buildsAll_nil, hskip⟩
  | found hbuilds hstop =>
    have hlp := length_rest_attempt_lt hx
    have hlq := length_rest_attempt_lt hy
    obtain ⟨hall, hlast⟩ := hitems fuel' _ _ hstop (by omega) (by omega)
    exact ⟨hbuilds.cons hall, hlast⟩

theorem agree (fuel : ℕ) : FormsAgree fuel ∧ ItemsAgree fuel := by
  induction fuel with
  | zero => exact ⟨fun _ _ _ _ h ↦ absurd h (Nat.not_lt_zero _), fun _ _ _ _ h ↦ absurd h (Nat.not_lt_zero _)⟩
  | succ fuel ih => exact ⟨ih.1.succ ih.2, ih.2.succ ih.1⟩

theorem find_agree (h : Relaid .code p.rest q.rest) : Agree (find p).result (find q).result :=
  (agree _).1 _ p q h (by simp only [fuelFor]; omega) (by simp only [fuelFor]; omega)

end Form

namespace Reader

variable {r r' : Reader} {ns : List Node}

/-- The forms of a text that was read to its end, by which is meant that nothing but layout is left. -/
def complete : List Node × Option ReadError × Reader → Except ReadError (List Node)
  | (ns, none, _) => .ok ns
  | (ns, some e, r) => if e = .endOfInput ∧ r.isExhausted then .ok ns else .error e

theorem readAll_eq (source : String) :
    readAll source = complete ((ofString source).drain (source.toList.length + 1)) := rfl

theorem isExhausted_of_relaid (h : Relaid .code r.cursor.rest r'.cursor.rest) (hr : r.isExhausted = true) :
    r'.isExhausted = true := by
  rw [isExhausted, List.isEmpty_iff] at hr ⊢
  have hskip := Relaid.skip h
  rw [hr] at hskip
  exact hskip.eq_nil

theorem complete_drain_of_isExhausted (hr : r.isExhausted = true) (limit : ℕ) :
    complete (r.drain (limit + 1)) = .ok [] := by
  have hskip : ({ r with cursor := r.cursor.skip } : Reader).isExhausted = true := by
    rwa [isExhausted, Cursor.rest_skip_skip]
  rw [drain, read, if_pos hr]
  exact if_pos ⟨rfl, hskip⟩

theorem complete_drain_of_find {form : Form} {stop : Cursor} {m : Node} (hr : r.isExhausted = false)
    (hform : (Form.find r.cursor.skip).result = some (form, stop)) (hm : form.build r.macros = .ok m) (limit : ℕ) :
    complete (r.drain (limit + 1)) = (complete (({ r with cursor := stop } : Reader).drain limit)).map (m :: ·) := by
  rw [drain, read_of_find hr hform hm]
  dsimp only
  obtain ⟨ns, e, r'⟩ := ({ r with cursor := stop } : Reader).drain limit
  cases e with
  | none => rfl
  | some e =>
    simp only [complete]
    split_ifs <;> rfl

theorem find_of_complete_drain {limit : ℕ} (hr : r.isExhausted = false) (hns : complete (r.drain (limit + 1)) = .ok ns) :
    ∃ form stop m ns', (Form.find r.cursor.skip).result = some (form, stop) ∧ form.build r.macros = .ok m ∧
      complete (({ r with cursor := stop } : Reader).drain limit) = .ok ns' ∧ ns = m :: ns' := by
  cases hform : (Form.find r.cursor.skip).result with
  | none => simp [drain, read, hr, hform, complete] at hns
  | some found =>
    obtain ⟨form, stop⟩ := found
    cases hm : form.build r.macros with
    | error e => simp [drain, read, hr, hform, hm, complete] at hns
    | ok m =>
      rw [complete_drain_of_find hr hform hm] at hns
      cases hrest : complete (({ r with cursor := stop } : Reader).drain limit) with
      | error e =>
        rw [hrest] at hns
        cases hns
      | ok ns' =>
        rw [hrest] at hns
        cases hns
        exact ⟨form, stop, m, ns', rfl, hm, hrest, rfl⟩

theorem complete_drain_of_relaid {limit limit' : ℕ} (h : Relaid .code r.cursor.rest r'.cursor.rest)
    (hmacros : r.macros = ∅) (hmacros' : r'.macros = ∅) (hl : r.cursor.rest.length < limit)
    (hl' : r'.cursor.rest.length < limit') (hns : complete (r.drain limit) = .ok ns) :
    ∃ ms, complete (r'.drain limit') = .ok ms ∧ ms.map Node.bare = ns.map Node.bare := by
  induction limit generalizing limit' r r' ns with
  | zero => exact absurd hl (Nat.not_lt_zero _)
  | succ limit ih =>
    obtain ⟨limit', rfl⟩ : ∃ k, limit' = k + 1 := ⟨limit' - 1, by omega⟩
    cases hr : r.isExhausted with
    | true =>
      rw [complete_drain_of_isExhausted hr] at hns
      cases hns
      exact ⟨[], complete_drain_of_isExhausted (isExhausted_of_relaid h hr) limit', rfl⟩
    | false =>
      have hr' : r'.isExhausted = false :=
        Bool.eq_false_iff.mpr fun hr' ↦ by simp [isExhausted_of_relaid h.symm hr'] at hr
      obtain ⟨form, stop, n, ns', hform, hn, hrest, rfl⟩ := find_of_complete_drain hr hns
      have hagree := Form.find_agree (Relaid.skip h)
      rw [hform] at hagree
      generalize hform' : (Form.find r'.cursor.skip).result = y at hagree
      cases hagree with
      | @found _ _ _ stop' hbuilds hstop =>
        obtain ⟨m, hm, hbare⟩ := hbuilds n (hmacros ▸ hn)
        have hlp := (Form.length_rest_attempt_lt hform).trans_le r.cursor.length_rest_skip_le
        have hlq := (Form.length_rest_attempt_lt hform').trans_le r'.cursor.length_rest_skip_le
        have hrelaid : Relaid .code ({ r with cursor := stop } : Reader).cursor.rest
          ({ r' with cursor := stop' } : Reader).cursor.rest := hstop
        have hshort : ({ r with cursor := stop } : Reader).cursor.rest.length < limit := by
          dsimp only
          omega
        have hshort' : ({ r' with cursor := stop' } : Reader).cursor.rest.length < limit' := by
          dsimp only
          omega
        obtain ⟨ms, hms, hbares⟩ := ih hrelaid hmacros hmacros' hshort hshort' hrest
        refine ⟨m :: ms, ?_, by simp [hbare, hbares]⟩
        rw [complete_drain_of_find hr' hform' (hmacros'.symm ▸ hm), hms]
        rfl

end Reader

theorem readAll_of_relaid {s t : String} {ns : List Node} (h : Relaid .code s.toList t.toList) (hns : readAll s = .ok ns) :
    ∃ ms, readAll t = .ok ms ∧ ms.map Node.bare = ns.map Node.bare := by
  rw [Reader.readAll_eq] at hns ⊢
  have hstart : Relaid .code (Reader.ofString s).cursor.rest (Reader.ofString t).cursor.rest := h
  exact Reader.complete_drain_of_relaid hstart rfl rfl (Nat.lt_succ_self _) (Nat.lt_succ_self _) hns

/-- Let `w` be blanks and comments that the reader passes at a place where it is neither in a string nor in a comment, all
that are there. Other layout in their place makes no difference to what is read. -/
theorem readAll_layout {pre w post w' : List Char} {ns : List Node} (hpre : pre.foldl Region.next .code = .code)
    (hw : w ≠ []) (hskip : (Cursor.ofList (w ++ post)).skip.rest = post) (hw' : w' ≠ []) (hlayout : Layout w')
    (hns : readAll (String.ofList (pre ++ w ++ post)) = .ok ns) :
    ∃ ms, readAll (String.ofList (pre ++ w' ++ post)) = .ok ms ∧ ms.map Node.bare = ns.map Node.bare := by
  refine readAll_of_relaid ?_ hns
  rw [String.toList_ofList, String.toList_ofList, List.append_assoc, List.append_assoc]
  refine Relaid.append pre ?_
  rw [hpre]
  have hpost : (Cursor.ofList post).skip.rest = post := by
    have hagain := Cursor.rest_skip_skip (.ofList (w ++ post))
    rwa [Cursor.rest_skip, hskip] at hagain
  refine .gap (startsLayout_of_rest_skip_ne fun h ↦ hw ?_) (hlayout.startsLayout_append hw' post) ?_
  · rw [hskip] at h
    simpa using congrArg List.length h
  · rw [hskip, hlayout.rest_skip_append, hpost]
    exact .refl .code post

/-- A comment between a symbol and a number, with a quote in it and a string behind it. -/
theorem readAll_layout_comment :
    let pre := "(#* a".toList
    let w := " ;; \"\n ".toList
    let post := "1 \"; \\\"\" #*)".toList
    let w' := ";\n".toList
    (pre.foldl Region.next .code = .code ∧ w ≠ [] ∧ (Cursor.ofList (w ++ post)).skip.rest = post ∧ w' ≠ [] ∧ Layout w') ∧
      ∃ ns ms, readAll (String.ofList (pre ++ w ++ post)) = .ok ns ∧ readAll (String.ofList (pre ++ w' ++ post)) = .ok ms ∧
        ms.map Node.bare = ns.map Node.bare := by
  intro pre w post w'
  have hlayout : Layout w' := .comment [] (by simp) .nil
  obtain ⟨ns, hns⟩ : ∃ ns, readAll (String.ofList (pre ++ w ++ post)) = .ok ns := by
    have hok : (readAll (String.ofList (pre ++ w ++ post))).isOk = true := by decide +kernel
    cases hread : readAll (String.ofList (pre ++ w ++ post)) with
    | ok ns => exact ⟨ns, rfl⟩
    | error e =>
      rw [hread] at hok
      cases hok
  have hcode : pre.foldl Region.next .code = .code := by decide
  have hskip : (Cursor.ofList (w ++ post)).skip.rest = post := by decide
  obtain ⟨ms, hms, hbare⟩ := readAll_layout hcode (by decide) hskip (by decide) hlayout hns
  exact ⟨⟨hcode, by decide, hskip, by decide, hlayout⟩, ns, ms, hns, hms, hbare⟩

end MacroLisp
