import MacroLisp.Proofs.Reader.Grammar
import MacroLisp.Proofs.Reader.Progress

namespace MacroLisp

/-- The errors of the grammar. All others come up when a form that was found is built. -/
inductive ReadError.IsGrammatical : ReadError → Prop
  | endOfInput : IsGrammatical endOfInput
  | noForm (atStart : Bool) (offset : ℕ) : IsGrammatical (noForm atStart offset)

def ReaderMacros.Extends (R' R : ReaderMacros) : Prop :=
  ∀ (tag : String) (m : ReaderMacro), R[tag]? = some m → ∃ m' : ReaderMacro, R'[tag]? = some m' ∧ m'.apply = m.apply

namespace Form

variable {R R' : ReaderMacros} {m : ReaderMacro} {form : Form} {forms : List Form} {tag : List Char} {s : Span}
  {body n : Node} {ns : List Node} {e : ReadError}

theorem build_tagged (hm : R[String.ofList tag]? = some m) (hbody : build R form = .ok body) (s : Span) :
    build R (.tagged tag form s) =
      (m.apply body).mapError fun message ↦ .readerMacroFailed (String.ofList tag) message s := by
  simp only [build, hm, hbody, bind, Except.bind]
  cases m.apply body <;> rfl

theorem build_tagged_of_error (hm : R[String.ofList tag]? = some m) (hbody : build R form = .error e) (s : Span) :
    build R (.tagged tag form s) = .error e := by
  simp only [build, hm, hbody, bind, Except.bind]

theorem build_tagged_of_none (hm : R[String.ofList tag]? = none) (s : Span) :
    build R (.tagged tag form s) = .error (.unknownTag (String.ofList tag) s) := by
  simp only [build, hm]

theorem exists_of_build_tagged (h : build R (.tagged tag form s) = .ok n) :
    ∃ m body, R[String.ofList tag]? = some m ∧ build R form = .ok body ∧ m.apply body = .ok n := by
  cases hm : R[String.ofList tag]? with
  | none =>
    rw [build_tagged_of_none hm] at h
    cases h
  | some m =>
    cases hbody : build R form with
    | error e =>
      rw [build_tagged_of_error hm hbody] at h
      cases h
    | ok body =>
      rw [build_tagged hm hbody] at h
      cases happly : m.apply body with
      | error message =>
        rw [happly] at h
        cases h
      | ok n' =>
        rw [happly] at h
        cases h
        exact ⟨m, body, rfl, rfl, happly⟩

theorem buildAll_of_forall (hforms : ∀ form ∈ forms, ∀ n, build R form = .ok n → build R' form = .ok n)
    (h : buildAll R forms = .ok ns) : buildAll R' forms = .ok ns := by
  induction forms generalizing ns with
  | nil => exact h
  | cons form forms ih =>
    obtain ⟨hform, hrest⟩ := List.forall_mem_cons.mp hforms
    obtain ⟨m, ms, hm, hms, rfl⟩ := exists_of_buildAll_cons h
    rw [buildAll, hform m hm, ih hrest hms]
    rfl

theorem build_of_extends (hR : R'.Extends R) (h : build R form = .ok n) : build R' form = .ok n := by
  induction form using Form.induct generalizing n with
  | word kind w s => exact h
  | string inner s => exact h
  | marked mark body s ih =>
    obtain ⟨m, hm, rfl⟩ := exists_of_build_marked h
    rw [build, ih hm]
    rfl
  | tagged tag body s ih =>
    obtain ⟨m, m', hlookup, hbody, happly⟩ := exists_of_build_tagged h
    obtain ⟨twin, htwin, hsame⟩ := hR _ _ hlookup
    rw [build_tagged htwin (ih hbody), hsame, happly]
    rfl
  | sequence d items s ih =>
    obtain ⟨ms, hms, rfl⟩ := exists_of_build_sequence h
    rw [build, buildAll_of_forall (fun form hform n ↦ ih form hform) hms]
    rfl

theorem not_isGrammatical_of_buildAll (hforms : ∀ form ∈ forms, ∀ e, build R form = .error e → ¬e.IsGrammatical)
    (h : buildAll R forms = .error e) : ¬e.IsGrammatical := by
  induction forms with
  | nil => cases h
  | cons form forms ih =>
    obtain ⟨hform, hrest⟩ := List.forall_mem_cons.mp hforms
    rw [buildAll] at h
    cases hm : build R form with
    | error e' =>
      rw [hm] at h
      cases h
      exact hform _ hm
    | ok m =>
      cases hms : buildAll R forms with
      | error e' =>
        rw [hm, hms] at h
        cases h
        exact ih hrest hms
      | ok ms =>
        rw [hm, hms] at h
        cases h

theorem not_isGrammatical_of_build (h : build R form = .error e) : ¬e.IsGrammatical := by
  induction form using Form.induct generalizing e with
  | word kind w s =>
    cases kind with
    | keyword | float | symbol => cases h
    | integer =>
      rw [build, buildWord] at h
      split at h <;> cases h
      rintro ⟨⟩
  | string inner s => cases h
  | marked mark body s ih =>
    rw [build] at h
    cases hbody : build R body with
    | error e' =>
      rw [hbody] at h
      cases h
      exact ih hbody
    | ok m =>
      rw [hbody] at h
      cases h
  | tagged tag body s ih =>
    cases hm : R[String.ofList tag]? with
    | none =>
      rw [build_tagged_of_none hm] at h
      cases h
      rintro ⟨⟩
    | some m =>
      cases hbody : build R body with
      | error e' =>
        rw [build_tagged_of_error hm hbody] at h
        cases h
        exact ih hbody
      | ok n =>
        rw [build_tagged hm hbody] at h
        cases happly : m.apply n <;> rw [happly] at h <;> cases h
        rintro ⟨⟩
  | sequence d items s ih =>
    rw [build] at h
    cases hitems : buildAll R items with
    | error e' =>
      rw [hitems] at h
      cases h
      exact not_isGrammatical_of_buildAll (fun form hform e ↦ ih form hform) hitems
    | ok ms =>
      rw [hitems] at h
      cases h

end Form

namespace Reader

variable {p : Cursor} {R R' : ReaderMacros} {e : ReadError} {n : Node}

theorem read_of_isGrammatical (he : e.IsGrammatical) (h : (⟨p, R⟩ : Reader).read.1 = .error e) (R' : ReaderMacros) :
    (⟨p, R'⟩ : Reader).read = (.error e, ⟨(⟨p, R⟩ : Reader).read.2.cursor, R'⟩) := by
  cases hr : (⟨p, R⟩ : Reader).isExhausted with
  | true =>
    have hr' : (⟨p, R'⟩ : Reader).isExhausted = true := hr
    rw [read_of_isExhausted hr] at h ⊢
    cases h
    rw [read_of_isExhausted hr']
  | false =>
    have hr' : (⟨p, R'⟩ : Reader).isExhausted = false := hr
    cases hform : (Form.find p.skip).result with
    | none =>
      simp only [read, hr, hr', hform, Bool.false_eq_true, if_false] at h ⊢
      cases h
      rfl
    | some found =>
      obtain ⟨form, stop⟩ := found
      cases hn : form.build R with
      | error e' =>
        simp only [read, hr, hform, hn, Bool.false_eq_true, if_false] at h
        cases h
        exact absurd he (Form.not_isGrammatical_of_build hn)
      | ok n =>
        rw [read_of_find hr hform hn] at h
        cases h

theorem exists_stop_of_read (h : (⟨p, R⟩ : Reader).read.1 = .ok n) :
    ∃ form stop, (Form.find p.skip).result = some (form, stop) ∧ form.build R = .ok n ∧
      (⟨p, R⟩ : Reader).read = (.ok n, ⟨stop, R⟩) := by
  obtain ⟨form, stop, -, hform, hn, hr'⟩ := exists_of_read_ok (Prod.ext h rfl)
  exact ⟨form, stop, hform, hn, Prod.ext h hr'⟩

/-- Two readers at one place that differ in their macros cut the text alike. If one of them meets an error of the grammar,
so does the other. Where both read a form, they go on at one place. And if the second has the macros of the first, it
reads whatever the first reads. -/
theorem read_cut_by_grammar (p : Cursor) (R R' : ReaderMacros) :
    let r : Reader := ⟨p, R⟩
    let r' : Reader := ⟨p, R'⟩
    (∀ e : ReadError, e.IsGrammatical → r.read.1 = .error e →
      r'.read.1 = .error e ∧ r'.read.2.cursor = r.read.2.cursor) ∧
    (∀ n n', r.read.1 = .ok n → r'.read.1 = .ok n' → r'.read.2.cursor = r.read.2.cursor) ∧
    (R'.Extends R → ∀ n, r.read.1 = .ok n → r'.read.1 = .ok n ∧ r'.read.2.cursor = r.read.2.cursor) := by
  intro r r'
  refine ⟨fun e he h ↦ ?_, fun n n' h h' ↦ ?_, fun hR n h ↦ ?_⟩
  · rw [read_of_isGrammatical he h R']
    exact ⟨rfl, rfl⟩
  · obtain ⟨form, stop, hform, -, hread⟩ := exists_stop_of_read h
    obtain ⟨form', stop', hform', -, hread'⟩ := exists_stop_of_read h'
    rw [hform] at hform'
    cases hform'
    rw [hread, hread']
  · obtain ⟨form, stop, hform, hn, hread⟩ := exists_stop_of_read h
    have hr : r'.isExhausted = false := by
      obtain ⟨-, -, hr, -⟩ := exists_of_read_ok hread
      exact hr
    have hread' : r'.read = (.ok n, { r' with cursor := stop }) :=
      read_of_find hr hform (Form.build_of_extends hR hn)
    rw [hread, hread']
    exact ⟨rfl, rfl⟩

def pairing : ReaderMacro := ⟨"pair", "m", fun n ↦ .ok (.form [n, n] n.span)⟩

def identity : ReaderMacro := ⟨"id", "m", .ok⟩

/-- A tag in a sequence behind a mark behind a tag. The second reader knows one more tag. -/
theorem read_cut_by_grammar_nestedTags :
    let R : ReaderMacros := (∅ : ReaderMacros).insert "pair" pairing
    let R' : ReaderMacros := R.insert "id" identity
    let p := Cursor.ofList "#pair '[#pair x] #id y".toList
    R'.Extends R ∧ ∃ n, (⟨p, R⟩ : Reader).read.1 = .ok n ∧ n.text = "((quote [(x x)]) (quote [(x x)]))" ∧
      (⟨p, R'⟩ : Reader).read.1 = .ok n ∧ (⟨p, R'⟩ : Reader).read.2.cursor = (⟨p, R⟩ : Reader).read.2.cursor := by
  intro R R' p
  have hextends : R'.Extends R := by
    intro tag m hm
    have hne : "id" ≠ tag := by
      rintro rfl
      simp [R] at hm
    exact ⟨m, by simpa [R', Std.TreeMap.getElem?_insert, hne] using hm, rfl⟩
  have hrun : (⟨p, R⟩ : Reader).read.1.toOption.map Node.text = some "((quote [(x x)]) (quote [(x x)]))" := by
    decide +kernel
  obtain ⟨n, hn, htext⟩ := Option.map_eq_some_iff.mp hrun
  have hread : (⟨p, R⟩ : Reader).read.1 = .ok n := by
    generalize (⟨p, R⟩ : Reader).read.1 = result at hn
    cases result <;> cases hn
    rfl
  exact ⟨hextends, n, hread, htext, (read_cut_by_grammar p R R').2.2 hextends n hread⟩

end Reader

end MacroLisp
