import MacroLisp.Proofs.Reader.Places
import MacroLisp.Proofs.Reader.RoundTrip

namespace MacroLisp

open Binary64 (AllDigits natOfDigits)
open Cursor (byteLength isBlank isTerminator isSymbolChar)

variable {w body ds ws fs es rest : List Char} {c : Char} {negative : Bool} {i e : ℤ} {x : Binary64}

inductive Signed : List Char → Bool → List Char → Prop
  | unsigned (body : List Char) : Signed body false body
  | plus (body : List Char) : Signed ('+' :: body) false body
  | minus (body : List Char) : Signed ('-' :: body) true body

/-- An optional sign and digits, and the integer that they stand for. -/
inductive IntegerWord : List Char → ℤ → Prop
  | signed {w ds : List Char} {negative : Bool} (hsign : Signed w negative ds) (hne : ds ≠ []) (hds : AllDigits ds) :
      IntegerWord w (if negative then -natOfDigits ds else natOfDigits ds)

/-- Nothing, or an exponent. -/
inductive ExponentText : List Char → ℤ → Prop
  | absent : ExponentText [] 0
  | present {c : Char} {cs : List Char} {e : ℤ} (hc : c = 'e' ∨ c = 'E') (h : IntegerWord cs e) : ExponentText (c :: cs) e

/-- An optional sign, digits, a point, digits and an optional exponent, and the float nearest to what they stand for. -/
inductive FloatWord : List Char → Binary64 → Prop
  | signed {w ws fs es : List Char} {negative : Bool} {e : ℤ} (hsign : Signed w negative (ws ++ '.' :: (fs ++ es)))
      (hne : ws ≠ []) (hws : AllDigits ws) (hne' : fs ≠ []) (hfs : AllDigits fs) (hes : ExponentText es e) :
      FloatWord w (.ofDecimal negative (natOfDigits (ws ++ fs)) (e - fs.length))

inductive KeywordWord : List Char → List Char → Prop
  | colon {name : List Char} (hne : name ≠ []) : KeywordWord (':' :: name) name

theorem exists_signed (w : List Char) : ∃ negative, Signed w negative (WordKind.dropSign w) := by
  unfold WordKind.dropSign
  split
  · exact ⟨_, .minus _⟩
  · exact ⟨_, .plus _⟩
  · exact ⟨_, .unsigned _⟩

theorem Signed.cases_digit (h : Signed w negative body) (hne : ds ≠ []) (hds : AllDigits ds) (hbody : body = ds ++ rest) :
    (negative = true ∧ w = '-' :: body) ∨ (negative = false ∧ w = '+' :: body) ∨
      (negative = false ∧ ∃ d cs, w = d :: cs ∧ body = d :: cs ∧ d ≠ '-' ∧ d ≠ '+' ∧ d ≠ ':') := by
  cases h with
  | minus => exact .inl ⟨rfl, rfl⟩
  | plus => exact .inr (.inl ⟨rfl, rfl⟩)
  | unsigned =>
    obtain ⟨d, ds, rfl⟩ := List.exists_cons_of_ne_nil hne
    have hd := hds d (by simp)
    have hsign : ∀ c : Char, c.isDigit = false → d ≠ c := by
      rintro c hc rfl
      exact absurd hd (by simp [hc])
    exact .inr (.inr ⟨rfl, d, ds ++ rest, hbody, hbody, hsign '-' rfl, hsign '+' rfl, hsign ':' rfl⟩)

theorem Signed.dropSign_eq (h : Signed w negative body) (hne : ds ≠ []) (hds : AllDigits ds) (hbody : body = ds ++ rest) :
    WordKind.dropSign w = body := by
  rcases h.cases_digit hne hds hbody with ⟨-, rfl⟩ | ⟨-, rfl⟩ | ⟨-, d, cs, rfl, rfl, hminus, hplus, -⟩
  · rfl
  · rfl
  · simp [WordKind.dropSign, hminus, hplus]

theorem Signed.isKeyword_eq_false (h : Signed w negative body) (hne : ds ≠ []) (hds : AllDigits ds)
    (hbody : body = ds ++ rest) : WordKind.isKeyword w = false := by
  rcases h.cases_digit hne hds hbody with ⟨-, rfl⟩ | ⟨-, rfl⟩ | ⟨-, d, cs, rfl, rfl, -, -, hcolon⟩
  · rfl
  · rfl
  · unfold WordKind.isKeyword
    split
    · next he => exact absurd (List.cons.inj he).1 hcolon
    · rfl

namespace IntegerWord

theorem isInteger (h : IntegerWord w i) : WordKind.isInteger w = true := by
  obtain ⟨hsign, hne, hds⟩ := h
  rw [WordKind.isInteger, hsign.dropSign_eq hne hds (List.append_nil _).symm, List.all_eq_true.mpr hds]
  simpa using hne

theorem isFloat_eq_false (h : IntegerWord w i) : WordKind.isFloat w = false := by
  obtain ⟨hsign, hne, hds⟩ := h
  rw [WordKind.isFloat, hsign.dropSign_eq hne hds (List.append_nil _).symm, (Binary64.span_digits hds).2]

theorem isKeyword_eq_false (h : IntegerWord w i) : WordKind.isKeyword w = false := by
  obtain ⟨hsign, hne, hds⟩ := h
  exact hsign.isKeyword_eq_false hne hds (List.append_nil _).symm

theorem intOfWord_eq (h : IntegerWord w i) : Form.intOfWord w = i := by
  obtain ⟨hsign, hne, hds⟩ := h
  rcases hsign.cases_digit hne hds (List.append_nil _).symm with
    ⟨rfl, rfl⟩ | ⟨rfl, rfl⟩ | ⟨rfl, d, cs, rfl, rfl, hminus, hplus, -⟩
  · rfl
  · rfl
  · simp [Form.intOfWord, WordKind.dropSign, hminus, hplus]

theorem exponentOfText_eq (h : IntegerWord w i) : Binary64.exponentOfText w = some i := by
  obtain ⟨hsign, hne, hds⟩ := h
  have hall := List.all_eq_true.mpr hds
  rcases hsign.cases_digit hne hds (List.append_nil _).symm with
    ⟨rfl, rfl⟩ | ⟨rfl, rfl⟩ | ⟨rfl, d, cs, rfl, rfl, hminus, hplus, -⟩
  · simp [Binary64.exponentOfText, hne, hall]
  · simp [Binary64.exponentOfText, hne, hall]
  · rw [List.all_cons] at hall
    simp [Binary64.exponentOfText, hminus, hplus, hall]

end IntegerWord

theorem isInteger_iff : WordKind.isInteger w = true ↔ ∃ i, IntegerWord w i := by
  constructor
  · intro h
    obtain ⟨negative, hsign⟩ := exists_signed w
    simp only [WordKind.isInteger, Bool.and_eq_true, Bool.not_eq_true', List.isEmpty_eq_false_iff, List.all_eq_true] at h
    exact ⟨_, .signed hsign h.1 h.2⟩
  · rintro ⟨i, h⟩
    exact h.isInteger

theorem isExponent_iff : WordKind.isExponent es = true ↔ ∃ e, ExponentText es e := by
  constructor
  · intro h
    cases es with
    | nil => exact ⟨0, .absent⟩
    | cons c cs =>
      simp only [WordKind.isExponent, Bool.and_eq_true, decide_eq_true_eq] at h
      obtain ⟨e, he⟩ := isInteger_iff.mp h.2
      exact ⟨e, .present h.1 he⟩
  · rintro ⟨e, h⟩
    cases h with
    | absent => rfl
    | present hc h => simp [WordKind.isExponent, hc, h.isInteger]

theorem ExponentText.span_append (h : ExponentText es e) (hfs : AllDigits fs) :
    (fs ++ es).takeWhile Char.isDigit = fs ∧ (fs ++ es).dropWhile Char.isDigit = es := by
  refine Text.span_append hfs ?_
  cases h with
  | absent => rfl
  | present hc _ => rcases hc with rfl | rfl <;> rfl

theorem ExponentText.exponent_eq (h : ExponentText es e) :
    (es = [] ∧ e = 0) ∨ ∃ c cs, es = c :: cs ∧ (c = 'e' ∨ c = 'E') ∧ Binary64.exponentOfText cs = some e := by
  cases h with
  | absent => exact .inl ⟨rfl, rfl⟩
  | present hc h => exact .inr ⟨_, _, rfl, hc, h.exponentOfText_eq⟩

namespace FloatWord

theorem isFloat (h : FloatWord w x) : WordKind.isFloat w = true := by
  cases h with
  | @signed ws fs es _ _ hsign hne hws hne' hfs hes =>
    obtain ⟨htake, hdrop⟩ := Binary64.span_point hws (fs ++ es)
    obtain ⟨htake', hdrop'⟩ := hes.span_append hfs
    simp [WordKind.isFloat, hsign.dropSign_eq hne hws rfl, htake, hdrop, htake', hdrop', hne, hne',
      isExponent_iff.mpr ⟨_, hes⟩]

theorem isKeyword_eq_false (h : FloatWord w x) : WordKind.isKeyword w = false := by
  obtain ⟨hsign, hne, hws, -, -, -⟩ := h
  exact hsign.isKeyword_eq_false hne hws rfl

theorem ofText?_eq (h : FloatWord w x) : Binary64.ofText? w = some x := by
  cases h with
  | @signed ws fs es _ e hsign hne hws hne' hfs hes =>
    obtain ⟨htake, hdrop⟩ := Binary64.span_point hws (fs ++ es)
    obtain ⟨htake', hdrop'⟩ := hes.span_append hfs
    generalize fs ++ es = tail at *
    generalize hbody : ws ++ '.' :: tail = body at *
    have hexponent := hes.exponent_eq
    rcases hsign.cases_digit hne hws hbody.symm with
      ⟨rfl, rfl⟩ | ⟨rfl, rfl⟩ | ⟨rfl, d, cs, rfl, rfl, hminus, hplus, -⟩
    all_goals
      rcases hexponent with ⟨rfl, rfl⟩ | ⟨c, cs, rfl, hc, hcs⟩
      · simp [Binary64.ofText?, *]
      · simp [Binary64.ofText?, *]

end FloatWord

theorem isFloat_iff : WordKind.isFloat w = true ↔ ∃ x, FloatWord w x := by
  constructor
  · intro h
    obtain ⟨negative, hsign⟩ := exists_signed w
    unfold WordKind.isFloat at h
    split at h
    · next rest hrest =>
      simp only [Bool.and_eq_true, Bool.not_eq_true', List.isEmpty_eq_false_iff] at h
      obtain ⟨⟨hne, hne'⟩, hes⟩ := h
      obtain ⟨e, hes⟩ := isExponent_iff.mp hes
      have hwhole := List.takeWhile_append_dropWhile (p := Char.isDigit) (l := WordKind.dropSign w)
      rw [hrest, ← List.takeWhile_append_dropWhile (p := Char.isDigit) (l := rest)] at hwhole
      rw [← hwhole] at hsign
      exact ⟨_, .signed hsign hne (fun _ ↦ List.mem_takeWhile_imp) hne' (fun _ ↦ List.mem_takeWhile_imp) hes⟩
    · cases h
  · rintro ⟨x, h⟩
    exact h.isFloat

theorem isKeyword_iff : WordKind.isKeyword w = true ↔ ∃ name, KeywordWord w name := by
  constructor
  · intro h
    unfold WordKind.isKeyword at h
    split at h
    · exact ⟨_, .colon (List.cons_ne_nil _ _)⟩
    · cases h
  · rintro ⟨name, ⟨hne⟩⟩
    obtain ⟨c, cs, rfl⟩ := List.exists_cons_of_ne_nil hne
    rfl

namespace Reader

variable {r : Reader}

def placeOf (r : Reader) (w : List Char) : Span := ⟨r.position, r.position + byteLength w⟩

def behind (r : Reader) (w rest : List Char) : Reader := { r with cursor := ⟨r.position + byteLength w, rest⟩ }

theorem read_word (hword : Form.IsWord w) (hrest : r.cursor.rest = w ++ rest) (hends : Form.EndsWord rest) :
    r.read = match Form.buildWord (WordKind.classify w rest) w (r.placeOf w) with
      | .ok n => (.ok n, r.behind w rest)
      | .error e => (.error e, r) := by
  obtain ⟨⟨o, cs⟩, macros⟩ := r
  obtain rfl : cs = w ++ rest := hrest
  have hskip := Form.skip_of_start hword.ne_nil (Form.start_of_isWord hword) o rest
  have hfound := hword.attempt_result hends (2 * (w ++ rest).length + 1) o
  have hfind : (Form.find ⟨o, w ++ rest⟩).result = _ := hfound
  simp only [read, isExhausted, hskip, hfind, Form.build]
  have hne : (w ++ rest).isEmpty = false := by simp [hword.ne_nil]
  simp only [hne, Bool.false_eq_true, if_false]
  rfl

end Reader

theorem inInt64_iff : Form.inInt64 i = true ↔ -2 ^ 63 ≤ i ∧ i < 2 ^ 63 := by
  have hmin : Int64.minValue.toInt = -2 ^ 63 := by decide
  have hmax : Int64.maxValue.toInt = 2 ^ 63 - 1 := by decide
  simp only [Form.inInt64, hmin, hmax, Bool.and_eq_true, decide_eq_true_eq]
  omega

/-- Atoms are told apart by their shapes alone, wherever they stand and whatever reader macros are in force. With the end of
the text, a blank, a delimiter, a quote of a string or a semicolon behind it, a word with the shape of an integer is that
integer, or is refused if there is no such integer; a word with the shape of a float is that float; a colon with a name is a
keyword; and every other word is a symbol. In front of a quote, a backquote or a tilde there are only keywords and symbols.
Whatever is read, all of the word is taken, and nothing else. -/
theorem atom_read_by_shape {r : Reader} (hne : w ≠ []) (hchars : ∀ c ∈ w, isSymbolChar c = true)
    (hsign : w.head? ≠ some '#') (hrest : r.cursor.rest = w ++ rest) :
    ((∀ c ∈ rest.head?, isTerminator c = true) →
      (∀ i, IntegerWord w i →
        (-2 ^ 63 ≤ i ∧ i < 2 ^ 63 → ∃ v : Int64, v.toInt = i ∧
          r.read = (.ok (.literal (.int v) (r.placeOf w)), r.behind w rest)) ∧
        (¬(-2 ^ 63 ≤ i ∧ i < 2 ^ 63) → ∃ e, r.read = (.error e, r) ∧ e.code = "quasi::read::syntax" ∧
          e.label? = some ⟨r.position, byteLength w, "here"⟩)) ∧
      (∀ x, FloatWord w x → r.read = (.ok (.literal (.float x) (r.placeOf w)), r.behind w rest)) ∧
      (∀ name, KeywordWord w name →
        r.read = (.ok (.literal (.keyword (.ofList name)) (r.placeOf w)), r.behind w rest)) ∧
      ((∀ i, ¬IntegerWord w i) → (∀ x, ¬FloatWord w x) → (∀ name, ¬KeywordWord w name) →
        r.read = (.ok (.symbol (.ofList w) (r.placeOf w)), r.behind w rest))) ∧
    ((∃ c ∈ rest.head?, c = '\'' ∨ c = '\x60' ∨ c = '~') →
      (∀ name, KeywordWord w name →
        r.read = (.ok (.literal (.keyword (.ofList name)) (r.placeOf w)), r.behind w rest)) ∧
      ((∀ name, ¬KeywordWord w name) → r.read = (.ok (.symbol (.ofList w) (r.placeOf w)), r.behind w rest))) := by
  have hword : Form.IsWord w := ⟨hne, hchars, fun h ↦ absurd h hsign⟩
  have hkeyword : ∀ name, KeywordWord w name → WordKind.isKeyword w = true ∧ w.drop 1 = name := by
    intro name h
    refine ⟨isKeyword_iff.mpr ⟨name, h⟩, ?_⟩
    cases h
    rfl
  have hother : (∀ name, ¬KeywordWord w name) → WordKind.isKeyword w = false := fun h ↦
    Bool.eq_false_iff.mpr fun hw ↦ (isKeyword_iff.mp hw).elim h
  constructor
  · intro hend
    have hread := Reader.read_word hword hrest (Form.IsEnd.endsWord hend)
    rw [Form.classify_of_isEnd hend] at hread
    refine ⟨fun i hi ↦ ?_, fun x hx ↦ ?_, fun name hname ↦ ?_, fun hint hfloat hname ↦ ?_⟩
    · simp only [hi.isKeyword_eq_false, hi.isFloat_eq_false, hi.isInteger, Bool.false_eq_true, if_false, if_true,
        Form.buildWord, hi.intOfWord_eq] at hread
      refine ⟨fun hrange ↦ ?_, fun hrange ↦ ?_⟩
      · rw [if_pos (inInt64_iff.mpr hrange)] at hread
        exact ⟨.ofInt i, Int64.toInt_ofInt_of_le hrange.1 hrange.2, hread⟩
      · rw [if_neg (mt inInt64_iff.mp hrange)] at hread
        refine ⟨_, hread, rfl, ?_⟩
        have hpos := Cursor.byteLength_pos hne
        simp only [ReadError.label?, ReadError.Label.ofSpan, Reader.placeOf, Span.length]
        congr
        omega
    · simpa [hx.isKeyword_eq_false, hx.isFloat, Form.buildWord, hx.ofText?_eq] using hread
    · simpa [(hkeyword name hname).1, Form.buildWord, (hkeyword name hname).2] using hread
    · have hint' : WordKind.isInteger w = false := Bool.eq_false_iff.mpr fun hw ↦ (isInteger_iff.mp hw).elim hint
      have hfloat' : WordKind.isFloat w = false := Bool.eq_false_iff.mpr fun hw ↦ (isFloat_iff.mp hw).elim hfloat
      simpa [hother hname, hint', hfloat', Form.buildWord] using hread
  · rintro ⟨c, hc, hquote⟩
    obtain ⟨rest, rfl⟩ := List.head?_eq_some_iff.mp hc
    have hends : isTerminator c = false ∧ isSymbolChar c = false := by
      rcases hquote with rfl | rfl | rfl <;> decide
    have hread := Reader.read_word hword hrest fun c' hc' ↦ by
      obtain rfl := Option.some.inj hc'
      exact hends.2
    simp only [WordKind.classify, hends.1, Bool.false_and, Bool.false_eq_true, if_false] at hread
    refine ⟨fun name hname ↦ ?_, fun hname ↦ ?_⟩
    · simpa [(hkeyword name hname).1, Form.buildWord, (hkeyword name hname).2] using hread
    · simpa [hother hname, Form.buildWord] using hread

/-- One more than the greatest integer, in front of a comment. -/
theorem atom_read_by_shape_tooGreat :
    let w := '+' :: "9223372036854775808".toList
    let r : Reader := ⟨⟨7, w ++ [';']⟩, ∅⟩
    (w ≠ [] ∧ (∀ c ∈ w, isSymbolChar c = true) ∧ w.head? ≠ some '#' ∧ r.cursor.rest = w ++ [';'] ∧
      (∀ c ∈ [';'].head?, isTerminator c = true) ∧ IntegerWord w (2 ^ 63)) ∧
      ∃ e, r.read = (.error e, r) ∧ e.code = "quasi::read::syntax" ∧ e.label? = some ⟨7, 20, "here"⟩ := by
  intro w r
  have hne : w ≠ [] := by decide
  have hchars : ∀ c ∈ w, isSymbolChar c = true := List.all_eq_true.mp (by decide)
  have hsign : w.head? ≠ some '#' := by decide
  have hend : ∀ c ∈ [';'].head?, isTerminator c = true := by simp [isTerminator]
  have hds : AllDigits "9223372036854775808".toList := List.all_eq_true.mp (by decide)
  have hvalue : (natOfDigits "9223372036854775808".toList : ℤ) = 2 ^ 63 := by decide
  have hint : IntegerWord w (2 ^ 63) := by
    rw [← hvalue]
    exact .signed (.plus _) (by decide) hds
  exact ⟨⟨hne, hchars, hsign, rfl, hend, hint⟩,
    (((atom_read_by_shape hne hchars hsign rfl).1 hend).1 _ hint).2 (by decide)⟩

end MacroLisp
