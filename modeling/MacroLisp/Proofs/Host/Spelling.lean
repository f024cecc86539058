import MacroLisp.Proofs.Host.Grammar
import MacroLisp.Proofs.Text.Runs

namespace MacroLisp.Host

variable {A : Alphabet} {ok ok' : Char → Bool} {text text' : List Char} {ts us : List Token} {c : Char} {s : String}

/-- The text falls into the tokens, provided that it ends there or a suitable character follows. -/
def Spells (A : Alphabet) (ok : Char → Bool) (text : List Char) (ts : List Token) : Prop :=
  ∀ rest : List Char, rest.head?.all ok = true → lex A (text ++ rest) = (lex A rest).map (ts ++ ·)

def anything (_ : Char) : Bool := true

/-- What may follow an expression. A point may follow only some. -/
def closes (point : Bool) (c : Char) : Bool := [' ', ')', ',', ']', '\x7d', ':', '('].contains c || point && c == '.'

theorem Spells.mono (h : Spells A ok text ts) (hok : ∀ c, ok' c = true → ok c = true) : Spells A ok' text ts := by
  intro rest hr
  refine h rest ?_
  cases rest with
  | nil => rfl
  | cons c rest => exact hok c hr

theorem Spells.append (h : Spells A ok text ts) (h' : Spells A ok' text' us)
    (hok : ∀ rest : List Char, rest.head?.all ok' = true → (text' ++ rest).head?.all ok = true) :
    Spells A ok' (text ++ text') (ts ++ us) := by
  intro rest hr
  rw [List.append_assoc, h _ (hok rest hr), h' rest hr, Option.map_map]
  congr 1
  funext vs
  exact (List.append_assoc ts us vs).symm

theorem Spells.append_cons (h : Spells A ok text ts) (h' : Spells A ok' (c :: text') us) (hc : ok c = true) :
    Spells A ok' (text ++ c :: text') (ts ++ us) :=
  h.append h' fun _ _ ↦ hc

theorem spells_nil : Spells A ok [] [] := by
  intro rest _
  simp

theorem spells_blank : Spells A anything [' '] [] := by
  intro rest _
  rw [List.singleton_append, lex_blank rfl]
  simp

theorem Spells.lex_eq (h : Spells A ok text ts) : lex A text = some ts := by
  have hl := h [] rfl
  simpa using hl

theorem spells_token {tok : Token} (hc : isBlank c = false)
    (h : ∀ rest : List Char, rest.head?.all ok = true → readToken A (c :: text ++ rest) = some (tok, rest)) :
    Spells A ok (c :: text) [tok] := fun rest hr ↦ lex_token hc (h rest hr)

theorem closes_mono {point : Bool} (h : closes point c = true) : closes true c = true := by
  cases point with
  | true => exact h
  | false => simp_all [closes]

theorem Alphabet.part_closes (A : Alphabet) {point : Bool} (h : closes point c = true) : A.part c = false := by
  have h' := closes_mono h
  simp only [closes, List.contains_cons, List.contains_nil, Bool.or_false, Bool.true_and, Bool.or_eq_true,
    beq_iff_eq] at h'
  rcases h' with (rfl | rfl | rfl | rfl | rfl | rfl | rfl) | rfl <;> exact A.part_ascii _ (by decide)

theorem isQuote_closes {point : Bool} (h : closes point c = true) : isQuote c = false := by
  have h' := closes_mono h
  simp only [closes, List.contains_cons, List.contains_nil, Bool.or_false, Bool.true_and, Bool.or_eq_true,
    beq_iff_eq] at h'
  rcases h' with (rfl | rfl | rfl | rfl | rfl | rfl | rfl) | rfl <;> rfl

theorem head?_any_eq_false {p : Char → Bool} {rest : List Char} (h : rest.head?.all ok = true)
    (hp : ∀ c, ok c = true → p c = false) : rest.head?.any p = false := by
  cases rest with
  | nil => rfl
  | cons c rest => exact hp c h

theorem isBlank_of_start (h : A.start c = true) : isBlank c = false := by
  by_contra hb
  simp only [isBlank, Bool.or_eq_true, beq_iff_eq, Bool.not_eq_false] at hb
  rcases hb with (rfl | rfl) | rfl <;> simp [A.start_ascii] at h

def Alphabet.endsWord (A : Alphabet) (c : Char) : Bool := !A.part c && !isQuote c

theorem Alphabet.endsWord_closes (A : Alphabet) {point : Bool} (h : closes point c = true) : A.endsWord c = true := by
  simp [endsWord, A.part_closes h, isQuote_closes h]

theorem spells_word (h : A.isIdentifierChars s.toList = true) :
    Spells A A.endsWord s.toList [if reservedWords.contains s then .mark s else .name s] := by
  cases hs : s.toList with
  | nil => simp [Alphabet.isIdentifierChars, hs] at h
  | cons c cs =>
    simp only [hs, Alphabet.isIdentifierChars, Bool.and_eq_true, List.all_eq_true] at h
    refine spells_token (isBlank_of_start h.1) fun rest hr ↦ ?_
    have hall : ∀ d ∈ c :: cs, A.part d = true := by
      intro d hd
      rcases List.mem_cons.mp hd with rfl | hd
      · exact A.part_of_start d h.1
      · exact h.2 d hd
    have hpart : rest.head?.any A.part = false := head?_any_eq_false hr fun d hd ↦ by
      simp only [Alphabet.endsWord, Bool.and_eq_true, Bool.not_eq_true'] at hd
      exact hd.1
    have hquote : rest.head?.any isQuote = false := head?_any_eq_false hr fun d hd ↦ by
      simp only [Alphabet.endsWord, Bool.and_eq_true, Bool.not_eq_true'] at hd
      exact hd.2
    obtain ⟨ht, hd⟩ := Text.span_append hall hpart
    have hword : String.ofList (c :: cs) = s := by rw [← hs, String.ofList_toList]
    rw [List.cons_append] at ht hd ⊢
    rw [readToken, if_pos h.1, readWord]
    simp only [ht, hd, hword, hquote]
    rfl

theorem spells_name (h : A.isName s = true) : Spells A A.endsWord s.toList [.name s] := by
  simp only [Alphabet.isName, Bool.and_eq_true, Bool.not_eq_true'] at h
  have hw := spells_word h.1
  rwa [h.2] at hw

theorem isIdentifierChars_of_reserved (h : s ∈ reservedWords) : A.isIdentifierChars s.toList = true := by
  have hall : ∀ w ∈ reservedWords, w.toList ≠ [] ∧ w.toList.all (fun c ↦ c.toNat < 128 ∧ c.isAlpha) = true := by
    decide
  obtain ⟨hne, hc⟩ := hall s h
  simp only [List.all_eq_true, decide_eq_true_eq] at hc
  cases hs : s.toList with
  | nil => exact absurd hs hne
  | cons c cs =>
    rw [hs] at hc
    have hstart := hc c (by simp)
    simp only [Alphabet.isIdentifierChars, Bool.and_eq_true, List.all_eq_true, A.start_ascii c hstart.1, hstart.2,
      Bool.or_true, true_and]
    intro d hd
    have hpart := hc d (by simp [hd])
    simp [A.part_ascii d hpart.1, Char.isAlphanum, hpart.2]

theorem spells_reserved (h : s ∈ reservedWords) : Spells A A.endsWord s.toList [.mark s] := by
  have hw := spells_word (A := A) (isIdentifierChars_of_reserved h)
  rwa [List.contains_iff_mem.mpr h] at hw

theorem isAlpha_of_isDigit (h : c.isDigit = true) : c.isAlpha = false := by
  unfold Char.isDigit at h
  unfold Char.isAlpha Char.isUpper Char.isLower
  grind

theorem start_of_isDigit (h : c.isDigit = true) : A.start c = false := by
  have hlt : c.toNat < 128 := by
    simp only [Char.isDigit, Bool.and_eq_true, decide_eq_true_eq, UInt32.le_iff_toNat_le] at h
    exact lt_of_le_of_lt h.2 (by decide)
  have hne : c ≠ '_' := by
    rintro rfl
    cases h
  simp [A.start_ascii c hlt, isAlpha_of_isDigit h, hne]

theorem isBlank_of_isDigit (h : c.isDigit = true) : isBlank c = false := by
  by_contra hb
  simp only [isBlank, Bool.or_eq_true, beq_iff_eq, Bool.not_eq_false] at hb
  rcases hb with (rfl | rfl) | rfl <;> simp at h

theorem readToken_of_isDigit {rest : List Char} (h : c.isDigit = true) :
    readToken A (c :: rest) = readNumber A (c :: rest) := by
  have hn : startsNumber (c :: rest) = true := by
    cases rest <;> simp [startsNumber, h]
  rw [readToken, start_of_isDigit h, hn]
  rfl

theorem isDigit_closes {point : Bool} (h : closes point c = true) : c.isDigit = false := by
  have h' := closes_mono h
  simp only [closes, List.contains_cons, List.contains_nil, Bool.or_false, Bool.true_and, Bool.or_eq_true,
    beq_iff_eq] at h'
  rcases h' with (rfl | rfl | rfl | rfl | rfl | rfl | rfl) | rfl <;> rfl

theorem head?_toDigits {n : ℕ} (hn : 0 < n) : (Nat.toDigits 10 n).head? ≠ some '0' := by
  induction n using Nat.strongRecOn with
  | ind n ih =>
    rcases Nat.lt_or_ge n 10 with hlt | hge
    · have hdigit : ∀ m < 10, 0 < m → m.digitChar ≠ '0' := by decide
      simp [Nat.toDigits_of_lt_base hlt, hdigit n hlt hn]
    · rw [Nat.toDigits_of_base_le (by decide) hge, List.head?_append_of_ne_nil _ Nat.toDigits_ne_nil]
      exact ih (n / 10) (by omega) (by omega)

theorem leading_toDigits (n : ℕ) :
    ((Nat.toDigits 10 n).head? == some '0' && (Nat.toDigits 10 n).any (· != '0')) = false := by
  rcases Nat.eq_zero_or_pos n with rfl | hn
  · rfl
  · simp [head?_toDigits hn]

theorem spells_int (n : ℕ) : Spells A (closes false) (Nat.toDigits 10 n) [.int n] := by
  have hall := Binary64.allDigits_toDigits n
  have hlead := leading_toDigits n
  have hvalue := Binary64.natOfDigits_toDigits n
  cases hd : Nat.toDigits 10 n with
  | nil => exact absurd hd Nat.toDigits_ne_nil
  | cons c cs =>
    rw [hd] at hall hlead hvalue
    have hc := hall c (by simp)
    refine spells_token (isBlank_of_isDigit hc) fun rest hr ↦ ?_
    obtain ⟨ht, hd⟩ := Text.span_append hall (head?_any_eq_false hr fun _ ↦ isDigit_closes)
    have hpart := head?_any_eq_false hr fun _ ↦ A.part_closes
    have hpoint : ∀ behind, rest ≠ '.' :: behind := by
      rintro behind rfl
      cases hr
    rw [List.cons_append] at ht hd ⊢
    rw [readToken_of_isDigit hc, readNumber, ht, hd]
    split
    · exact absurd rfl (hpoint _)
    · rw [hpart, hlead, hvalue]
      rfl

theorem spells_float {x : Binary64} (hx : x.isFinite = true) (hs : x.isNegative = false) :
    Spells A (closes true) x.text.toList [.float x] := by
  obtain ⟨ws, fs, h⟩ := Binary64.exists_point hx hs
  rw [h.text_eq]
  obtain ⟨w, ws, rfl⟩ := List.exists_cons_of_ne_nil h.whole_ne_nil
  have hw := h.whole w (by simp)
  rw [List.cons_append]
  refine spells_token (isBlank_of_isDigit hw) fun rest hr ↦ ?_
  have hdot : ('.' :: (fs ++ rest)).head?.any Char.isDigit = false := rfl
  obtain ⟨htw, hdw⟩ := Text.span_append h.whole hdot
  obtain ⟨htf, hdf⟩ := Text.span_append h.fraction (head?_any_eq_false hr fun _ ↦ isDigit_closes)
  have hpart := head?_any_eq_false hr fun _ ↦ A.part_closes
  have hvalue := h.reads
  simp only [List.cons_append, List.append_assoc] at htw hdw hvalue ⊢
  rw [readToken_of_isDigit hw, readNumber]
  simp [htw, hdw, htf, hdf, hpart, hvalue]

theorem isQuote_quoteFor (cs : List Char) : isQuote (quoteFor cs) = true := by
  unfold quoteFor
  split <;> rfl

theorem ne_backslash_of_isQuote (h : isQuote c = true) : c ≠ '\\' := by
  rintro rfl
  cases h

theorem stringBody_escapeChar {quote : Char} (hq : isQuote quote = true) (c : Char) (rest : List Char) :
    stringBody quote (escapeChar quote c ++ rest) = (stringBody quote rest).map fun p ↦ (c :: p.1, p.2) := by
  have hself : escaped? quote = some quote := by
    simp only [isQuote, Bool.or_eq_true, beq_iff_eq] at hq
    rcases hq with rfl | rfl <;> rfl
  unfold escapeChar
  split
  · rfl
  · rfl
  · rfl
  · rfl
  · next hback hline _ hreturn =>
    by_cases hc : c = quote
    · rw [if_pos hc]
      subst hc
      simp [stringBody, hself]
    · rw [if_neg hc, List.singleton_append, stringBody, if_neg hc, if_neg (by tauto)]
      exact fun _ _ h _ ↦ hback h

theorem exists_escapeChar {quote : Char} (hq : isQuote quote = true) (c : Char) :
    ∃ d ds, escapeChar quote c = d :: ds ∧ d ≠ quote := by
  have hback := (ne_backslash_of_isQuote hq).symm
  unfold escapeChar
  split
  · exact ⟨_, _, rfl, hback⟩
  · exact ⟨_, _, rfl, hback⟩
  · exact ⟨_, _, rfl, hback⟩
  · exact ⟨_, _, rfl, hback⟩
  · split
    · exact ⟨_, _, rfl, hback⟩
    · next hc => exact ⟨_, _, rfl, hc⟩

theorem stringBody_escaped {quote : Char} (hq : isQuote quote = true) (cs rest : List Char) :
    stringBody quote (cs.flatMap (escapeChar quote) ++ quote :: rest) = some (cs, rest) := by
  induction cs with
  | nil =>
    rw [List.flatMap_nil, List.nil_append, stringBody, if_pos rfl]
    exact fun _ _ h _ ↦ ne_backslash_of_isQuote hq h
  | cons c cs ih => rw [List.flatMap_cons, List.append_assoc, stringBody_escapeChar hq, ih, Option.map_some]

theorem spells_string (s : String) : Spells A (closes true) (stringChars s.toList) [.string s] := by
  set quote := quoteFor s.toList with hquote
  have hq : isQuote quote = true := isQuote_quoteFor s.toList
  have hc : isBlank quote = false ∧ A.start quote = false ∧ ∀ rest, startsNumber (quote :: rest) = false := by
    simp only [isQuote, Bool.or_eq_true, beq_iff_eq] at hq
    rcases hq with hq | hq <;> rw [hq] <;> refine ⟨rfl, A.start_ascii _ (by decide), fun rest ↦ ?_⟩ <;>
      cases rest <;> rfl
  obtain ⟨hblank, hstart, hnumber⟩ := hc
  rw [stringChars, ← hquote, List.cons_append]
  refine spells_token hblank fun rest hr ↦ ?_
  -- Neither the string nor what follows it makes three quotes out of the first.
  have htriple : ([quote, quote].isPrefixOf (s.toList.flatMap (escapeChar quote) ++ quote :: rest)) = false := by
    cases s.toList with
    | nil =>
      cases rest with
      | nil => simp
      | cons c rest =>
        have hne : quote ≠ c := by
          intro he
          rw [← he] at hr
          simp [isQuote_closes hr] at hq
        simp [List.isPrefixOf, hne]
    | cons c cs =>
      obtain ⟨d, ds, he, hd⟩ := exists_escapeChar hq c
      simp [he, List.isPrefixOf, hd.symm]
  rw [List.cons_append, readToken, if_neg (by simp [hstart]), if_neg (by simp [hnumber]), if_pos hq, readString,
    List.append_assoc, List.singleton_append, htriple, stringBody_escaped hq]
  simp

def signStarts : List Char := "+-*/%@&|^~<>!=()[]\x7b\x7d,:;".toList

theorem readToken_of_mem_signStarts (hc : c ∈ signStarts) (cs : List Char) :
    isBlank c = false ∧ readToken A (c :: cs) = readSign (c :: cs) := by
  have hall : signStarts.all (fun c ↦ c.toNat < 128 ∧ isBlank c = false ∧ (c == '_' || c.isAlpha) = false ∧
      c.isDigit = false ∧ (c == '.') = false ∧ isQuote c = false) = true := by decide
  obtain ⟨hascii, hblank, hword, hdigit, hpoint, hquote⟩ := of_decide_eq_true (List.all_eq_true.mp hall c hc)
  have hnumber : startsNumber (c :: cs) = false := by
    cases cs <;> simp [startsNumber, hdigit, hpoint]
  refine ⟨hblank, ?_⟩
  rw [readToken, if_neg (by simp [A.start_ascii c hascii, hword]), if_neg (by simp [hnumber]), if_neg (by simp [hquote])]

theorem spells_sign (s : String) (hs : s.toList.head?.any signStarts.contains = true)
    (h : ∀ rest : List Char, rest.head?.all ok = true → readSign (s.toList ++ rest) = some (.mark s, rest)) :
    Spells A ok s.toList [.mark s] := by
  obtain ⟨c, hc, hstart⟩ := (Option.any_eq_true _ _).mp hs
  rw [List.contains_iff_mem] at hstart
  obtain ⟨cs, he⟩ := List.head?_eq_some_iff.mp hc
  rw [he] at h ⊢
  refine spells_token (readToken_of_mem_signStarts (A := A) hstart []).1 fun rest hr ↦ ?_
  rw [List.cons_append, (readToken_of_mem_signStarts hstart _).2]
  exact h rest hr

def blankOnly (c : Char) : Bool := c == ' '

theorem eq_blank_or_nil {rest : List Char} (h : rest.head?.all blankOnly = true) : rest = [] ∨ ∃ cs, rest = ' ' :: cs := by
  cases rest with
  | nil => exact .inl rfl
  | cons c cs =>
    have hc : c = ' ' := by simpa [blankOnly] using h
    exact .inr ⟨cs, by rw [hc]⟩

/-- What begins an expression never extends a sign in front of it. -/
def leads (c : Char) : Bool := c != '=' && c != '>'

theorem spells_binaryOp (op : BinaryOp) : Spells A blankOnly op.symbol.toList [op.token] := by
  have h : ∀ rest : List Char, rest.head?.all blankOnly = true →
      readSign (op.symbol.toList ++ rest) = some (.mark op.symbol, rest) := by
    intro rest hr
    rcases eq_blank_or_nil hr with rfl | ⟨cs, rfl⟩ <;> cases op <;> rfl
  have hs : op.symbol.toList.head?.any signStarts.contains = true := by cases op <;> rfl
  cases op <;> exact spells_sign _ hs h

theorem spells_word_blank (h : s ∈ reservedWords) : Spells A blankOnly s.toList [.mark s] :=
  (spells_reserved h).mono fun c hc ↦ by
    simp only [blankOnly, beq_iff_eq] at hc
    rw [hc]
    exact A.endsWord_closes (show closes true ' ' = true from rfl)

theorem all_anything (cs : List Char) : cs.head?.all anything = true := by
  cases cs <;> rfl

theorem Spells.blank_cons (h : Spells A ok text ts) : Spells A ok (' ' :: text) ts :=
  spells_blank.append h fun _ _ ↦ all_anything _

theorem spells_compareOp (op : CompareOp) : Spells A blankOnly op.symbol.toList op.tokens := by
  have hsign : ∀ s ∈ ["==", "!=", "<", "<=", ">", ">="], Spells A blankOnly s.toList [.mark s] := by
    intro s hs
    refine spells_sign s ?_ fun rest hr ↦ ?_
    · revert s
      decide
    · simp only [List.mem_cons, List.not_mem_nil, or_false] at hs
      rcases eq_blank_or_nil hr with rfl | ⟨cs, rfl⟩ <;>
        rcases hs with rfl | rfl | rfl | rfl | rfl | rfl <;> rfl
  have hwords : ∀ s ∈ reservedWords, ∀ s' ∈ reservedWords,
      Spells A blankOnly (s.toList ++ ' ' :: s'.toList) [.mark s, .mark s'] := fun s hs s' hs' ↦
    (spells_word_blank hs).append_cons (spells_word_blank hs').blank_cons rfl
  cases op with
  | eq => exact hsign "==" (by decide)
  | notEq => exact hsign "!=" (by decide)
  | lt => exact hsign "<" (by decide)
  | ltE => exact hsign "<=" (by decide)
  | gt => exact hsign ">" (by decide)
  | gtE => exact hsign ">=" (by decide)
  | is => exact spells_word_blank (s := "is") (by decide)
  | isIn => exact spells_word_blank (s := "in") (by decide)
  | isNot => exact hwords "is" (by decide) "not" (by decide)
  | notIn => exact hwords "not" (by decide) "in" (by decide)

theorem spells_delimiter (hs : s ∈ ["(", ")", "[", "]", "\x7b", "\x7d", ","]) :
    Spells A anything s.toList [.mark s] := by
  refine spells_sign s ?_ fun rest _ ↦ ?_
  · revert s
    decide
  · simp only [List.mem_cons, List.not_mem_nil, or_false] at hs
    rcases hs with rfl | rfl | rfl | rfl | rfl | rfl | rfl <;> rfl

theorem spells_colon : Spells A blankOnly [':'] [.mark ":"] := by
  refine spells_sign ":" rfl fun rest hr ↦ ?_
  rcases eq_blank_or_nil hr with rfl | ⟨cs, rfl⟩ <;> rfl

theorem spells_before_lead (hs : s ∈ ["~", "+", "-", "="]) : Spells A leads s.toList [.mark s] := by
  refine spells_sign s ?_ fun rest hr ↦ ?_
  · revert s
    decide
  · cases rest with
    | nil =>
      simp only [List.mem_cons, List.not_mem_nil, or_false] at hs
      rcases hs with rfl | rfl | rfl | rfl <;> rfl
    | cons c cs =>
      have hc : ('=' == c) = false ∧ ('>' == c) = false := by
        simp only [leads, List.head?_cons, Option.all_some, Bool.and_eq_true, bne_iff_ne] at hr
        exact ⟨beq_false_of_ne hr.1.symm, beq_false_of_ne hr.2.symm⟩
      simp only [List.mem_cons, List.not_mem_nil, or_false] at hs
      rcases hs with rfl | rfl | rfl | rfl <;>
        (simp only [readSign, signs, List.find?, List.isPrefixOf, List.cons_append, List.nil_append, String.reduceToList,
          hc]; rfl)

theorem spells_point : Spells A A.start ['.'] [.mark "."] := by
  have hstart : A.start '.' = false := A.start_ascii '.' (by decide)
  refine spells_token rfl fun rest hr ↦ ?_
  cases rest with
  | nil =>
    rw [List.append_nil, readToken, if_neg (by simp [hstart])]
    rfl
  | cons c cs =>
    have hc : A.start c = true := hr
    have hdigit : c.isDigit = false := by
      by_contra hd
      simp [start_of_isDigit (by simpa using hd)] at hc
    have hpoint : ('.' == c) = false := by
      refine beq_false_of_ne ?_
      rintro rfl
      simp [hstart] at hc
    have hnumber : startsNumber ('.' :: c :: cs) = false := by simp [startsNumber, hdigit]
    rw [List.singleton_append, readToken, if_neg (by simp [hstart]), if_neg (by simp [hnumber]), if_neg (by decide)]
    simp only [readSign, signs, List.find?, List.isPrefixOf, String.reduceToList, hpoint]
    rfl

end MacroLisp.Host
