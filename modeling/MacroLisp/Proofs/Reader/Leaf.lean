import MacroLisp.Reader.Build
import MacroLisp.Proofs.Binary64.RoundTrip
import MacroLisp.Proofs.Text.Quoted
import MacroLisp.Proofs.Text.Runs

namespace MacroLisp.Form

open Cursor (isBlank isTerminator isSymbolChar byteLength)

variable {w cs rest ws fs inner : List Char} {c : Char} {o : Nat}

/-- The text is over, or goes on with what no word contains. -/
def IsEnd (rest : List Char) : Prop := ∀ c ∈ rest.head?, isTerminator c = true

/-- The text is over, or goes on with another token. What ends a word does not always end a number. -/
def EndsWord (rest : List Char) : Prop := ∀ c ∈ rest.head?, isSymbolChar c = false

/-- Characters that are read as one word, whatever its kind is. -/
structure IsWord (w : List Char) : Prop where
  ne_nil : w ≠ []
  chars : ∀ c ∈ w, isSymbolChar c = true
  number_sign : w.head? = some '#' → w = ['#']

theorem not_terminator_of_isSymbolChar (h : isSymbolChar c = true) : isTerminator c = false := by
  simp only [isSymbolChar, Bool.and_eq_true, Bool.not_eq_true'] at h
  exact h.1

theorem IsEnd.endsWord (h : IsEnd rest) : EndsWord rest := fun c hc ↦ by simp [isSymbolChar, h c hc]

theorem wordAt_append (hw : ∀ c ∈ w, isSymbolChar c = true) (hr : EndsWord rest) : wordAt (w ++ rest) = w := by
  refine (Text.span_append hw ?_).1
  cases rest with
  | nil => rfl
  | cons c rest => simp [hr c rfl]

theorem advance_append (o : Nat) (w rest : List Char) :
    (⟨o, w ++ rest⟩ : Cursor).advance w.length = ⟨o + byteLength w, rest⟩ := by
  simp [Cursor.advance]

theorem IsWord.isTag_eq_false (h : IsWord w) : isTag w = false := by
  have hn := h.number_sign
  unfold isTag
  split <;> simp_all

theorem IsWord.mark?_eq_none (h : IsWord w) (hr : EndsWord rest) : mark? (w ++ rest) = none := by
  obtain ⟨c, w', rfl⟩ := List.exists_cons_of_ne_nil h.ne_nil
  have hc := h.chars c (by simp)
  have hstar : c = '#' → ∀ r, w' ++ rest ≠ '*' :: r := by
    rintro rfl r he
    obtain rfl : w' = [] := by simpa using h.number_sign rfl
    rw [List.nil_append] at he
    exact absurd (hr '*' (by simp [he])) (by decide)
  rw [List.cons_append]
  unfold mark?
  split <;> simp_all [isSymbolChar]

theorem IsWord.opened?_eq_none (h : IsWord w) (rest : List Char) : (w ++ rest).head?.bind opened? = none := by
  obtain ⟨c, w', rfl⟩ := List.exists_cons_of_ne_nil h.ne_nil
  have hc := not_terminator_of_isSymbolChar (h.chars c (by simp))
  rw [List.cons_append, List.head?_cons, Option.bind_some]
  unfold opened?
  split <;> simp_all [isTerminator]

theorem IsWord.leaf?_eq (h : IsWord w) (hr : EndsWord rest) (o : Nat) :
    leaf? ⟨o, w ++ rest⟩ =
      some (.word (WordKind.classify w rest) w ⟨o, o + byteLength w⟩, ⟨o + byteLength w, rest⟩) := by
  have hquote : ∀ cs, w ++ rest ≠ '"' :: cs := by
    obtain ⟨c, w', rfl⟩ := List.exists_cons_of_ne_nil h.ne_nil
    intro cs he
    obtain rfl : c = '"' := (List.cons.inj he).1
    have := not_terminator_of_isSymbolChar (h.chars '"' (by simp))
    simp [isTerminator] at this
  have hword : leaf? ⟨o, w ++ rest⟩ = word? ⟨o, w ++ rest⟩ := by
    unfold leaf?
    split
    · next cs he => exact absurd he (hquote cs)
    · rfl
  rw [hword, word?]
  simp only [wordAt_append h.chars hr, advance_append, h.isTag_eq_false, Bool.or_false]
  rw [if_neg (by simpa using h.ne_nil)]

theorem IsWord.attempt_result (h : IsWord w) (hr : EndsWord rest) (fuel o : Nat) :
    (attempt (fuel + 1) ⟨o, w ++ rest⟩).result =
      some (.word (WordKind.classify w rest) w ⟨o, o + byteLength w⟩, ⟨o + byteLength w, rest⟩) := by
  simp only [attempt, h.mark?_eq_none hr, wordAt_append h.chars hr, h.isTag_eq_false, h.opened?_eq_none,
    attemptLeaf, h.leaf?_eq hr]
  simp

theorem classify_of_isEnd (hr : IsEnd rest) (w : List Char) : WordKind.classify w rest =
    if WordKind.isKeyword w then .keyword else if WordKind.isFloat w then .float
      else if WordKind.isInteger w then .integer else .symbol := by
  cases rest with
  | nil => simp [WordKind.classify]
  | cons c rest => simp [WordKind.classify, hr c rfl]

theorem isSymbolChar_of_isDigit (h : c.isDigit = true) : isSymbolChar c = true := by
  have hne : ∀ d : Char, d.isDigit = false → c ≠ d := by
    rintro d hd rfl
    exact absurd h (by simp [hd])
  simp [isSymbolChar, isTerminator, isBlank, hne ' ' rfl, hne '\t' rfl, hne '\r' rfl, hne '\n' rfl,
    hne '(' rfl, hne ')' rfl, hne '[' rfl, hne ']' rfl, hne '{' rfl, hne '}' rfl, hne '"' rfl, hne ';' rfl,
    hne '\'' rfl, hne '\x60' rfl, hne '~' rfl]

theorem isWord_of_number (hne : w ≠ []) (hw : ∀ c ∈ w, c.isDigit = true ∨ c = '-' ∨ c = '.') :
    IsWord w ∧ WordKind.isKeyword w = false := by
  have hhead : ∀ c ∈ w, c ≠ '#' ∧ c ≠ ':' := by
    intro c hc
    rcases hw c hc with hd | rfl | rfl
    · constructor <;> rintro rfl <;> simp at hd
    · decide
    · decide
  refine ⟨⟨hne, ?_, ?_⟩, ?_⟩
  · intro c hc
    rcases hw c hc with hd | rfl | rfl
    · exact isSymbolChar_of_isDigit hd
    · decide
    · decide
  · intro h
    exact absurd rfl (hhead '#' (List.mem_of_head? h)).1
  · unfold WordKind.isKeyword
    split
    · exact absurd rfl (hhead ':' (by simp)).2
    · rfl

theorem dropSign_of_allDigits (h : Binary64.AllDigits ws) (rest : List Char) :
    WordKind.dropSign (ws ++ '.' :: rest) = ws ++ '.' :: rest ∧ WordKind.dropSign ws = ws := by
  cases ws with
  | nil => exact ⟨rfl, rfl⟩
  | cons d ws =>
    have hd := h d (by simp)
    have hm : d ≠ '-' := by rintro rfl; simp at hd
    have hp : d ≠ '+' := by rintro rfl; simp at hd
    constructor <;> simp [WordKind.dropSign, hm, hp]

theorem isFloat_point {x : Binary64} (h : x.Point ws fs) (hw : WordKind.dropSign w = ws ++ '.' :: fs) :
    WordKind.isFloat w = true := by
  obtain ⟨ht, hd⟩ := Binary64.span_point h.whole fs
  obtain ⟨hft, hfd⟩ := Binary64.span_digits h.fraction
  simp [WordKind.isFloat, hw, ht, hd, hft, hfd, h.whole_ne_nil, h.fraction_ne_nil, WordKind.isExponent]

theorem chars_of_point {x : Binary64} (h : x.Point ws fs) :
    ∀ c ∈ ws ++ '.' :: fs, c.isDigit = true ∨ c = '-' ∨ c = '.' := by
  intro c hc
  rcases List.mem_append.mp hc with hc | hc
  · exact .inl (h.whole c hc)
  · rcases List.mem_cons.mp hc with rfl | hc
    · exact .inr (.inr rfl)
    · exact .inl (h.fraction c hc)

theorem float_word {x : Binary64} (hx : x.isFinite = true) :
    (IsWord x.text.toList ∧ WordKind.isKeyword x.text.toList = false) ∧
      WordKind.isFloat x.text.toList = true ∧ Binary64.ofText? x.text.toList = some x := by
  have hread := Binary64.ofText?_text hx
  cases hs : x.isNegative with
  | false =>
    obtain ⟨ws, fs, h⟩ := Binary64.exists_point hx hs
    rw [h.text_eq] at hread ⊢
    exact ⟨isWord_of_number (by simp) (chars_of_point h), isFloat_point h (dropSign_of_allDigits h.whole fs).1, hread⟩
  | true =>
    obtain ⟨ws, fs, h, htext, -⟩ := Binary64.exists_signed_point hx hs
    rw [htext] at hread ⊢
    refine ⟨isWord_of_number (by simp) ?_, isFloat_point h rfl, hread⟩
    intro c hc
    rcases List.mem_cons.mp hc with rfl | hc
    · exact .inr (.inl rfl)
    · exact chars_of_point h c hc

theorem int_word (i : ℤ) :
    (IsWord (toString i).toList ∧ WordKind.isKeyword (toString i).toList = false) ∧
      WordKind.isFloat (toString i).toList = false ∧ WordKind.isInteger (toString i).toList = true ∧
      intOfWord (toString i).toList = i := by
  have hdigits := Binary64.allDigits_toDigits i.natAbs
  have hne : Nat.toDigits 10 i.natAbs ≠ [] := Nat.toDigits_ne_nil
  have hvalue := Binary64.natOfDigits_toDigits i.natAbs
  have hdrop := (dropSign_of_allDigits hdigits []).2
  have hspan := (Binary64.span_digits hdigits).2
  rw [Text.toList_toString]
  split
  · next hneg =>
    refine ⟨isWord_of_number (by simp) ?_, ?_, ?_, ?_⟩
    · intro c hc
      rcases List.mem_cons.mp hc with rfl | hc
      · exact .inr (.inl rfl)
      · exact .inl (hdigits c hc)
    · simp [WordKind.isFloat, WordKind.dropSign, hspan]
    · simpa [WordKind.isInteger, WordKind.dropSign, hne, Binary64.AllDigits] using hdigits
    · simp only [intOfWord, hvalue]
      omega
  · next hneg =>
    refine ⟨isWord_of_number hne fun c hc ↦ .inl (hdigits c hc), ?_, ?_, ?_⟩
    · simp [WordKind.isFloat, hdrop, hspan]
    · simpa [WordKind.isInteger, hdrop, hne, Binary64.AllDigits] using hdigits
    · have hhead : ∀ ds, Nat.toDigits 10 i.natAbs ≠ '-' :: ds := by
        intro ds he
        have := hdigits '-' (by simp [he])
        simp at this
      unfold intOfWord
      split
      · next ds he => exact absurd he (hhead ds)
      · rw [hdrop, hvalue]
        omega

/-- The inside of a string: no quote, unless a backslash is before it. -/
inductive IsInner : List Char → Prop
  | nil : IsInner []
  | escape {cs : List Char} (c : Char) (h : IsInner cs) : IsInner ('\\' :: c :: cs)
  | char {c : Char} {cs : List Char} (hquote : c ≠ '"') (hbackslash : c ≠ '\\') (h : IsInner cs) : IsInner (c :: cs)

theorem stringInner_of_isInner (h : IsInner inner) (o : Nat) (cs : List Char) :
    stringInner o (inner ++ '"' :: cs) = some (inner, ⟨o + byteLength inner + 1, cs⟩) := by
  induction h generalizing o with
  | nil => simp [stringInner]
  | escape c h ih => simp [stringInner, ih, show '\\'.utf8Size = 1 from rfl, Nat.add_assoc]
  | char hquote hbackslash h ih => simp [stringInner, ih, hquote, hbackslash, Nat.add_assoc]

theorem isInner_encode (h : cs.all Text.Quoted.isPlain = true) : IsInner (Text.Quoted.encode cs) := by
  induction cs with
  | nil => exact .nil
  | cons c cs ih =>
    obtain ⟨hc, hcs⟩ : Text.Quoted.isPlain c = true ∧ cs.all Text.Quoted.isPlain = true := by simpa using h
    rw [Text.Quoted.encode_cons]
    rcases Text.Quoted.encodeChar_of_isPlain hc with ⟨e, he, -⟩ | ⟨he, hquote, hbackslash⟩
    · rw [he]
      exact .escape e (ih hcs)
    · rw [he]
      exact .char hquote hbackslash (ih hcs)

theorem attempt_string (h : cs.all Text.Quoted.isPlain = true) (fuel o : Nat) (rest : List Char) :
    (attempt (fuel + 1) ⟨o, '"' :: (Text.Quoted.encode cs ++ '"' :: rest)⟩).result =
      some (.string (Text.Quoted.encode cs) ⟨o, o + 1 + byteLength (Text.Quoted.encode cs) + 1⟩,
        ⟨o + 1 + byteLength (Text.Quoted.encode cs) + 1, rest⟩) := by
  have hleaf : leaf? ⟨o, '"' :: (Text.Quoted.encode cs ++ '"' :: rest)⟩ =
      some (.string (Text.Quoted.encode cs) ⟨o, o + 1 + byteLength (Text.Quoted.encode cs) + 1⟩,
        ⟨o + 1 + byteLength (Text.Quoted.encode cs) + 1, rest⟩) := by
    simp [leaf?, stringInner_of_isInner (isInner_encode h)]
  have hword : wordAt ('"' :: (Text.Quoted.encode cs ++ '"' :: rest)) = [] :=
    List.takeWhile_cons_of_neg (by decide)
  simp [attempt, mark?, hword, isTag, opened?, attemptLeaf, hleaf]

end MacroLisp.Form
