import MacroLisp.Proofs.Binary64.RoundTrip
import MacroLisp.Proofs.Host.Tree

namespace MacroLisp.Host

/-- A mark is a reserved word, an operator or a delimiter. -/
inductive Token
  | name (id : String)
  | int (value : Nat)
  | float (value : Binary64)
  | string (value : String)
  | mark (text : String)
  deriving DecidableEq

def isBlank (c : Char) : Bool := c == ' ' || c == '\t' || c == '\x0c'

def isQuote (c : Char) : Bool := c == '\'' || c == '"'

def signs : List String :=
  ["**=", "//=", ">>=", "<<=", "...", "**", "//", ">>", "<<", "==", "!=", "<=", ">=", "->", ":=", "+=", "-=",
    "*=", "/=", "%=", "@=", "&=", "|=", "^=", "+", "-", "*", "/", "%", "@", "&", "|", "^", "~", "<", ">", "(",
    ")", "[", "]", "\x7b", "\x7d", ",", ":", ".", ";", "="]

def readSign (cs : List Char) : Option (Token × List Char) :=
  (signs.find? fun s ↦ s.toList.isPrefixOf cs).map fun s ↦ (.mark s, cs.drop s.length)

/-- A quote right behind a word would make the word a prefix of a string. -/
def readWord (A : Alphabet) (cs : List Char) : Option (Token × List Char) :=
  let word := String.ofList (cs.takeWhile A.part)
  let rest := cs.dropWhile A.part
  if rest.head?.any isQuote then none
  else some (if reservedWords.contains word then .mark word else .name word, rest)

/-- Digits with a point before, among or behind them are a float, others an integer without leading zeros.
Letters right behind a number are an error. -/
def readNumber (A : Alphabet) (cs : List Char) : Option (Token × List Char) :=
  let whole := cs.takeWhile Char.isDigit
  match cs.dropWhile Char.isDigit with
  | '.' :: behind =>
    let rest := behind.dropWhile Char.isDigit
    if rest.head?.any A.part then none
    else (Binary64.ofText? (whole ++ '.' :: behind.takeWhile Char.isDigit)).map fun x ↦ (.float x, rest)
  | rest =>
    if rest.head?.any A.part || whole.head? == some '0' && whole.any (· != '0') then none
    else some (.int (Binary64.natOfDigits whole), rest)

def escaped? : Char → Option Char
  | '\\' => some '\\'
  | '\'' => some '\''
  | '"' => some '"'
  | 'a' => some '\x07'
  | 'b' => some '\x08'
  | 'f' => some '\x0c'
  | 'n' => some '\n'
  | 'r' => some '\r'
  | 't' => some '\t'
  | 'v' => some '\x0b'
  | _ => none

/-- The characters of a string up to its closing quote, and the text behind that. -/
def stringBody (quote : Char) : List Char → Option (List Char × List Char)
  | [] => none
  | '\\' :: c :: cs =>
    match escaped? c with
    | some d => (stringBody quote cs).map fun p ↦ (d :: p.1, p.2)
    | none => none
  | c :: cs =>
    if c = quote then some ([], cs)
    else if c = '\\' ∨ c = '\n' ∨ c = '\r' then none
    else (stringBody quote cs).map fun p ↦ (c :: p.1, p.2)

/-- The string behind an opening quote. Three quotes would open a string of another kind. -/
def readString (quote : Char) (cs : List Char) : Option (Token × List Char) :=
  if [quote, quote].isPrefixOf cs then none
  else (stringBody quote cs).map fun p ↦ (.string (String.ofList p.1), p.2)

def startsNumber : List Char → Bool
  | c :: d :: _ => c.isDigit || c == '.' && d.isDigit
  | [c] => c.isDigit
  | [] => false

def readToken (A : Alphabet) : List Char → Option (Token × List Char)
  | [] => none
  | c :: cs =>
    if A.start c then readWord A (c :: cs)
    else if startsNumber (c :: cs) then readNumber A (c :: cs)
    else if isQuote c then readString c cs
    else readSign (c :: cs)

variable {A : Alphabet} {c : Char} {cs rest : List Char} {tok : Token}

theorem dropWhile_length_lt {p : Char → Bool} (h : p c = true) : ((c :: cs).dropWhile p).length < cs.length + 1 := by
  rw [List.dropWhile_cons_of_pos h]
  exact Nat.lt_succ_of_le (List.dropWhile_suffix p).length_le

theorem readSign_shorter (h : readSign cs = some (tok, rest)) : rest.length < cs.length := by
  obtain ⟨s, hs, he⟩ := Option.map_eq_some_iff.mp h
  have hne : 0 < s.length := by
    have : ∀ s ∈ signs, 0 < s.length := by decide
    exact this s (List.mem_of_find?_eq_some hs)
  have hp : s.toList.isPrefixOf cs = true := by simpa using List.find?_some hs
  replace hp := (List.isPrefixOf_iff_prefix.mp hp).length_le
  obtain ⟨rfl, rfl⟩ := Prod.mk.inj he
  rw [String.length_toList] at hp
  rw [List.length_drop]
  omega

theorem readWord_shorter (hc : A.start c = true) (h : readWord A (c :: cs) = some (tok, rest)) :
    rest.length < cs.length + 1 := by
  simp only [readWord] at h
  split at h
  · cases h
  · obtain ⟨rfl, rfl⟩ := Prod.mk.inj (Option.some.inj h)
    exact dropWhile_length_lt (A.part_of_start c hc)

theorem readNumber_shorter (hc : startsNumber (c :: cs) = true) (h : readNumber A (c :: cs) = some (tok, rest)) :
    rest.length < cs.length + 1 := by
  have hle := (List.dropWhile_suffix Char.isDigit (l := c :: cs)).length_le
  simp only [readNumber] at h
  split at h
  · next behind hb =>
    split at h
    · cases h
    · obtain ⟨x, -, he⟩ := Option.map_eq_some_iff.mp h
      obtain ⟨rfl, rfl⟩ := Prod.mk.inj he
      have := (List.dropWhile_suffix Char.isDigit (l := behind)).length_le
      rw [hb] at hle
      simp only [List.length_cons] at hle
      omega
  · next hb =>
    have hd : c.isDigit = true := by
      by_contra hd
      rw [List.dropWhile_cons_of_neg hd] at hb
      have : c ≠ '.' := fun hp ↦ hb cs (by rw [hp])
      cases cs <;> simp [startsNumber, hd, this] at hc
    split at h
    · cases h
    · obtain ⟨rfl, rfl⟩ := Prod.mk.inj (Option.some.inj h)
      exact dropWhile_length_lt hd

theorem stringBody_length_le {quote : Char} {p : List Char × List Char} (h : stringBody quote cs = some p) :
    p.2.length ≤ cs.length := by
  fun_induction stringBody quote cs generalizing p with
  | case1 => cases h
  | case2 c cs d hd ih =>
    obtain ⟨p', hp, rfl⟩ := Option.map_eq_some_iff.mp h
    have := ih hp
    simp only [List.length_cons]
    omega
  | case3 => cases h
  | case4 cs =>
    cases h
    simp
  | case5 => cases h
  | case6 c cs _ _ _ ih =>
    obtain ⟨p', hp, rfl⟩ := Option.map_eq_some_iff.mp h
    have := ih hp
    simp only [List.length_cons]
    omega

theorem readString_shorter (h : readString c cs = some (tok, rest)) : rest.length < cs.length + 1 := by
  simp only [readString] at h
  split at h
  · cases h
  · obtain ⟨p, hp, he⟩ := Option.map_eq_some_iff.mp h
    obtain ⟨rfl, rfl⟩ := Prod.mk.inj he
    exact Nat.lt_succ_of_le (stringBody_length_le hp)

theorem readToken_shorter (h : readToken A cs = some (tok, rest)) : rest.length < cs.length := by
  cases cs with
  | nil => cases h
  | cons c cs =>
    simp only [readToken] at h
    split at h
    · next hc => exact readWord_shorter hc h
    · split at h
      · next hc => exact readNumber_shorter hc h
      · split at h
        · exact readString_shorter h
        · exact readSign_shorter h

def lex (A : Alphabet) : List Char → Option (List Token)
  | [] => some []
  | c :: cs =>
    if isBlank c then lex A cs
    else match _h : readToken A (c :: cs) with
      | none => none
      | some (tok, rest) => (lex A rest).map (tok :: ·)
termination_by cs => cs.length
decreasing_by
  · simp
  · exact readToken_shorter _h

@[simp] theorem lex_nil : lex A [] = some [] := by
  rw [lex]

theorem lex_blank (h : isBlank c = true) : lex A (c :: cs) = lex A cs := by
  rw [lex, if_pos h]

theorem lex_token (hc : isBlank c = false) (h : readToken A (c :: cs) = some (tok, rest)) :
    lex A (c :: cs) = (lex A rest).map (tok :: ·) := by
  rw [lex, if_neg (by simp [hc])]
  split
  · next h' => simp [h] at h'
  · next h' =>
    obtain ⟨rfl, rfl⟩ := Prod.mk.inj (Option.some.inj (h.symm.trans h'))
    rfl

end MacroLisp.Host
