import MacroLisp.Proofs.Reader.Leaf

namespace MacroLisp

open Cursor (isBlank isTerminator isSymbolChar)

/-- What the characters from a place of a text on belong to. -/
inductive Region
  | code
  | string
  | escape
  | comment
  deriving DecidableEq, Repr

/-- A string ends with a quote, unless a backslash is before it. A comment ends with its line. -/
def Region.next : Region → Char → Region
  | code, c => if c = '"' then string else if c = ';' then comment else code
  | string, c => if c = '"' then code else if c = '\\' then escape else string
  | escape, _ => string
  | comment, c => if c = '\n' then code else comment

inductive Layout : List Char → Prop
  | nil : Layout []
  | blank {c : Char} {cs : List Char} (hc : isBlank c = true) (h : Layout cs) : Layout (c :: cs)
  | comment {cs : List Char} (text : List Char) (htext : '\n' ∉ text) (h : Layout cs) :
      Layout (';' :: text ++ '\n' :: cs)

def StartsLayout (cs : List Char) : Prop := ∃ c ∈ cs.head?, isBlank c = true ∨ c = ';'

/-- Texts that are the same but for the layout between tokens, which is passed as the reader passes it. -/
inductive Relaid : Region → List Char → List Char → Prop
  | nil (r : Region) : Relaid r [] []
  | char {r : Region} {as bs : List Char} (c : Char) (h : Relaid (r.next c) as bs) : Relaid r (c :: as) (c :: bs)
  | gap {as bs : List Char} (ha : StartsLayout as) (hb : StartsLayout bs)
      (h : Relaid .code (Cursor.ofList as).skip.rest (Cursor.ofList bs).skip.rest) : Relaid .code as bs

variable {r : Region} {as bs cs w : List Char} {c : Char} {p q : Cursor}

theorem Cursor.rest_skipFrom (b : Bool) (o o' : ℕ) (cs : List Char) :
    (skipFrom b o cs).rest = (skipFrom b o' cs).rest := by
  induction cs generalizing b o o' with
  | nil => rfl
  | cons c cs ih =>
    simp only [skipFrom]
    split_ifs
    · exact ih _ _ _
    · exact ih _ _ _
    · exact ih _ _ _
    · rfl

theorem Cursor.rest_skip (p : Cursor) : p.skip.rest = (ofList p.rest).skip.rest :=
  rest_skipFrom false p.offset 0 p.rest

theorem Cursor.rest_skip_skipFrom (b : Bool) (o : ℕ) (cs : List Char) :
    (ofList (skipFrom b o cs).rest).skip.rest = (skipFrom b o cs).rest := by
  induction cs generalizing b o with
  | nil => rfl
  | cons c cs ih =>
    simp only [skipFrom]
    split_ifs with hb hblank hsemicolon
    · exact ih _ _
    · exact ih _ _
    · exact ih _ _
    · simp [ofList, skip, skipFrom, hblank, hsemicolon]

theorem Cursor.rest_skip_skip (p : Cursor) : p.skip.skip.rest = p.skip.rest :=
  p.skip.rest_skip.trans (rest_skip_skipFrom false p.offset p.rest)

theorem Cursor.rest_skipFrom_comment (o : ℕ) {text : List Char} (htext : '\n' ∉ text) (cs : List Char) :
    (skipFrom true o (text ++ '\n' :: cs)).rest = (ofList cs).skip.rest := by
  induction text generalizing o with
  | nil => exact rest_skipFrom false _ _ cs
  | cons c text ih =>
    obtain ⟨hc, htext⟩ : '\n' ≠ c ∧ '\n' ∉ text := by simpa using htext
    have hne : decide (c ≠ '\n') = true := by simpa using hc.symm
    rw [List.cons_append, skipFrom, if_pos rfl, hne]
    exact ih _ htext

theorem Layout.rest_skip_append (h : Layout w) (cs : List Char) :
    (Cursor.ofList (w ++ cs)).skip.rest = (Cursor.ofList cs).skip.rest := by
  induction h with
  | nil => rfl
  | blank hc h ih =>
    rw [← ih, List.cons_append, Cursor.ofList, Cursor.skip, Cursor.skipFrom, if_neg (by decide), if_pos hc]
    exact Cursor.rest_skipFrom false _ _ _
  | comment text htext h ih =>
    rw [← ih, List.append_assoc, List.cons_append, List.cons_append, Cursor.ofList, Cursor.skip, Cursor.skipFrom,
      if_neg (by decide), if_neg (by decide), if_pos rfl]
    exact Cursor.rest_skipFrom_comment _ htext _

theorem Layout.startsLayout_append (h : Layout w) (hw : w ≠ []) (cs : List Char) : StartsLayout (w ++ cs) := by
  cases h with
  | nil => exact absurd rfl hw
  | blank hc h => exact ⟨_, rfl, .inl hc⟩
  | comment text htext h => exact ⟨';', rfl, .inr rfl⟩

theorem startsLayout_of_rest_skip_ne (h : (Cursor.ofList cs).skip.rest ≠ cs) : StartsLayout cs := by
  cases cs with
  | nil => exact absurd rfl h
  | cons c cs =>
    refine ⟨c, rfl, ?_⟩
    by_contra! hc
    exact h (by simp [Cursor.ofList, Cursor.skip, Cursor.skipFrom, hc.1, hc.2])

theorem Region.next_code_of_ne (hquote : c ≠ '"') (hsemicolon : c ≠ ';') : code.next c = code := by
  simp [next, hquote, hsemicolon]

namespace Relaid

theorem refl (r : Region) (cs : List Char) : Relaid r cs cs := by
  induction cs generalizing r with
  | nil => exact .nil r
  | cons c cs ih => exact .char c (ih _)

theorem symm (h : Relaid r as bs) : Relaid r bs as := by
  induction h with
  | nil r => exact .nil r
  | char c _ ih => exact .char c ih
  | gap ha hb _ ih => exact .gap hb ha ih

theorem append (w : List Char) (h : Relaid (w.foldl Region.next r) as bs) : Relaid r (w ++ as) (w ++ bs) := by
  induction w generalizing r with
  | nil => exact h
  | cons c w ih => exact .char c (ih h)

theorem skipFrom {b : Bool} (h : Relaid (if b then .comment else .code) as bs) (o o' : ℕ) :
    Relaid .code (Cursor.skipFrom b o as).rest (Cursor.skipFrom b o' bs).rest := by
  generalize hr : (if b then Region.comment else .code) = r at h
  induction h generalizing b o o' with
  | nil r => exact .nil _
  | char c h ih =>
    subst hr
    cases b with
    | true =>
      refine ih _ _ ?_
      by_cases hc : c = '\n' <;> simp [Region.next, hc]
    | false =>
      simp only [Cursor.skipFrom, Bool.false_eq_true, if_false]
      split_ifs with hblank hsemicolon
      · refine ih _ _ ?_
        refine (Region.next_code_of_ne ?_ ?_).symm
        · rintro rfl
          simp [isBlank] at hblank
        · rintro rfl
          simp [isBlank] at hblank
      · subst hsemicolon
        exact ih _ _ rfl
      · exact .char c h
  | gap ha hb h =>
    cases b with
    | true => simp at hr
    | false =>
      rw [Cursor.rest_skipFrom false o 0, Cursor.rest_skipFrom false o' 0]
      exact h

/-- Passing the layout keeps two places in step. -/
theorem skip (h : Relaid .code p.rest q.rest) : Relaid .code p.skip.rest q.skip.rest :=
  skipFrom (b := false) h p.offset q.offset

theorem exists_cons (h : Relaid r (c :: as) bs) (hc : r = .code → isBlank c = false ∧ c ≠ ';') :
    ∃ bs', bs = c :: bs' ∧ Relaid (r.next c) as bs' := by
  cases h with
  | char _ h => exact ⟨_, rfl, h⟩
  | gap ha hb h =>
    obtain ⟨hblank, hsemicolon⟩ := hc rfl
    obtain ⟨c', hc', hlayout⟩ := ha
    obtain rfl : c = c' := by simpa using hc'
    rcases hlayout with hlayout | hlayout
    · rw [hblank] at hlayout
      cases hlayout
    · exact absurd hlayout hsemicolon

theorem eq_nil (h : Relaid r [] bs) : bs = [] := by
  cases h with
  | nil => rfl
  | gap ha => simp [StartsLayout] at ha

theorem takeWhile {f : Char → Bool} (hf : ∀ c, f c = true → isTerminator c = false) (h : Relaid .code as bs) :
    as.takeWhile f = bs.takeWhile f ∧ ∀ n ≤ (as.takeWhile f).length, Relaid .code (as.drop n) (bs.drop n) := by
  generalize hr : Region.code = r at h
  induction h with
  | nil r => exact ⟨rfl, fun n _ ↦ by simpa using .nil _⟩
  | @char r as bs c h ih =>
    subst hr
    by_cases hc : f c = true
    · have hcode : Region.code.next c = .code := by
        have := hf c hc
        simp only [isTerminator, decide_eq_false_iff_not, not_or] at this
        exact Region.next_code_of_ne this.2.2.2.2.2.2.2.1 this.2.2.2.2.2.2.2.2
      obtain ⟨heq, hdrop⟩ := ih hcode.symm
      refine ⟨by simp only [List.takeWhile_cons_of_pos hc, heq], fun n hn ↦ ?_⟩
      cases n with
      | zero => exact .char c h
      | succ n =>
        simp only [List.takeWhile_cons_of_pos hc, List.length_cons] at hn
        rw [List.drop_succ_cons, List.drop_succ_cons, hcode.symm]
        exact hcode ▸ hdrop n (Nat.le_of_succ_le_succ hn)
    · simp only [List.takeWhile_cons_of_neg hc, List.length_nil, Nat.le_zero, forall_eq, true_and]
      exact .char c h
  | gap ha hb h =>
    have hnil : ∀ {cs : List Char}, StartsLayout cs → cs.takeWhile f = [] := by
      rintro (_ | ⟨c, cs⟩) ⟨c', hc', hlayout⟩
      · simp at hc'
      · obtain rfl : c = c' := by simpa using hc'
        refine List.takeWhile_cons_of_neg fun hfc ↦ ?_
        have := hf c hfc
        rcases hlayout with hlayout | rfl
        · simp [isTerminator, hlayout] at this
        · simp [isTerminator] at this
    simp only [hnil ha, hnil hb, List.length_nil, Nat.le_zero, forall_eq, true_and]
    exact .gap ha hb h

end Relaid

namespace Form

open Cursor (byteLength)

theorem length_of_mark? {mark : Mark} {n : ℕ} (h : mark? cs = some (mark, n)) :
    0 < n ∧ n ≤ (cs.takeWhile fun c ↦ !isTerminator c).length := by
  unfold mark? at h
  split at h <;> cases h <;> simp [isTerminator, isBlank]

theorem mark?_of_relaid {mark : Mark} {n : ℕ} (h : Relaid .code as bs) (hmark : mark? as = some (mark, n)) :
    mark? bs = some (mark, n) := by
  unfold mark? at hmark
  split at hmark
  · obtain ⟨bs₁, rfl, h₁⟩ := h.exists_cons (by decide)
    obtain ⟨bs₂, rfl, -⟩ := h₁.exists_cons (by decide)
    exact hmark
  · obtain ⟨bs₁, rfl, h₁⟩ := h.exists_cons (by decide)
    obtain ⟨bs₂, rfl, h₂⟩ := h₁.exists_cons (by decide)
    obtain ⟨bs₃, rfl, -⟩ := h₂.exists_cons (by decide)
    exact hmark
  · next as₂ hstar =>
    obtain ⟨bs₁, rfl, h₁⟩ := h.exists_cons (by decide)
    obtain ⟨bs₂, rfl, h₂⟩ := h₁.exists_cons (by decide)
    rw [mark?]
    · exact hmark
    · rintro bs₃ rfl
      obtain ⟨as₃, rfl, -⟩ := h₂.symm.exists_cons (by decide)
      exact hstar as₃ rfl
  · obtain ⟨bs₁, rfl, -⟩ := h.exists_cons (by decide)
    exact hmark
  · obtain ⟨bs₁, rfl, -⟩ := h.exists_cons (by decide)
    exact hmark
  · next as₁ hat =>
    obtain ⟨bs₁, rfl, h₁⟩ := h.exists_cons (by decide)
    rw [mark?]
    · exact hmark
    · rintro bs₂ rfl
      obtain ⟨as₂, rfl, -⟩ := h₁.symm.exists_cons (by decide)
      exact hat as₂ rfl
  · cases hmark

theorem relaid_mark? (h : Relaid .code as bs) :
    mark? as = mark? bs ∧ ∀ mark n, mark? as = some (mark, n) → Relaid .code (as.drop n) (bs.drop n) := by
  constructor
  · cases ha : mark? as with
    | some found => exact (mark?_of_relaid h ha).symm
    | none =>
      cases hb : mark? bs with
      | none => rfl
      | some found =>
        rw [mark?_of_relaid h.symm hb] at ha
        cases ha
  · intro mark n hmark
    exact (h.takeWhile (by simp)).2 n (length_of_mark? hmark).2

theorem relaid_wordAt (h : Relaid .code as bs) :
    wordAt as = wordAt bs ∧ Relaid .code (as.drop (wordAt as).length) (bs.drop (wordAt as).length) := by
  obtain ⟨heq, hdrop⟩ := h.takeWhile (f := isSymbolChar) fun c ↦ not_terminator_of_isSymbolChar
  exact ⟨heq, hdrop _ le_rfl⟩

theorem StartsLayout.isEnd (h : StartsLayout cs) : IsEnd cs := by
  obtain ⟨c, hc, hlayout⟩ := h
  intro c' hc'
  obtain rfl : c = c' := Option.some.inj (hc.symm.trans hc')
  rcases hlayout with hlayout | rfl
  · simp [isTerminator, hlayout]
  · rfl

theorem classify_of_relaid (h : Relaid .code as bs) (w : List Char) :
    WordKind.classify w as = WordKind.classify w bs := by
  cases h with
  | nil => rfl
  | char c h => rfl
  | gap ha hb h => rw [classify_of_isEnd (StartsLayout.isEnd ha), classify_of_isEnd (StartsLayout.isEnd hb)]

theorem head?_eq_of_relaid (h : Relaid .code as bs) (hc : isBlank c = false ∧ c ≠ ';') :
    as.head? = some c ↔ bs.head? = some c := by
  have hto : ∀ {as bs}, Relaid .code as bs → as.head? = some c → bs.head? = some c := by
    rintro (_ | ⟨c', as⟩) bs h hhead
    · cases hhead
    · obtain rfl : c' = c := by simpa using hhead
      obtain ⟨bs', rfl, -⟩ := h.exists_cons fun _ ↦ hc
      rfl
  exact ⟨hto h, hto h.symm⟩

theorem stringInner_of_relaid {o : ℕ} {inner : List Char} {stop : Cursor} (h : Relaid .string as bs)
    (hinner : stringInner o as = some (inner, stop)) (o' : ℕ) :
    ∃ stop', stringInner o' bs = some (inner, stop') ∧ Relaid .code stop.rest stop'.rest := by
  fun_induction stringInner o as generalizing bs inner stop o' with
  | case1 => cases hinner
  | case2 => cases hinner
  | case3 o c cs ih =>
    obtain ⟨bs₁, rfl, h₁⟩ := h.exists_cons (by decide)
    obtain ⟨bs₂, rfl, h₂⟩ := h₁.exists_cons (by simp [Region.next])
    obtain ⟨⟨inner', stop₁⟩, hinner', he⟩ := Option.map_eq_some_iff.mp hinner
    obtain ⟨rfl, rfl⟩ := Prod.mk.inj he
    obtain ⟨stop', hstop', hrest⟩ := ih h₂ hinner' (o' + 1 + c.utf8Size)
    exact ⟨stop', by rw [stringInner, hstop']; rfl, hrest⟩
  | case4 o cs hbackslash =>
    obtain ⟨bs₁, rfl, h₁⟩ := h.exists_cons (by decide)
    obtain ⟨rfl, rfl⟩ := Prod.mk.inj (Option.some.inj hinner)
    exact ⟨⟨o' + 1, bs₁⟩, by simp [stringInner], h₁⟩
  | case5 o c cs hlast hbackslash hquote ih =>
    obtain ⟨bs₁, rfl, h₁⟩ := h.exists_cons (by simp)
    obtain ⟨⟨inner', stop₁⟩, hinner', he⟩ := Option.map_eq_some_iff.mp hinner
    obtain ⟨rfl, rfl⟩ := Prod.mk.inj he
    have hc : c ≠ '\\' := by
      rintro rfl
      cases cs with
      | nil => exact hlast rfl rfl
      | cons c cs => exact hbackslash c cs rfl rfl
    rw [Region.next, if_neg hquote, if_neg hc] at h₁
    obtain ⟨stop', hstop', hrest⟩ := ih h₁ hinner' (o' + c.utf8Size)
    exact ⟨stop', by simp [stringInner, hc, hquote, hstop'], hrest⟩

end Form

end MacroLisp
