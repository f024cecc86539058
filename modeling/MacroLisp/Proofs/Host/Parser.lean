import MacroLisp.Proofs.Host.Grammar

namespace MacroLisp.Host

namespace Level

def rank : Level → Nat
  | expression => 0
  | disjunction => 1
  | conjunction => 2
  | inversion => 3
  | comparison => 4
  | bitwiseOr => 5
  | bitwiseXor => 6
  | bitwiseAnd => 7
  | shift => 8
  | sum => 9
  | term => 10
  | factor => 11
  | power => 12
  | primary => 13

/-- Whether a phrase of the level may be the beginning of another one. -/
def isLeftRecursive : Level → Bool
  | bitwiseOr | bitwiseXor | bitwiseAnd | shift | sum | term | primary => true
  | _ => false

theorem rank_lt_next {s : Level} (h : s ≠ .primary) : s.rank < s.next.rank := by
  cases s <;> first | decide | contradiction

theorem rank_le_next (s : Level) : s.rank ≤ s.next.rank := by
  cases s <;> decide

theorem rank_injective {s s' : Level} (h : s.rank = s'.rank) : s = s' := by
  cases s <;> cases s' <;> first | rfl | cases h

theorem rank_le_primary (s : Level) : s.rank ≤ Level.primary.rank := by
  cases s <;> decide

theorem descend {P : Level → Prop} (h : ∀ s : Level, P s.next → P s) {s s' : Level} (hle : s.rank ≤ s'.rank)
    (hp : P s') : P s := by
  rcases Nat.eq_or_lt_of_le hle with he | hlt
  · rwa [rank_injective he]
  · have hs : s ≠ .primary := by
      rintro rfl
      exact absurd hlt (Nat.not_lt.mpr (rank_le_primary s'))
    have hn : s.next.rank = s.rank + 1 := by
      cases s <;> first | rfl | contradiction
    exact h s (descend h (by omega) hp)
termination_by s'.rank - s.rank

end Level

namespace Token

/-- The strongest level of the phrases that begin with the token. -/
def opens? : Token → Option Level
  | .mark "None" | .mark "True" | .mark "False" | .mark "(" | .mark "[" | .mark "\x7b" => some .primary
  | .mark "+" | .mark "-" | .mark "~" => some .factor
  | .mark "not" => some .inversion
  | .mark _ => none
  | _ => some .primary

/-- The level at which the token carries on a phrase. -/
def continues? : Token → Option Level
  | .mark "if" => some .expression
  | .mark "or" => some .disjunction
  | .mark "and" => some .conjunction
  | .mark "==" | .mark "!=" | .mark "<" | .mark "<=" | .mark ">" | .mark ">=" | .mark "is" | .mark "in"
  | .mark "not" => some .comparison
  | .mark "|" => some .bitwiseOr
  | .mark "^" => some .bitwiseXor
  | .mark "&" => some .bitwiseAnd
  | .mark "<<" | .mark ">>" => some .shift
  | .mark "+" | .mark "-" => some .sum
  | .mark "*" | .mark "@" | .mark "/" | .mark "//" | .mark "%" => some .term
  | .mark "**" => some .power
  | .mark "." | .mark "(" => some .primary
  | _ => none

def isCloser (tok : Token) : Bool := tok == .mark ")" || tok == .mark "]" || tok == .mark "\x7d"

end Token

namespace Parser

def expect (tok : Token) : List Token → Option (List Token)
  | tok' :: rest => if tok' = tok then some rest else none
  | [] => none

def unaryOp? (s : Level) : List Token → Option (UnaryOp × List Token)
  | tok :: rest =>
    ([.invert, .not, .plus, .minus].find? fun op : UnaryOp ↦ op.level = s ∧ op.token = tok).map (·, rest)
  | [] => none

def binaryOp? (s : Level) : List Token → Option (BinaryOp × List Token)
  | tok :: rest =>
    ([.add, .sub, .mult, .matMult, .div, .floorDiv, .mod, .leftShift, .rightShift, .bitOr, .bitXor, .bitAnd].find?
      fun op : BinaryOp ↦ op.level = s ∧ op.token = tok).map (·, rest)
  | [] => none

def compareOp? (ts : List Token) : Option (CompareOp × List Token) :=
  ([.isNot, .notIn, .eq, .notEq, .lt, .ltE, .gt, .gtE, .is, .isIn].find? fun op : CompareOp ↦
    op.tokens.isPrefixOf ts).map fun op ↦ (op, ts.drop op.tokens.length)

def splitItems (vs : List (Option String × Tree)) : List Tree × List (String × Tree) :=
  (vs.filterMap fun v ↦ if v.1.isNone then some v.2 else none, vs.filterMap fun v ↦ v.1.map (·, v.2))

def nameOf? : Tree → Option String
  | .name id => some id
  | _ => none

mutual

def phrase : Nat → Level → List Token → Option (Tree × List Token)
  | 0, _, _ => none
  | n + 1, s, ts =>
    match unaryOp? s ts with
    | some (op, rest) => (phrase n s rest).map fun p ↦ (.unary op p.1, p.2)
    | none => (if s = .primary then atom n ts else phrase n s.next ts).bind fun p ↦ tail n s p.1 p.2

/-- What may follow a phrase of the next stronger level. -/
def tail : Nat → Level → Tree → List Token → Option (Tree × List Token)
  | 0, _, _, _ => none
  | n + 1, s, t, ts =>
    match s with
    | .expression =>
      match expect (.mark "if") ts with
      | some rest =>
        (phrase n .disjunction rest).bind fun p ↦ (expect (.mark "else") p.2).bind fun rest ↦
          (phrase n .expression rest).map fun q ↦ (.conditional p.1 t q.1, q.2)
      | none => some (t, ts)
    | .disjunction => (operands n .or ts).map fun p ↦ (if p.1.isEmpty then t else .boolean .or (t :: p.1), p.2)
    | .conjunction => (operands n .and ts).map fun p ↦ (if p.1.isEmpty then t else .boolean .and (t :: p.1), p.2)
    | .comparison =>
      (chain n ts).map fun p ↦
        (if p.1.isEmpty then t else .compare t (p.1.map Prod.fst) (p.1.map Prod.snd), p.2)
    | .inversion | .factor => some (t, ts)
    | .power =>
      match expect BinaryOp.pow.token ts with
      | some rest => (phrase n .factor rest).map fun p ↦ (.binary t .pow p.1, p.2)
      | none => some (t, ts)
    | .primary =>
      match ts with
      | .mark "." :: .name attr :: rest => tail n .primary (.member t attr) rest
      | .mark "(" :: rest =>
        (items n .argument rest).bind fun p ↦ (expect (.mark ")") p.2).bind fun rest ↦
          tail n .primary (.call t (splitItems p.1).1 (splitItems p.1).2) rest
      | _ => some (t, ts)
    | s =>
      match binaryOp? s ts with
      | some (op, rest) => (phrase n s.next rest).bind fun p ↦ tail n s (.binary t op p.1) p.2
      | none => some (t, ts)

def atom : Nat → List Token → Option (Tree × List Token)
  | n + 1, tok :: ts =>
    match leaf? tok with
    | some t => some (t, ts)
    | none =>
      if tok = .mark "(" then
        match expect (.mark ")") ts with
        | some rest => some (.tuple [], rest)
        | none =>
          (phrase n .expression ts).bind fun p ↦
            match expect (.mark ",") p.2 with
            | some rest =>
              (items n .plain rest).bind fun q ↦ (expect (.mark ")") q.2).map fun rest ↦ (.tuple (p.1 :: q.1), rest)
            | none => (expect (.mark ")") p.2).map fun rest ↦ (p.1, rest)
      else if tok = .mark "[" then
        (items n .plain ts).bind fun p ↦ (expect (.mark "]") p.2).map fun rest ↦ (.list p.1, rest)
      else if tok = .mark "\x7b" then
        (items n .entry ts).bind fun p ↦ (expect (.mark "\x7d") p.2).map fun rest ↦
          (.dict (p.1.map Prod.fst) (p.1.map Prod.snd), rest)
      else none
  | _, _ => none

def operands : Nat → BoolOp → List Token → Option (List Tree × List Token)
  | 0, _, _ => none
  | n + 1, op, ts =>
    match expect op.token ts with
    | some rest =>
      (phrase n op.level.next rest).bind fun p ↦ (operands n op p.2).map fun q ↦ (p.1 :: q.1, q.2)
    | none => some ([], ts)

def chain : Nat → List Token → Option (List (CompareOp × Tree) × List Token)
  | 0, _ => none
  | n + 1, ts =>
    match compareOp? ts with
    | some (op, rest) =>
      (phrase n .bitwiseOr rest).bind fun p ↦ (chain n p.2).map fun q ↦ ((op, p.1) :: q.1, q.2)
    | none => some ([], ts)

def item : Nat → (k : Kind) → List Token → Option (k.Item × List Token)
  | 0, _, _ => none
  | n + 1, .plain, ts => phrase n .expression ts
  | n + 1, .argument, ts =>
    (phrase n .expression ts).bind fun p ↦
      match expect (.mark "=") p.2 with
      | some rest => (phrase n .expression rest).map fun q ↦ ((nameOf? p.1, q.1), q.2)
      | none => some ((none, p.1), p.2)
  | n + 1, .entry, ts =>
    (phrase n .expression ts).bind fun p ↦ (expect (.mark ":") p.2).bind fun rest ↦
      (phrase n .expression rest).map fun q ↦ ((p.1, q.1), q.2)

def items : Nat → (k : Kind) → List Token → Option (List k.Item × List Token)
  | 0, _, _ => none
  | n + 1, k, ts =>
    if ts.head?.any Token.isCloser then some ([], ts)
    else (item n k ts).bind fun p ↦
      match expect (.mark ",") p.2 with
      | some rest => (items n k rest).map fun q ↦ (p.1 :: q.1, q.2)
      | none => some ([p.1], p.2)

end

variable {s l : Level} {tok : Token} {t : Tree} {ts rest : List Token} {n : ℕ}

@[simp] theorem expect_cons_self : expect tok (tok :: rest) = some rest := by
  simp [expect]

theorem expect_eq_none (h : ∀ tok' ∈ ts.head?, tok' ≠ tok) : expect tok ts = none := by
  cases ts with
  | nil => rfl
  | cons tok' ts => simp [expect, h tok' rfl]

/-- No phrase of the level, or of a stronger one, goes on with these tokens. -/
def Stops (s : Level) (ts : List Token) : Prop :=
  ∀ tok ∈ ts.head?, ∀ l, tok.continues? = some l → l.rank < s.rank

/-- A phrase of the level ends before these tokens, though a larger one of the same level may not. -/
def Ready (s : Level) (ts : List Token) : Prop :=
  ∀ tok ∈ ts.head?, ∀ l, tok.continues? = some l → l.rank < s.rank ∨ l = s ∧ s.isLeftRecursive = true

theorem Stops.ready (h : Stops s ts) : Ready s ts := fun tok ht l hl ↦ .inl (h tok ht l hl)

theorem Ready.stops_next (h : Ready s ts) (hs : s ≠ .primary) : Stops s.next ts := by
  intro tok ht l hl
  have hn := Level.rank_lt_next hs
  rcases h tok ht l hl with hlt | ⟨rfl, -⟩
  · exact hlt.trans hn
  · exact hn

theorem Ready.stops (h : Ready s ts) (hs : s.isLeftRecursive = false) : Stops s ts := by
  intro tok ht l hl
  rcases h tok ht l hl with hlt | ⟨-, hs'⟩
  · exact hlt
  · simp [hs] at hs'

theorem Stops.mono {s' : Level} (h : Stops s ts) (hs : s.rank ≤ s'.rank) : Stops s' ts := fun tok ht l hl ↦
  (h tok ht l hl).trans_le hs

theorem stops_of_continues (h : tok.continues? = some l) (hl : l.rank < s.rank) : Stops s (tok :: ts) := by
  intro tok' ht l' hl'
  cases ht
  rw [h] at hl'
  cases hl'
  exact hl

theorem stops_of_none (h : tok.continues? = none) : Stops s (tok :: ts) := by
  intro tok' ht l' hl'
  cases ht
  rw [h] at hl'
  cases hl'

theorem stops_nil : Stops s [] := fun _ ht ↦ nomatch ht

theorem Stops.expect_eq_none (h : Stops s ts) (hc : tok.continues? = some l) (hl : s.rank ≤ l.rank) :
    expect tok ts = none := by
  refine Parser.expect_eq_none fun tok' ht he ↦ ?_
  subst he
  exact absurd (h tok' ht l hc) (Nat.not_lt.mpr hl)

theorem continues?_booleanToken (op : BoolOp) : op.token.continues? = some op.level := by
  cases op <;> rfl

theorem continues?_binaryToken (op : BinaryOp) : op.token.continues? = some op.level := by
  cases op <;> rfl

theorem exists_compareTokens (op : CompareOp) :
    ∃ tok us, op.tokens = tok :: us ∧ tok.continues? = some .comparison := by
  cases op <;> exact ⟨_, _, rfl, rfl⟩

theorem Stops.compareOp?_eq_none (h : Stops .comparison ts) : compareOp? ts = none := by
  refine Option.map_eq_none_iff.mpr (List.find?_eq_none.mpr fun op _ hp ↦ ?_)
  obtain ⟨tok, us, he, hc⟩ := exists_compareTokens op
  rw [he] at hp
  cases ts with
  | nil => cases hp
  | cons tok' ts =>
    simp only [List.isPrefixOf_cons_cons, Bool.and_eq_true, beq_iff_eq] at hp
    exact absurd (h tok' rfl _ (hp.1 ▸ hc)) (Nat.lt_irrefl _)

theorem Stops.binaryOp?_eq_none (h : Stops s ts) : binaryOp? s ts = none := by
  cases ts with
  | nil => rfl
  | cons tok ts =>
    refine Option.map_eq_none_iff.mpr (List.find?_eq_none.mpr fun op _ hp ↦ ?_)
    simp only [decide_eq_true_eq] at hp
    obtain ⟨rfl, rfl⟩ := hp
    exact absurd (h _ rfl _ (continues?_binaryToken op)) (Nat.lt_irrefl _)

theorem Stops.operands_eq (op : BoolOp) (h : Stops op.level ts) : operands (n + 1) op ts = some ([], ts) := by
  rw [operands, h.expect_eq_none (continues?_booleanToken op) le_rfl]

theorem Stops.chain_eq (h : Stops .comparison ts) : chain (n + 1) ts = some ([], ts) := by
  rw [chain, h.compareOp?_eq_none]

theorem Stops.tail_eq (h : Stops s ts) : tail (n + 2) s t ts = some (t, ts) := by
  cases s with
  | expression => rw [tail, h.expect_eq_none rfl le_rfl]
  | disjunction =>
    rw [tail, Stops.operands_eq .or h]
    rfl
  | conjunction =>
    rw [tail, Stops.operands_eq .and h]
    rfl
  | comparison =>
    rw [tail, h.chain_eq]
    rfl
  | inversion | factor => rfl
  | power => rw [tail, h.expect_eq_none (l := .power) rfl le_rfl]
  | primary =>
    rw [tail]
    · rintro attr rest rfl
      exact absurd (h _ rfl .primary rfl) (Nat.lt_irrefl _)
    · rintro rest rfl
      exact absurd (h _ rfl .primary rfl) (Nat.lt_irrefl _)
  | bitwiseOr | bitwiseXor | bitwiseAnd | shift | sum | term =>
    rw [tail, h.binaryOp?_eq_none] <;> rintro ⟨⟩

def Opens (s : Level) (tok : Token) : Prop := ∃ l, tok.opens? = some l ∧ s.rank ≤ l.rank

theorem Opens.mono {s' : Level} (h : Opens s' tok) (hs : s.rank ≤ s'.rank) : Opens s tok := by
  obtain ⟨l, ho, hl⟩ := h
  exact ⟨l, ho, hs.trans hl⟩

theorem opens?_leaf (h : leaf? tok = some t) : tok.opens? = some .primary := by
  unfold leaf? at h
  split at h <;> first | rfl | cases h

def Begins : (c : Category) → List Token → Prop
  | .phrase s, ts => ∃ tok us, ts = tok :: us ∧ Opens s tok
  | .item _, ts => ∃ tok us, ts = tok :: us ∧ Opens .expression tok
  | _, _ => True

theorem Begins.append {s s' : Level} (h : Begins (.phrase s') ts) (hs : s.rank ≤ s'.rank) (us : List Token) :
    Begins (.phrase s) (ts ++ us) := by
  obtain ⟨tok, vs, rfl, ho⟩ := h
  exact ⟨tok, vs ++ us, rfl, ho.mono hs⟩

theorem begins {c : Category} {r : c.Result} (h : Derives c ts r) : Begins c ts := by
  induction h with
  | @weaken s ts t _ ih => simpa using ih.append s.rank_le_next []
  | conditional _ _ _ ih _ _ =>
    rw [List.append_assoc]
    exact ih.append (by decide) _
  | @boolean op _ us _ _ _ _ _ ih _ => exact ih.append op.level.rank_le_next us
  | @unary op ts _ _ _ => exact ⟨op.token, ts, rfl, op.level, by cases op <;> rfl, le_rfl⟩
  | compare _ _ _ ih _ => exact ih.append (by decide) _
  | binary _ _ _ ih _ => exact ih.append le_rfl _
  | power _ _ ih _ => exact ih.append (by decide) _
  | member _ ih => exact ih.append le_rfl _
  | call _ _ ih _ =>
    rw [List.append_assoc]
    exact ih.append le_rfl _
  | leaf h => exact ⟨_, [], rfl, .primary, opens?_leaf h, le_rfl⟩
  | group | tuple_nil | tuple_cons | list | dict => exact ⟨_, _, rfl, .primary, rfl, le_rfl⟩
  | plain _ ih | positional _ ih => exact ih
  | keyword => exact ⟨_, _, rfl, .primary, rfl, by decide⟩
  | entry _ _ ih _ => exact ih.append le_rfl _
  | operands_nil | operands_cons | chain_nil | chain_cons | items_nil | items_one | items_cons => trivial

theorem opens?_unaryToken (op : UnaryOp) : op.token.opens? = some op.level := by
  cases op <;> rfl

theorem Opens.unaryOp?_eq_none (h : Opens s.next tok) : unaryOp? s (tok :: ts) = none := by
  refine Option.map_eq_none_iff.mpr (List.find?_eq_none.mpr fun op _ hp ↦ ?_)
  simp only [decide_eq_true_eq] at hp
  obtain ⟨rfl, rfl⟩ := hp
  obtain ⟨l, ho, hl⟩ := h
  rw [opens?_unaryToken] at ho
  cases ho
  exact absurd (Level.rank_lt_next (by cases op <;> decide)) (Nat.not_lt.mpr hl)

theorem Opens.isCloser_eq_false (h : Opens s tok) : tok.isCloser = false := by
  obtain ⟨l, ho, -⟩ := h
  by_contra hc
  simp only [Token.isCloser, Bool.or_eq_true, beq_iff_eq, Bool.not_eq_false] at hc
  rcases hc with (rfl | rfl) | rfl <;> cases ho

theorem unaryOp?_token (op : UnaryOp) : unaryOp? op.level (op.token :: ts) = some (op, ts) := by
  cases op <;> rfl

theorem unaryOp?_primary : unaryOp? .primary ts = none := by
  cases ts <;> rfl

theorem binaryOp?_token {op : BinaryOp} (h : op ≠ .pow) (ts : List Token) : binaryOp? op.level (op.token :: ts) = some (op, ts) := by
  cases op <;> first | rfl | contradiction

theorem compareOp?_tokens (op : CompareOp) (h : Opens .bitwiseOr tok) (ts : List Token) :
    compareOp? (op.tokens ++ tok :: ts) = some (op, tok :: ts) := by
  have hn : tok ≠ .mark "not" := by
    rintro rfl
    obtain ⟨l, ho, hl⟩ := h
    cases ho
    revert hl
    decide
  cases op <;> simp [compareOp?, CompareOp.tokens, hn.symm]

theorem splitItems_callItems (args : List Tree) (keywords : List (String × Tree)) :
    splitItems (callItems args keywords) = (args, keywords) := by
  simp [splitItems, callItems, List.filterMap_append, List.filterMap_map]

theorem ready_of_continues (h : tok.continues? = some s) (hs : s.isLeftRecursive = true) : Ready s (tok :: ts) := by
  intro tok' ht l hl
  cases ht
  rw [h] at hl
  cases hl
  exact .inr ⟨rfl, hs⟩

end Parser

end MacroLisp.Host
