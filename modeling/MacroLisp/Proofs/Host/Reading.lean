import MacroLisp.Proofs.Host.Spelling
import MacroLisp.Proofs.Host.Unambiguous

namespace MacroLisp.Host

variable {A : Alphabet} {s s' : Level} {point : Bool} {text text' : List Char} {t t' : Tree} {e : Expr}

def Strength.level : Strength → Level
  | test => .expression
  | or => .disjunction
  | and => .conjunction
  | not => .inversion
  | compare => .comparison
  | bitOr => .bitwiseOr
  | bitXor => .bitwiseXor
  | bitAnd => .bitwiseAnd
  | shift => .shift
  | arith => .sum
  | term => .term
  | factor => .factor
  | power => .power
  | atom => .primary

theorem Strength.rank_level (s : Strength) : s.level.rank = s.rank := by
  cases s <;> rfl

theorem Derives.of_rank_le {ts : List Token} (h : Derives (.phrase s') ts t) (hs : s.rank ≤ s'.rank) :
    Derives (.phrase s) ts t :=
  Level.descend (P := fun s ↦ Derives (.phrase s) ts t) (fun _ ↦ .weaken) hs h

/-- The first character does not change a sign before it. -/
def Leads (text : List Char) : Prop := ∃ c cs, text = c :: cs ∧ leads c = true

/-- The text is a phrase of the level, and a point may or may not follow it. -/
def Written (A : Alphabet) (point : Bool) (s : Level) (text : List Char) (t : Tree) : Prop :=
  Leads text ∧ ∃ ts, Spells A (closes point) text ts ∧ Derives (.phrase s) ts t

theorem Leads.append (h : Leads text) : Leads (text ++ text') := by
  obtain ⟨c, cs, rfl, hc⟩ := h
  exact ⟨c, cs ++ text', rfl, hc⟩

theorem Leads.all_leads (h : Leads text) (rest : List Char) : (text ++ rest).head?.all leads = true := by
  obtain ⟨c, cs, rfl, hc⟩ := h
  exact hc

theorem Written.of_rank_le (h : Written A point s' text t) (hs : s.rank ≤ s'.rank) : Written A point s text t := by
  obtain ⟨hl, ts, hspell, hd⟩ := h
  exact ⟨hl, ts, hspell, hd.of_rank_le hs⟩

theorem Written.strict (h : Written A point s text t) : Written A false s text t := by
  obtain ⟨hl, ts, hspell, hd⟩ := h
  refine ⟨hl, ts, hspell.mono fun c hc ↦ ?_, hd⟩
  cases point with
  | true => exact closes_mono hc
  | false => exact hc

theorem Written.paren (h : Written A point .expression text t) :
    Written A true .primary ('(' :: text ++ [')']) t := by
  obtain ⟨-, ts, hspell, hd⟩ := h.strict
  have hopen : Spells A anything ['('] [.mark "("] := spells_delimiter (s := "(") (by decide)
  have hclose : Spells A anything [')'] [.mark ")"] := spells_delimiter (s := ")") (by decide)
  refine ⟨⟨'(', _, rfl, rfl⟩, .mark "(" :: ts ++ [.mark ")"], ?_, .group hd⟩
  exact (hopen.append (hspell.append_cons (hclose.mono fun _ _ ↦ rfl) rfl) fun _ _ ↦ all_anything _)

theorem written_leaf {tok : Token} (hl : Leads text) (h : Spells A (closes point) text [tok]) (ht : leaf? tok = some t) :
    Written A point .primary text t := ⟨hl, _, h, .leaf ht⟩

namespace Expr

/-- Whether a point may follow. -/
def takesPoint (e : Expr) : Bool := decide (e.strength = .atom) && !e.isInt

/-- The source is a phrase of the level that belongs to the strength of the expression. -/
def Legible (A : Alphabet) (e : Expr) : Prop := Written A e.takesPoint e.strength.level e.source.toList e.tree

theorem Legible.enclose (h : Legible A e) (needed : Strength) :
    Written A false needed.level (enclose needed e e.source).toList e.tree := by
  unfold Expr.enclose
  split
  · simp only [String.toList_append]
    exact (Written.paren (h.of_rank_le (by cases e.strength <;> decide))).strict.of_rank_le (Level.rank_le_primary _)
  · next hn =>
    refine h.strict.of_rank_le ?_
    simpa only [Strength.rank_level, not_lt] using hn

theorem Legible.paren (h : Legible A e) : Written A true .primary ('(' :: e.source.toList ++ [')']) e.tree :=
  Written.paren (h.of_rank_le (by cases e.strength <;> decide))

theorem Legible.enclose_atom (h : Legible A e) :
    Written A (!e.isInt) .primary (Expr.enclose .atom e e.source).toList e.tree := by
  unfold Expr.enclose
  split
  · simp only [String.toList_append]
    cases e.isInt with
    | true => exact h.paren.strict
    | false => exact h.paren
  · next hn =>
    have ha : e.strength = .atom := by
      revert hn
      cases e.strength <;> simp [Strength.rank]
    simpa only [Legible, takesPoint, ha, decide_true, Bool.true_and, Strength.level] using h

theorem Legible.base (h : Legible A e) :
    Written A true .primary
      (if e.isInt then "(" ++ Expr.enclose .atom e e.source ++ ")" else Expr.enclose .atom e e.source).toList e.tree := by
  have ha := h.enclose_atom
  split
  · simp only [String.toList_append]
    exact Written.paren (ha.of_rank_le (Level.rank_le_primary _))
  · next hi => simpa [hi] using ha

end Expr

theorem leads_of_start {c : Char} (h : A.start c = true) : leads c = true := by
  by_contra hn
  simp only [leads, Bool.and_eq_true, bne_iff_ne, ne_eq, not_and_or, not_not] at hn
  rcases hn with rfl | rfl <;> simp [A.start_ascii] at h

theorem leads_word {id : String} (h : A.isIdentifierChars id.toList = true) : Leads id.toList := by
  cases hs : id.toList with
  | nil => simp [hs, Alphabet.isIdentifierChars] at h
  | cons c cs =>
    simp only [hs, Alphabet.isIdentifierChars, Bool.and_eq_true] at h
    exact ⟨c, cs, rfl, leads_of_start h.1⟩

theorem leads_reserved {w : String} (h : w ∈ reservedWords) : Leads w.toList := by
  have hall : ∀ w ∈ reservedWords, w.toList.head?.any leads = true := by decide
  obtain ⟨c, hc, hl⟩ := (Option.any_eq_true _ _).mp (hall w h)
  obtain ⟨cs, hcs⟩ := List.head?_eq_some_iff.mp hc
  exact ⟨c, cs, hcs, hl⟩

theorem written_reserved {w : String} (h : w ∈ reservedWords) (ht : leaf? (.mark w) = some t) :
    Written A true .primary w.toList t :=
  written_leaf (leads_reserved h) ((spells_reserved h).mono fun _ ↦ A.endsWord_closes) ht

theorem written_name {id : String} (h : A.isName id = true) : Written A true .primary id.toList (.name id) := by
  refine written_leaf (leads_word (A := A) ?_) ((spells_name h).mono fun _ ↦ A.endsWord_closes) rfl
  simp only [Alphabet.isName, Bool.and_eq_true] at h
  exact h.1

theorem Written.member {attr : String} (h : Written A true .primary text t) (ha : A.isName attr = true) :
    Written A true .primary (text ++ '.' :: attr.toList) (.member t attr) := by
  obtain ⟨hl, ts, hspell, hd⟩ := h
  have hattr : ∀ rest : List Char, rest.head?.all (closes true) = true → (attr.toList ++ rest).head?.all A.start = true := by
    intro rest _
    simp only [Alphabet.isName, Bool.and_eq_true] at ha
    cases hs : attr.toList with
    | nil => simp [hs, Alphabet.isIdentifierChars] at ha
    | cons c cs =>
      simp only [hs, Alphabet.isIdentifierChars, Bool.and_eq_true] at ha
      exact ha.1.1
  refine ⟨hl.append, ts ++ [.mark ".", .name attr], ?_, .member hd⟩
  exact hspell.append_cons (spells_point.append ((spells_name ha).mono fun _ ↦ A.endsWord_closes) hattr) rfl

theorem Written.binary {op : BinaryOp} {l r : Level} (h : Written A false l text t) (h' : Written A false r text' t')
    (hd : ∀ {ts us : List Token}, Derives (.phrase l) ts t → Derives (.phrase r) us t' →
      Derives (.phrase s) (ts ++ op.token :: us) (Tree.binary t op t')) :
    Written A false s (text ++ ' ' :: op.symbol.toList ++ ' ' :: text') (.binary t op t') := by
  obtain ⟨hl, ts, hspell, hleft⟩ := h
  obtain ⟨-, us, hspell', hright⟩ := h'
  refine ⟨hl.append.append, ts ++ op.token :: us, ?_, hd hleft hright⟩
  rw [List.append_assoc]
  exact hspell.append_cons ((spells_binaryOp op).append_cons hspell'.blank_cons rfl).blank_cons rfl

theorem Written.unary {op : UnaryOp} (h : Written A false op.level text t) :
    Written A false op.level (op.symbol.toList ++ text) (.unary op t) := by
  obtain ⟨hl, ts, hspell, hd⟩ := h
  have hsign : ∀ w ∈ ["~", "+", "-", "="], Spells A (closes false) (w.toList ++ text) (.mark w :: ts) := fun w hw ↦
    (spells_before_lead hw).append hspell fun rest _ ↦ hl.all_leads rest
  cases op with
  | not =>
    refine ⟨⟨'n', _, rfl, rfl⟩, .mark "not" :: ts, ?_, .unary hd⟩
    exact (spells_word_blank (s := "not") (by decide)).append_cons hspell.blank_cons rfl
  | invert => exact ⟨⟨'~', _, rfl, rfl⟩, .mark "~" :: ts, hsign "~" (by decide), .unary hd⟩
  | plus => exact ⟨⟨'+', _, rfl, rfl⟩, .mark "+" :: ts, hsign "+" (by decide), .unary hd⟩
  | minus => exact ⟨⟨'-', _, rfl, rfl⟩, .mark "-" :: ts, hsign "-" (by decide), .unary hd⟩

theorem Written.conditional {body test orelse : List Char} {b c o : Tree} (hb : Written A false .disjunction body b)
    (hc : Written A false .disjunction test c) (ho : Written A false .expression orelse o) :
    Written A false .expression (body ++ " if ".toList ++ test ++ " else ".toList ++ orelse) (.conditional c b o) := by
  obtain ⟨hl, ts, hbody, hdb⟩ := hb
  obtain ⟨-, us, htest, hdc⟩ := hc
  obtain ⟨-, vs, horelse, hdo⟩ := ho
  refine ⟨hl.append.append.append.append, _, ?_, .conditional hdb hdc hdo⟩
  have hif : Spells A blankOnly "if".toList [.mark "if"] := spells_word_blank (by decide)
  have helse : Spells A blankOnly "else".toList [.mark "else"] := spells_word_blank (by decide)
  have h₁ := (helse.append_cons horelse.blank_cons rfl).blank_cons
  have h₂ := (hif.append_cons (htest.append_cons h₁ rfl).blank_cons rfl).blank_cons
  have h₃ := hbody.append_cons h₂ rfl
  simpa using h₃

theorem exists_operands (op : BoolOp) {es : List Expr} (h : ∀ e ∈ es, e.Legible A) :
    ∃ ts, Derives (.operands op) ts (es.map Expr.tree) ∧
      Spells A (closes false)
        (es.flatMap fun e ↦ ' ' :: op.symbol.toList ++ ' ' :: (e.enclose op.strength.next e.source).toList) ts := by
  induction es with
  | nil => exact ⟨[], .operands_nil, spells_nil⟩
  | cons e es ih =>
    obtain ⟨us, hdv, hspells⟩ := ih fun e' he' ↦ h e' (List.mem_cons_of_mem _ he')
    obtain ⟨-, ts, hspell, hd⟩ := (h e (by simp)).enclose op.strength.next
    have hlevel : op.strength.next.level = op.level.next := by cases op <;> rfl
    have hword : Spells A blankOnly op.symbol.toList [op.token] := by
      cases op with
      | and => exact spells_word_blank (s := "and") (by decide)
      | or => exact spells_word_blank (s := "or") (by decide)
    rw [hlevel] at hd
    refine ⟨op.token :: ts ++ us, .operands_cons hd hdv, ?_⟩
    rw [List.flatMap_cons]
    refine ((hword.append_cons hspell.blank_cons rfl).blank_cons).append hspells fun rest hr ↦ ?_
    cases es with
    | nil => exact hr
    | cons e' es => rfl

theorem Expr.legible_boolean {op : BoolOp} {values : List Expr} (h : ∀ e ∈ values, e.Legible A)
    (hlen : 2 ≤ values.length) : (Expr.boolean op values).Legible A := by
  obtain ⟨e, es, rfl⟩ := List.exists_cons_of_length_pos (by omega : 0 < values.length)
  obtain ⟨us, hdv, hspells⟩ := exists_operands op fun e' he' ↦ h e' (List.mem_cons_of_mem e he')
  obtain ⟨hl, ts, hspell, hd⟩ := (h e (by simp)).enclose op.strength.next
  have hlevel : op.strength.next.level = op.level.next := by cases op <;> rfl
  have hlevel' : (Expr.boolean op (e :: es)).strength.level = op.level := by cases op <;> rfl
  have hpoint : (Expr.boolean op (e :: es)).takesPoint = false := by cases op <;> rfl
  have hne : es.map Expr.tree ≠ [] := by
    intro hn
    simp only [List.map_eq_nil_iff] at hn
    simp [hn] at hlen
  rw [hlevel] at hd
  rw [Expr.Legible, hlevel', hpoint, Expr.toList_source_boolean, Expr.tree, Expr.trees_eq_map]
  refine ⟨hl.append, ts ++ us, hspell.append hspells fun rest hr ↦ ?_, .boolean hd hdv hne⟩
  cases es with
  | nil => exact hr
  | cons e' es => rfl

theorem exists_chain {es : List Expr} (h : ∀ e ∈ es, e.Legible A) (ops : List CompareOp) :
    ∃ ts, Derives .chain ts (ops.zip (es.map Expr.tree)) ∧
      Spells A (closes false)
        ((ops.zip es).flatMap fun p ↦ ' ' :: p.1.symbol.toList ++ ' ' :: (p.2.enclose .bitOr p.2.source).toList) ts := by
  induction es generalizing ops with
  | nil => exact ⟨[], by simpa using .chain_nil, by simpa using spells_nil⟩
  | cons e es ih =>
    cases ops with
    | nil => exact ⟨[], .chain_nil, spells_nil⟩
    | cons op ops =>
      obtain ⟨us, hdl, hspells⟩ := ih (fun e' he' ↦ h e' (List.mem_cons_of_mem _ he')) ops
      obtain ⟨-, ts, hspell, hd⟩ := (h e (by simp)).enclose .bitOr
      refine ⟨op.tokens ++ ts ++ us, .chain_cons hd hdl, ?_⟩
      rw [List.zip_cons_cons, List.flatMap_cons]
      refine (((spells_compareOp op).append_cons hspell.blank_cons rfl).blank_cons).append hspells fun rest hr ↦ ?_
      cases hz : ops.zip es with
      | nil => exact hr
      | cons p ps => rfl

theorem Expr.legible_compare {left : Expr} {ops : List CompareOp} {comparators : List Expr} (hl : left.Legible A)
    (h : ∀ e ∈ comparators, e.Legible A) (hlen : ops.length = comparators.length) (hpos : 1 ≤ ops.length) :
    (Expr.compare left ops comparators).Legible A := by
  obtain ⟨us, hdl, hspells⟩ := exists_chain h ops
  obtain ⟨hlead, ts, hspell, hd⟩ := hl.enclose .bitOr
  have hfst : (ops.zip (comparators.map Expr.tree)).map Prod.fst = ops := List.map_fst_zip (by simp [hlen])
  have hsnd : (ops.zip (comparators.map Expr.tree)).map Prod.snd = comparators.map Expr.tree :=
    List.map_snd_zip (by simp [hlen])
  have hne : ops.zip (comparators.map Expr.tree) ≠ [] := by
    intro hn
    rw [hn] at hfst
    simp [← hfst] at hpos
  rw [Expr.Legible, Expr.toList_source_compare, Expr.tree, Expr.trees_eq_map]
  refine ⟨hlead.append, ts ++ us, hspell.append hspells fun rest hr ↦ ?_, ?_⟩
  · cases hz : ops.zip comparators with
    | nil => exact hr
    | cons p ps => rfl
  · have hc := Derives.compare hd hdl hne
    rwa [hfst, hsnd] at hc

def WrittenItem (A : Alphabet) (k : Kind) (text : List Char) (v : k.Item) : Prop :=
  ∃ ts, Spells A (closes false) text ts ∧ Derives (.item k) ts v

theorem spells_commaBlank : Spells A anything commaBlank [.mark ","] := by
  have hcomma : Spells A anything [','] [.mark ","] := spells_delimiter (s := ",") (by decide)
  exact hcomma.append spells_blank fun _ _ ↦ all_anything _

theorem exists_items {k : Kind} {texts : List (List Char)} {vs : List k.Item}
    (h : List.Forall₂ (WrittenItem A k) texts vs) :
    ∃ ts, Spells A (closes false) (commaBlank.intercalate texts) ts ∧ Derives (.items k) ts vs := by
  induction h with
  | nil => exact ⟨[], spells_nil, .items_nil⟩
  | @cons text v texts vs hi hs ih =>
    obtain ⟨ts, hspell, hd⟩ := hi
    cases hs with
    | nil => exact ⟨ts, by simpa using hspell, .items_one hd⟩
    | cons _ _ =>
      obtain ⟨us, hspells, hds⟩ := ih
      refine ⟨ts ++ .mark "," :: us, ?_, .items_cons hd hds⟩
      rw [List.intercalate_cons_cons, List.append_assoc]
      exact hspell.append_cons (spells_commaBlank.append hspells fun _ _ ↦ all_anything _) rfl

theorem Spells.bracket {l r : String} {text : List Char} {ts : List Token} (h : Spells A (closes false) text ts)
    (hl : l ∈ ["(", "[", "\x7b"]) (hr : r ∈ [")", "]", "\x7d"]) :
    Spells A anything (l.toList ++ text ++ r.toList) (.mark l :: ts ++ [.mark r]) := by
  have hopen : Spells A anything l.toList [.mark l] := spells_delimiter (by revert l; decide)
  have hclose : Spells A anything r.toList [.mark r] := spells_delimiter (by revert r; decide)
  rw [List.append_assoc]
  refine hopen.append (h.append hclose fun rest _ ↦ ?_) fun _ _ ↦ all_anything _
  simp only [List.mem_cons, List.not_mem_nil, or_false] at hr
  rcases hr with rfl | rfl | rfl <;> rfl

theorem written_bracket {l r : String} {ts : List Token} (h : Spells A (closes false) text ts)
    (hl : l ∈ ["(", "[", "\x7b"]) (hr : r ∈ [")", "]", "\x7d"])
    (hd : Derives (.phrase .primary) (.mark l :: ts ++ [.mark r]) t) :
    Written A true .primary (l.toList ++ text ++ r.toList) t := by
  refine ⟨Leads.append (Leads.append ?_), _, (h.bracket hl hr).mono fun _ _ ↦ rfl, hd⟩
  simp only [List.mem_cons, List.not_mem_nil, or_false] at hl
  rcases hl with rfl | rfl | rfl <;> exact ⟨_, _, rfl, rfl⟩

theorem writtenItem_plain (h : e.Legible A) : WrittenItem A .plain (e.enclose .test e.source).toList e.tree := by
  obtain ⟨-, ts, hspell, hd⟩ := h.enclose .test
  exact ⟨ts, hspell, .plain hd⟩

theorem writtenItem_positional (h : e.Legible A) :
    WrittenItem A .argument (e.enclose .test e.source).toList (none, e.tree) := by
  obtain ⟨-, ts, hspell, hd⟩ := h.enclose .test
  exact ⟨ts, hspell, .positional hd⟩

theorem writtenItem_keyword {key : String} (hk : A.isName key = true) (h : e.Legible A) :
    WrittenItem A .argument (key ++ "=" ++ e.enclose .test e.source).toList (some key, e.tree) := by
  obtain ⟨hl, ts, hspell, hd⟩ := h.enclose .test
  have hequal : Spells A leads ['='] [.mark "="] := spells_before_lead (s := "=") (by decide)
  have hends : A.endsWord '=' = true := by simp [Alphabet.endsWord, A.part_ascii, isQuote]
  refine ⟨.name key :: .mark "=" :: ts, ?_, .keyword hd⟩
  rw [String.toList_append, String.toList_append, List.append_assoc]
  exact (spells_name hk).append_cons (hequal.append hspell fun rest _ ↦ hl.all_leads rest) hends

theorem writtenItem_entry {key value : Expr} (hk : key.Legible A) (hv : value.Legible A) :
    WrittenItem A .entry (key.enclose .test key.source ++ ": " ++ value.enclose .test value.source).toList
      (key.tree, value.tree) := by
  obtain ⟨-, ts, hspell, hd⟩ := hk.enclose .test
  obtain ⟨-, us, hspell', hd'⟩ := hv.enclose .test
  refine ⟨ts ++ .mark ":" :: us, ?_, .entry hd hd'⟩
  rw [String.toList_append, String.toList_append, List.append_assoc]
  exact hspell.append_cons (spells_colon.append_cons hspell'.blank_cons rfl) rfl

namespace Expr

variable {items args keys values : List Expr} {keywords : List (String × Expr)}

theorem forall₂_plain (h : ∀ e ∈ items, e.Legible A) :
    List.Forall₂ (WrittenItem A .plain) (items.map fun e ↦ (e.enclose .test e.source).toList) (items.map tree) := by
  rw [List.forall₂_map_left_iff, List.forall₂_map_right_iff, List.forall₂_same]
  exact fun e he ↦ writtenItem_plain (h e he)

theorem legible_list (h : ∀ e ∈ items, e.Legible A) : (list items).Legible A := by
  obtain ⟨ts, hspell, hd⟩ := exists_items (forall₂_plain h)
  rw [Legible, toList_source_list, tree, trees_eq_map]
  exact written_bracket hspell (by decide) (by decide) (.list hd)

theorem legible_dict (hk : ∀ e ∈ keys, e.Legible A) (hv : ∀ e ∈ values, e.Legible A)
    (hlen : keys.length = values.length) : (dict keys values).Legible A := by
  have hitems : List.Forall₂ (WrittenItem A .entry)
      ((keys.zip values).map fun p ↦
        (p.1.enclose .test p.1.source ++ ": " ++ p.2.enclose .test p.2.source).toList)
      ((keys.map tree).zip (values.map tree)) := by
    rw [List.zip_map, List.forall₂_map_left_iff, List.forall₂_map_right_iff, List.forall₂_same]
    intro p hp
    exact writtenItem_entry (hk p.1 (List.of_mem_zip hp).1) (hv p.2 (List.of_mem_zip hp).2)
  obtain ⟨ts, hspell, hd⟩ := exists_items hitems
  have hfst : ((keys.map tree).zip (values.map tree)).map Prod.fst = keys.map tree :=
    List.map_fst_zip (by simp [hlen])
  have hsnd : ((keys.map tree).zip (values.map tree)).map Prod.snd = values.map tree :=
    List.map_snd_zip (by simp [hlen])
  rw [Legible, toList_source_dict, tree, trees_eq_map, trees_eq_map]
  have hdict := Derives.dict hd
  rw [hfst, hsnd] at hdict
  exact written_bracket hspell (by decide) (by decide) hdict

theorem legible_call {func : Expr} (hf : func.Legible A) (h : ∀ e ∈ args, e.Legible A)
    (hn : ∀ k ∈ keywords, A.isName k.1 = true) (hk : ∀ k ∈ keywords, k.2.Legible A) :
    (call func args keywords).Legible A := by
  have hargs : List.Forall₂ (WrittenItem A .argument) (args.map fun e ↦ (e.enclose .test e.source).toList)
      ((args.map tree).map (Option.none, ·)) := by
    rw [List.map_map, List.forall₂_map_left_iff, List.forall₂_map_right_iff, List.forall₂_same]
    exact fun e he ↦ writtenItem_positional (h e he)
  have hkeys : List.Forall₂ (WrittenItem A .argument)
      (keywords.map fun k ↦ (k.1 ++ "=" ++ k.2.enclose .test k.2.source).toList)
      ((keywordTrees keywords).map fun k ↦ (some k.1, k.2)) := by
    rw [keywordTrees_eq_map, List.map_map, List.forall₂_map_left_iff, List.forall₂_map_right_iff, List.forall₂_same]
    exact fun k hm ↦ writtenItem_keyword (hn k hm) (hk k hm)
  obtain ⟨us, hspells, hds⟩ := exists_items (List.rel_append hargs hkeys)
  obtain ⟨hl, ts, hspell, hd⟩ := hf.enclose_atom
  rw [Legible, toList_source_call, tree, trees_eq_map]
  refine ⟨hl.append, ts ++ (.mark "(" :: us ++ [.mark ")"]), ?_, ?_⟩
  · refine hspell.append ((hspells.bracket (by decide) (by decide)).mono fun _ _ ↦ rfl) fun rest _ ↦ ?_
    cases func.isInt <;> rfl
  · have hcall := Derives.call hd hds
    rwa [List.append_assoc] at hcall

theorem legible_tuple (h : ∀ e ∈ items, e.Legible A) : (tuple items).Legible A := by
  rw [Legible, tree, trees_eq_map]
  cases items with
  | nil =>
    have htext : (tuple []).source.toList = "(".toList ++ [] ++ ")".toList := by simp [source]
    rw [htext]
    exact written_bracket spells_nil (by decide) (by decide) .tuple_nil
  | cons e es =>
    obtain ⟨-, ts, hspell, hd⟩ := (h e (by simp)).enclose .test
    have hes : ∀ e' ∈ es, e'.Legible A := fun e' he' ↦ h e' (List.mem_cons_of_mem e he')
    obtain ⟨us, hspells, hds⟩ := exists_items (forall₂_plain hes)
    have hcomma : Spells A anything [','] [.mark ","] := spells_delimiter (s := ",") (by decide)
    have hitems : ∃ text, (tuple (e :: es)).source.toList = "(".toList ++ text ++ ")".toList ∧
        Spells A (closes false) text (ts ++ .mark "," :: us) := by
      cases es with
      | nil =>
        cases hds
        refine ⟨(e.enclose .test e.source).toList ++ [','], by simp [source], ?_⟩
        exact (hspell.append_cons hcomma rfl).mono fun _ _ ↦ rfl
      | cons e' es =>
        refine ⟨(e.enclose .test e.source).toList ++ (commaBlank ++ commaBlank.intercalate
          ((e' :: es).map fun e ↦ (e.enclose .test e.source).toList)), ?_, ?_⟩
        · simp [source, commaBlank, Function.comp_def]
        · exact hspell.append_cons (spells_commaBlank.append hspells fun _ _ ↦ all_anything _) rfl
    obtain ⟨text, htext, htext'⟩ := hitems
    rw [htext]
    refine written_bracket htext' (by decide) (by decide) ?_
    simpa using Derives.tuple_cons hd hds

end Expr

theorem leads_digits {c : Char} (h : c.isDigit = true) : leads c = true := by
  by_contra hn
  simp only [leads, Bool.and_eq_true, bne_iff_ne, ne_eq, not_and_or, not_not] at hn
  rcases hn with rfl | rfl <;> simp at h

theorem written_int (n : ℕ) : Written A false .primary (Nat.toDigits 10 n) (.int n) := by
  refine written_leaf ?_ (spells_int n) rfl
  obtain ⟨c, cs, he⟩ := List.exists_cons_of_ne_nil (Nat.toDigits_ne_nil (n := n) (b := 10))
  exact ⟨c, cs, he, leads_digits (Binary64.allDigits_toDigits n c (by simp [he]))⟩

theorem written_float {x : Binary64} (hx : x.isFinite = true) (hs : x.isNegative = false) :
    Written A true .primary x.text.toList (.float x) := by
  refine written_leaf ?_ (spells_float hx hs) rfl
  obtain ⟨ws, fs, h⟩ := Binary64.exists_point hx hs
  obtain ⟨c, cs, he⟩ := List.exists_cons_of_ne_nil h.whole_ne_nil
  exact ⟨c, cs ++ '.' :: fs, by rw [h.text_eq, he, List.cons_append], leads_digits (h.whole c (by simp [he]))⟩

theorem written_string (s : String) : Written A true .primary (stringText s).toList (.string s) := by
  rw [stringText, String.toList_ofList]
  refine written_leaf ⟨quoteFor s.toList, _, rfl, ?_⟩ (spells_string s) rfl
  unfold quoteFor
  split <;> rfl

theorem Written.minus (h : Written A point .primary text t) :
    Written A false .factor ('-' :: text) (.unary .minus t) := by
  have hf : Written A false UnaryOp.minus.level text t := h.strict.of_rank_le (by decide)
  exact hf.unary

namespace Expr

theorem legible_int (n : Int64) : (constant (.int n)).Legible A := by
  have htext : (constant (.int n)).source.toList =
      if n < 0 then '-' :: Nat.toDigits 10 n.toInt.natAbs else Nat.toDigits 10 n.toInt.natAbs := by
    have hn : (n < 0) = (n.toInt < 0) := propext Int64.lt_iff_toInt_lt
    simp only [source, Constant.text, Text.toList_toString, hn]
  rw [Legible, htext, takesPoint]
  by_cases hn : n < 0
  · have hw : Written A false .factor ('-' :: Nat.toDigits 10 n.toInt.natAbs) _ := (written_int _).minus
    simpa [hn, strength, Constant.isNegative, Strength.level, tree, Constant.tree] using hw
  · have hw : Written A false .primary (Nat.toDigits 10 n.toInt.natAbs) _ := written_int _
    simpa [hn, strength, Constant.isNegative, Strength.level, tree, Constant.tree, isInt] using hw

theorem legible_float {x : Binary64} (hx : x.isFinite = true) : (constant (.float x)).Legible A := by
  have hnan : x.isNaN = false := by
    simp only [Binary64.isFinite, bne_iff_ne] at hx
    simp [Binary64.isNaN, hx]
  cases hs : x.isNegative with
  | true =>
    have hw := (written_float (A := A) (by rw [Binary64.isFinite_withSign, hx]) x.isNegative_withSign).minus
    simpa [Legible, source, Constant.text, floatText, hnan, Binary64.text_of_isNegative hx hs, takesPoint, strength,
      Constant.isNegative, hs, Strength.level, tree, Constant.tree] using hw
  | false =>
    have hw := written_float (A := A) hx hs
    simpa [Legible, source, Constant.text, floatText, hnan, takesPoint, strength, Constant.isNegative, hs,
      Strength.level, tree, Constant.tree, isInt] using hw

theorem legible_constant {c : Constant} (h : c.isWritable = true) : (constant c).Legible A := by
  cases c with
  | none => exact written_reserved (w := "None") (by decide) rfl
  | bool b =>
    cases b with
    | true => exact written_reserved (w := "True") (by decide) rfl
    | false => exact written_reserved (w := "False") (by decide) rfl
  | int n => exact legible_int n
  | float x => exact legible_float h
  | string s => exact written_string s

theorem legible_binary {left right : Expr} (op : BinaryOp) (hl : left.Legible A) (hr : right.Legible A) :
    (binary left op right).Legible A := by
  have hd : ∀ {ts us : List Token}, Derives (.phrase op.leftNeeds.level) ts left.tree →
      Derives (.phrase op.rightNeeds.level) us right.tree →
      Derives (.phrase op.strength.level) (ts ++ op.token :: us) (Tree.binary left.tree op right.tree) := by
    intro ts us hd hd'
    by_cases hop : op = .pow
    · subst hop
      exact .power hd hd'
    · cases op <;> first | contradiction | exact .binary hop hd hd'
  have hw := (hl.enclose op.leftNeeds).binary (hr.enclose op.rightNeeds) hd
  have hpoint : (binary left op right).takesPoint = false := by
    cases op <;> rfl
  rw [Legible, hpoint]
  simpa [source, tree, strength] using hw

theorem legible_unary {operand : Expr} (op : UnaryOp) (h : operand.Legible A) : (unary op operand).Legible A := by
  have hlevel : op.strength.level = op.level := by cases op <;> rfl
  have hpoint : (unary op operand).takesPoint = false := by cases op <;> rfl
  have he := h.enclose op.strength
  rw [hlevel] at he
  rw [Legible, hpoint, strength, hlevel, source, String.toList_append]
  exact he.unary

theorem legible {e : Expr} (h : e.isWritable A = true) : e.Legible A := by
  induction e using induct with
  | constant c => exact legible_constant h
  | name id ctx => exact written_name h
  | member value attr ctx ih =>
    simp only [isWritable, Bool.and_eq_true] at h
    have hm := (ih h.2).base.member h.1
    simpa [Legible, source, takesPoint, strength, isInt, Strength.level, tree] using hm
  | binary left op right ihl ihr =>
    simp only [isWritable, Bool.and_eq_true] at h
    exact legible_binary op (ihl h.1) (ihr h.2)
  | unary op operand ih => exact legible_unary op (ih h)
  | boolean op values ih =>
    simp only [isWritable, Bool.and_eq_true, decide_eq_true_eq, areWritable_iff] at h
    exact legible_boolean (fun e he ↦ ih e he (h.2 e he)) h.1
  | compare left ops comparators ihl ih =>
    simp only [isWritable, Bool.and_eq_true, decide_eq_true_eq, beq_iff_eq, areWritable_iff] at h
    obtain ⟨⟨⟨hlen, hpos⟩, hl⟩, hc⟩ := h
    exact legible_compare (ihl hl) (fun e he ↦ ih e he (hc e he)) hlen hpos
  | conditional test body orelse iht ihb iho =>
    simp only [isWritable, Bool.and_eq_true] at h
    have hc := Written.conditional ((ihb h.1.2).enclose .or) ((iht h.1.1).enclose .or) ((iho h.2).enclose .test)
    simpa [Legible, source, takesPoint, strength, Strength.level, tree] using hc
  | call func args keywords ihf iha ihk =>
    simp only [isWritable, Bool.and_eq_true, areWritable_iff, areKeywordsWritable_iff] at h
    exact legible_call (ihf h.1.1) (fun e he ↦ iha e he (h.1.2 e he)) (fun k hk ↦ (h.2 k hk).1)
      fun k hk ↦ ihk k hk (h.2 k hk).2
  | list items ih =>
    simp only [isWritable, areWritable_iff] at h
    exact legible_list fun e he ↦ ih e he (h e he)
  | tuple items ih =>
    simp only [isWritable, areWritable_iff] at h
    exact legible_tuple fun e he ↦ ih e he (h e he)
  | dict keys values ihk ihv =>
    simp only [isWritable, Bool.and_eq_true, beq_iff_eq, areWritable_iff] at h
    exact legible_dict (fun e he ↦ ihk e he (h.1.2 e he)) (fun e he ↦ ihv e he (h.2 e he)) h.1.1

/-- The source of an expression can be read in one way only, and that gives back the expression. -/
theorem reads_source_iff (h : e.isWritable A = true) (t : Tree) : Reads A e.source t ↔ t = e.tree := by
  obtain ⟨-, ts, hspell, hd⟩ := legible h
  have hderives : Derives (.phrase .expression) ts e.tree := hd.of_rank_le (by cases e.strength <;> decide)
  constructor
  · rintro ⟨us, hlex, hd'⟩
    rw [hspell.lex_eq] at hlex
    cases hlex
    exact hd'.unique hderives
  · rintro rfl
    exact ⟨ts, hspell.lex_eq, hderives⟩

/-- The parentheses keep the minus sign from applying to the power. -/
theorem reads_power_of_negative :
    (binary (int (-1)) .pow (unary .minus (load "x"))).isWritable .unicode = true ∧
      Reads .unicode "(-1) ** -x" (.binary (.unary .minus (.int 1)) .pow (.unary .minus (.name "x"))) ∧
      ¬Reads .unicode "(-1) ** -x" (.unary .minus (.binary (.int 1) .pow (.unary .minus (.name "x")))) := by
  have hw : (binary (int (-1)) .pow (unary .minus (load "x"))).isWritable .unicode = true := by decide
  refine ⟨hw, (reads_source_iff hw _).mpr rfl, fun h ↦ ?_⟩
  cases (reads_source_iff hw _).mp h

end Expr

end MacroLisp.Host
