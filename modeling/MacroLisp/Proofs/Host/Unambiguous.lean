import MacroLisp.Proofs.Host.Parser
import Mathlib.Order.Filter.AtTopBot.Basic

namespace MacroLisp.Host

open Filter

theorem eventually_of_succ {P : ℕ → Prop} (h : ∀ᶠ n in atTop, P (n + 1)) : ∀ᶠ n in atTop, P n := by
  obtain ⟨m, hm⟩ := eventually_atTop.mp h
  refine eventually_atTop.mpr ⟨m + 1, fun n hn ↦ ?_⟩
  obtain ⟨k, rfl⟩ := Nat.exists_eq_add_of_le hn
  rw [Nat.add_right_comm]
  exact hm (m + k) (Nat.le_add_right m k)

namespace Parser

variable {s l : Level} {tok : Token} {t : Tree} {ts rest : List Token} {n : ℕ}

def Closed (ts : List Token) : Prop := ∃ tok us, ts = tok :: us ∧ tok.isCloser = true

def Separated (ts : List Token) : Prop := Closed ts ∨ ∃ us, ts = .mark "," :: us

theorem Closed.stops (h : Closed ts) : Stops s ts := by
  obtain ⟨tok, us, rfl, hc⟩ := h
  simp only [Token.isCloser, Bool.or_eq_true, beq_iff_eq] at hc
  rcases hc with (rfl | rfl) | rfl <;> exact stops_of_none rfl

theorem Separated.stops (h : Separated ts) : Stops s ts := by
  rcases h with h | ⟨us, rfl⟩
  · exact h.stops
  · exact stops_of_none rfl

theorem Closed.expect_eq_none (h : Closed ts) (tok : Token) (ht : tok.isCloser = false) : expect tok ts = none := by
  obtain ⟨tok', us, rfl, hc⟩ := h
  refine Parser.expect_eq_none fun tok'' h' he ↦ ?_
  cases h'
  subst he
  simp [hc] at ht

theorem Separated.expect_eq_none (h : Separated ts) (tok : Token) (ht : tok.isCloser = false) (hc : tok ≠ .mark ",") :
    expect tok ts = none := by
  rcases h with h | ⟨us, rfl⟩
  · exact h.expect_eq_none tok ht
  · simp [expect, hc.symm]

/-- The parser finds the stretch of tokens with its result, whatever comes behind it. A phrase of a left
recursive level may turn out to be the beginning of a longer one, on which the parser then goes on. -/
def Complete : (c : Category) → List Token → c.Result → Prop
  | .phrase s, ts, t => ∀ rest res, Ready s rest → (∀ᶠ n in atTop, tail n s t rest = some res) →
      ∀ᶠ n in atTop, phrase n s (ts ++ rest) = some res
  | .operands op, ts, vs => ∀ rest, Stops op.level rest → ∀ᶠ n in atTop, operands n op (ts ++ rest) = some (vs, rest)
  | .chain, ts, vs => ∀ rest, Stops .comparison rest → ∀ᶠ n in atTop, chain n (ts ++ rest) = some (vs, rest)
  | .item k, ts, v => ∀ rest, Separated rest → ∀ᶠ n in atTop, item n k (ts ++ rest) = some (v, rest)
  | .items k, ts, vs => ∀ rest, Closed rest → ∀ᶠ n in atTop, items n k (ts ++ rest) = some (vs, rest)

theorem Stops.eventually_tail (h : Stops s ts) (t : Tree) : ∀ᶠ n in atTop, tail n s t ts = some (t, ts) :=
  eventually_of_succ (eventually_of_succ (.of_forall fun _ ↦ h.tail_eq))

theorem Complete.stops (h : Complete (.phrase s) ts t) (rest : List Token) (hr : Stops s rest) :
    ∀ᶠ n in atTop, phrase n s (ts ++ rest) = some (t, rest) :=
  h rest _ hr.ready (hr.eventually_tail t)

theorem complete_of_stops (hs : s.isLeftRecursive = false)
    (h : ∀ rest, Stops s rest → ∀ᶠ n in atTop, phrase n s (ts ++ rest) = some (t, rest)) :
    Complete (.phrase s) ts t := by
  intro rest res hr ht
  have hstop := hr.stops hs
  obtain ⟨n, h₁, h₂⟩ := (ht.and (hstop.eventually_tail t)).exists
  rw [h₁] at h₂
  rw [h₂]
  exact h rest hstop

theorem eventually_phrase {res : Tree × List Token} (hs : s ≠ .primary) (hb : Begins (.phrase s.next) ts)
    (h : Complete (.phrase s.next) ts t) (hr : Stops s.next rest) (ht : ∀ᶠ n in atTop, tail n s t rest = some res) :
    ∀ᶠ n in atTop, phrase n s (ts ++ rest) = some res := by
  obtain ⟨tok, us, rfl, ho⟩ := hb
  refine eventually_of_succ ?_
  filter_upwards [h.stops _ hr, ht] with n hp ht
  rw [phrase, List.cons_append, ho.unaryOp?_eq_none]
  simp only [if_neg hs]
  rw [← List.cons_append, hp, Option.bind_some, ht]

theorem complete_weaken (hb : Begins (.phrase s.next) ts) (h : Complete (.phrase s.next) ts t) :
    Complete (.phrase s) ts t := by
  by_cases hs : s = .primary
  · subst hs
    exact h
  · exact fun rest res hr ht ↦ eventually_phrase hs hb h (hr.stops_next hs) ht

theorem complete_of_atom (h : ∀ rest, ∀ᶠ n in atTop, atom n (ts ++ rest) = some (t, rest)) :
    Complete (.phrase .primary) ts t := by
  intro rest res _ ht
  refine eventually_of_succ ?_
  filter_upwards [h rest, ht] with n ha ht
  rw [phrase, unaryOp?_primary]
  simp only [if_pos, ha, Option.bind_some, ht]

theorem complete_leaf (h : leaf? tok = some t) : Complete (.phrase .primary) [tok] t :=
  complete_of_atom fun rest ↦ eventually_of_succ (.of_forall fun n ↦ by simp [atom, h])

theorem complete_unary {op : UnaryOp} (h : Complete (.phrase op.level) ts t) :
    Complete (.phrase op.level) (op.token :: ts) (Tree.unary op t) := by
  refine complete_of_stops (by cases op <;> rfl) fun rest hr ↦ eventually_of_succ ?_
  filter_upwards [h.stops rest hr] with n hp
  rw [phrase, List.cons_append, unaryOp?_token]
  simp only [hp, Option.map_some]

theorem complete_binary {op : BinaryOp} {us : List Token} {r : Tree} (hop : op ≠ .pow)
    (hl : Complete (.phrase op.level) ts t) (hr : Complete (.phrase op.level.next) us r) :
    Complete (.phrase op.level) (ts ++ op.token :: us) (Tree.binary t op r) := by
  have hleft : op.level.isLeftRecursive = true := by
    cases op <;> first | rfl | contradiction
  have hne : op.level ≠ .primary := by
    cases op <;> decide
  intro rest res hready ht
  rw [List.append_assoc, List.cons_append]
  refine hl _ res (ready_of_continues (continues?_binaryToken op) hleft) (eventually_of_succ ?_)
  filter_upwards [hr.stops rest (hready.stops_next hne), ht] with n hp ht
  have htail : tail (n + 1) op.level t (op.token :: (us ++ rest)) =
      (phrase n op.level.next (us ++ rest)).bind fun p ↦ tail n op.level (.binary t op p.1) p.2 := by
    have hfind := binaryOp?_token hop (us ++ rest)
    cases op <;> first | contradiction | (rw [tail, hfind] <;> rintro ⟨⟩)
  rw [htail, hp, Option.bind_some, ht]

theorem complete_power {us : List Token} {r : Tree} (hb : Begins (.phrase .primary) ts)
    (hl : Complete (.phrase .primary) ts t) (hr : Complete (.phrase .factor) us r) :
    Complete (.phrase .power) (ts ++ BinaryOp.pow.token :: us) (Tree.binary t .pow r) := by
  refine complete_of_stops rfl fun rest hstop ↦ ?_
  have hf : Stops .factor rest := by
    intro tok ht l hl
    have hp := hstop tok ht l hl
    have : l ≠ .factor := by
      rintro rfl
      unfold Token.continues? at hl
      split at hl <;> cases hl
    revert hp this
    cases l <;> decide
  rw [List.append_assoc, List.cons_append]
  refine eventually_phrase (by decide) hb hl (stops_of_continues rfl (by decide)) (eventually_of_succ ?_)
  filter_upwards [hr.stops rest hf] with n hp
  rw [tail, expect_cons_self]
  simp only [hp, Option.map_some]

theorem complete_conditional {us vs : List Token} {test orelse : Tree} (hb : Begins (.phrase .disjunction) ts)
    (h : Complete (.phrase .disjunction) ts t) (ht : Complete (.phrase .disjunction) us test)
    (he : Complete (.phrase .expression) vs orelse) :
    Complete (.phrase .expression) (ts ++ .mark "if" :: us ++ .mark "else" :: vs)
      (Tree.conditional test t orelse) := by
  refine complete_of_stops rfl fun rest hr ↦ ?_
  simp only [List.append_assoc, List.cons_append]
  refine eventually_phrase (by decide) hb h (stops_of_continues rfl (by decide)) (eventually_of_succ ?_)
  filter_upwards [ht.stops (.mark "else" :: (vs ++ rest)) (stops_of_none rfl), he.stops rest hr] with n ht he
  rw [tail, expect_cons_self]
  simp only [ht, Option.bind_some, expect_cons_self, he, Option.map_some]

theorem complete_operands_nil {op : BoolOp} : Complete (.operands op) [] ([] : List Tree) := fun _ hr ↦
  eventually_of_succ (.of_forall fun _ ↦ hr.operands_eq op)

theorem stops_operands {op : BoolOp} {values : List Tree} (h : Derives (.operands op) ts values)
    (hr : Stops op.level rest) : Stops op.level.next (ts ++ rest) := by
  have hlt : op.level.rank < op.level.next.rank := Level.rank_lt_next (by cases op <;> decide)
  cases h with
  | operands_nil => exact hr.mono hlt.le
  | operands_cons => exact stops_of_continues (continues?_booleanToken op) hlt

theorem complete_operands_cons {op : BoolOp} {us : List Token} {values : List Tree}
    (h : Complete (.phrase op.level.next) ts t) (hd : Derives (.operands op) us values)
    (hv : Complete (.operands op) us values) :
    Complete (.operands op) (op.token :: ts ++ us) (t :: values : List Tree) := by
  intro rest hr
  refine eventually_of_succ ?_
  filter_upwards [h.stops _ (stops_operands hd hr), hv rest hr] with n hp hv
  rw [operands, List.append_assoc, List.cons_append, expect_cons_self]
  simp only [hp, Option.bind_some, hv, Option.map_some]

theorem complete_boolean {op : BoolOp} {us : List Token} {values : List Tree}
    (hb : Begins (.phrase op.level.next) ts) (h : Complete (.phrase op.level.next) ts t)
    (hd : Derives (.operands op) us values) (hv : Complete (.operands op) us values) (hne : values ≠ []) :
    Complete (.phrase op.level) (ts ++ us) (Tree.boolean op (t :: values)) := by
  refine complete_of_stops (by cases op <;> rfl) fun rest hr ↦ ?_
  rw [List.append_assoc]
  refine eventually_phrase (by cases op <;> decide) hb h (stops_operands hd hr) (eventually_of_succ ?_)
  filter_upwards [hv rest hr] with n hv
  cases op <;> simp [BoolOp.level, tail, hv, hne]

theorem complete_chain_nil : Complete .chain [] ([] : List (CompareOp × Tree)) := fun _ hr ↦
  eventually_of_succ (.of_forall fun _ ↦ hr.chain_eq)

theorem stops_chain {links : List (CompareOp × Tree)} (h : Derives .chain ts links) (hr : Stops .comparison rest) :
    Stops .bitwiseOr (ts ++ rest) := by
  cases h with
  | chain_nil => exact hr.mono (by decide)
  | @chain_cons op =>
    obtain ⟨tok, us, he, hc⟩ := exists_compareTokens op
    rw [he]
    exact stops_of_continues hc (by decide)

theorem complete_chain_cons {op : CompareOp} {us : List Token} {links : List (CompareOp × Tree)}
    (hb : Begins (.phrase .bitwiseOr) ts) (h : Complete (.phrase .bitwiseOr) ts t) (hd : Derives .chain us links)
    (hl : Complete .chain us links) :
    Complete .chain (op.tokens ++ ts ++ us) ((op, t) :: links : List (CompareOp × Tree)) := by
  intro rest hr
  obtain ⟨tok, vs, rfl, ho⟩ := hb
  refine eventually_of_succ ?_
  filter_upwards [h.stops _ (stops_chain hd hr), hl rest hr] with n hp hl
  -- What begins an operand never makes a longer operator out of a shorter one.
  have hfind := compareOp?_tokens op ho (vs ++ (us ++ rest))
  rw [chain, List.append_assoc, List.append_assoc, List.cons_append, hfind]
  rw [List.cons_append] at hp
  simp only [hp, Option.bind_some, hl, Option.map_some]

theorem complete_compare {us : List Token} {links : List (CompareOp × Tree)} (hb : Begins (.phrase .bitwiseOr) ts)
    (h : Complete (.phrase .bitwiseOr) ts t) (hd : Derives .chain us links) (hl : Complete .chain us links)
    (hne : links ≠ []) :
    Complete (.phrase .comparison) (ts ++ us) (Tree.compare t (links.map Prod.fst) (links.map Prod.snd)) := by
  refine complete_of_stops rfl fun rest hr ↦ ?_
  rw [List.append_assoc]
  refine eventually_phrase (by decide) hb h (stops_chain hd hr) (eventually_of_succ ?_)
  filter_upwards [hl rest hr] with n hl
  simp [tail, hl, hne]

theorem complete_member {attr : String} (h : Complete (.phrase .primary) ts t) :
    Complete (.phrase .primary) (ts ++ [.mark ".", .name attr]) (Tree.member t attr) := by
  intro rest res hr ht
  rw [List.append_assoc]
  refine h _ res (ready_of_continues rfl rfl) (eventually_of_succ ?_)
  filter_upwards [ht] with n ht
  simpa [tail] using ht

theorem complete_call {us : List Token} {args : List Tree} {keywords : List (String × Tree)}
    (h : Complete (.phrase .primary) ts t) (hi : Complete (.items .argument) us (callItems args keywords)) :
    Complete (.phrase .primary) (ts ++ .mark "(" :: us ++ [.mark ")"]) (Tree.call t args keywords) := by
  intro rest res hr ht
  simp only [List.append_assoc, List.cons_append]
  refine h _ res (ready_of_continues rfl rfl) (eventually_of_succ ?_)
  filter_upwards [hi (.mark ")" :: rest) ⟨_, _, rfl, rfl⟩, ht] with n hi ht
  simp only [tail, List.nil_append, hi, Option.bind_some, expect_cons_self, splitItems_callItems, ht]

theorem expect_of_begins (tok : Token) (rest : List Token) (hb : Begins (.phrase s) ts) (ht : tok.opens? = none) :
    expect tok (ts ++ rest) = none := by
  obtain ⟨tok', us, rfl, l, ho, -⟩ := hb
  refine expect_eq_none fun tok'' h' he ↦ ?_
  cases h'
  subst he
  simp [ht] at ho

theorem complete_group (hb : Begins (.phrase .expression) ts) (h : Complete (.phrase .expression) ts t) :
    Complete (.phrase .primary) (.mark "(" :: ts ++ [.mark ")"]) t := by
  refine complete_of_atom fun rest ↦ eventually_of_succ ?_
  filter_upwards [h.stops (.mark ")" :: rest) (stops_of_none rfl)] with n hp
  have hc := expect_of_begins (.mark ")") (.mark ")" :: rest) hb rfl
  have hn : expect (.mark ",") (.mark ")" :: rest) = none := rfl
  simp [atom, leaf?, hc, hp, hn]

theorem complete_tuple_nil : Complete (.phrase .primary) [.mark "(", .mark ")"] (Tree.tuple []) :=
  complete_of_atom fun _ ↦ eventually_of_succ (.of_forall fun _ ↦ by simp [atom, leaf?])

theorem complete_tuple_cons {us : List Token} {vs : List Tree} (hb : Begins (.phrase .expression) ts)
    (h : Complete (.phrase .expression) ts t) (hi : Complete (.items .plain) us vs) :
    Complete (.phrase .primary) (.mark "(" :: ts ++ .mark "," :: us ++ [.mark ")"]) (Tree.tuple (t :: vs)) := by
  refine complete_of_atom fun rest ↦ eventually_of_succ ?_
  filter_upwards [h.stops (.mark "," :: (us ++ .mark ")" :: rest)) (stops_of_none rfl),
    hi (.mark ")" :: rest) ⟨_, _, rfl, rfl⟩] with n hp hi
  have hc := expect_of_begins (.mark ")") (.mark "," :: (us ++ .mark ")" :: rest)) hb rfl
  simp [atom, leaf?, hc, hp, hi]

theorem complete_list {vs : List Tree} (hi : Complete (.items .plain) ts vs) :
    Complete (.phrase .primary) (.mark "[" :: ts ++ [.mark "]"]) (Tree.list vs) := by
  refine complete_of_atom fun rest ↦ eventually_of_succ ?_
  filter_upwards [hi (.mark "]" :: rest) ⟨_, _, rfl, rfl⟩] with n hi
  simp [atom, leaf?, hi]

theorem complete_dict {entries : List (Tree × Tree)} (hi : Complete (.items .entry) ts entries) :
    Complete (.phrase .primary) (.mark "\x7b" :: ts ++ [.mark "\x7d"])
      (Tree.dict (entries.map Prod.fst) (entries.map Prod.snd)) := by
  refine complete_of_atom fun rest ↦ eventually_of_succ ?_
  filter_upwards [hi (.mark "\x7d" :: rest) ⟨_, _, rfl, rfl⟩] with n hi
  simp [atom, leaf?, hi]

theorem complete_plain (h : Complete (.phrase .expression) ts t) : Complete (.item .plain) ts t := by
  intro rest hr
  refine eventually_of_succ ?_
  filter_upwards [h.stops rest hr.stops] with n hp
  rw [item, hp]

theorem complete_positional (h : Complete (.phrase .expression) ts t) :
    Complete (.item .argument) ts ((none, t) : Option String × Tree) := by
  intro rest hr
  refine eventually_of_succ ?_
  filter_upwards [h.stops rest hr.stops] with n hp
  rw [item, hp, Option.bind_some]
  simp only [hr.expect_eq_none (.mark "=") rfl (by decide)]

theorem complete_keyword {key : String} (h : Complete (.phrase .expression) ts t) :
    Complete (.item .argument) (.name key :: .mark "=" :: ts) ((some key, t) : Option String × Tree) := by
  have hb : ∀ s, Begins (.phrase s) [.name key] := fun s ↦ ⟨_, [], rfl, .primary, rfl, s.rank_le_primary⟩
  have hname : Complete (.phrase .expression) [.name key] (.name key) :=
    Level.descend (P := fun s ↦ Complete (.phrase s) [.name key] (.name key)) (fun s hs ↦ complete_weaken (hb s.next) hs)
      (Level.rank_le_primary .expression) (complete_leaf rfl)
  intro rest hr
  refine eventually_of_succ ?_
  filter_upwards [hname.stops (.mark "=" :: (ts ++ rest)) (stops_of_none rfl), h.stops rest hr.stops] with n hn hp
  rw [List.singleton_append] at hn
  rw [item, List.cons_append, List.cons_append, hn]
  simp [nameOf?, hp]

theorem complete_entry {us : List Token} {value : Tree} (h : Complete (.phrase .expression) ts t)
    (hv : Complete (.phrase .expression) us value) :
    Complete (.item .entry) (ts ++ .mark ":" :: us) ((t, value) : Tree × Tree) := by
  intro rest hr
  refine eventually_of_succ ?_
  filter_upwards [h.stops (.mark ":" :: (us ++ rest)) (stops_of_none rfl), hv.stops rest hr.stops] with n hp hv
  rw [item, List.append_assoc, List.cons_append, hp]
  simp [hv]

theorem complete_items_nil {k : Kind} : Complete (.items k) [] ([] : List k.Item) := by
  rintro rest ⟨tok, us, rfl, hc⟩
  exact eventually_of_succ (.of_forall fun n ↦ by simp [items, hc])

theorem items_of_begins {k : Kind} (hb : Begins (.item k) ts) :
    items (n + 1) k (ts ++ rest) = (item n k (ts ++ rest)).bind fun p ↦
      match expect (.mark ",") p.2 with
      | some rest => (items n k rest).map fun q ↦ (p.1 :: q.1, q.2)
      | none => some ([p.1], p.2) := by
  obtain ⟨tok, us, rfl, ho⟩ := hb
  rw [items]
  exact if_neg (by simp [ho.isCloser_eq_false])

theorem complete_items_one {k : Kind} {v : k.Item} (hb : Begins (.item k) ts) (h : Complete (.item k) ts v) :
    Complete (.items k) ts ([v] : List k.Item) := by
  intro rest hr
  refine eventually_of_succ ?_
  filter_upwards [h rest (.inl hr)] with n hi
  rw [items_of_begins hb, hi, Option.bind_some]
  simp only [hr.expect_eq_none (.mark ",") rfl]

theorem complete_items_cons {k : Kind} {us : List Token} {v : k.Item} {vs : List k.Item} (hb : Begins (.item k) ts)
    (h : Complete (.item k) ts v) (hs : Complete (.items k) us vs) :
    Complete (.items k) (ts ++ .mark "," :: us) (v :: vs : List k.Item) := by
  intro rest hr
  refine eventually_of_succ ?_
  filter_upwards [h (.mark "," :: (us ++ rest)) (.inr ⟨_, rfl⟩), hs rest hr] with n hi hs
  rw [List.append_assoc, List.cons_append, items_of_begins hb, hi, Option.bind_some]
  simp only [expect_cons_self, hs, Option.map_some]

theorem complete {c : Category} {r : c.Result} (h : Derives c ts r) : Complete c ts r := by
  induction h with
  | weaken hd ih => exact complete_weaken (begins hd) ih
  | conditional hd _ _ ihb iht ihe => exact complete_conditional (begins hd) ihb iht ihe
  | boolean hd hv hne ih ihv => exact complete_boolean (begins hd) ih hv ihv hne
  | operands_nil => exact complete_operands_nil
  | operands_cons _ hv ih ihv => exact complete_operands_cons ih hv ihv
  | unary _ ih => exact complete_unary ih
  | compare hd hl hne ih ihl => exact complete_compare (begins hd) ih hl ihl hne
  | chain_nil => exact complete_chain_nil
  | chain_cons hd hl ih ihl => exact complete_chain_cons (begins hd) ih hl ihl
  | binary hop _ _ ihl ihr => exact complete_binary hop ihl ihr
  | power hl _ ihl ihr => exact complete_power (begins hl) ihl ihr
  | member _ ih => exact complete_member ih
  | call _ _ ih ihi => exact complete_call ih ihi
  | leaf hl => exact complete_leaf hl
  | group hd ih => exact complete_group (begins hd) ih
  | tuple_nil => exact complete_tuple_nil
  | tuple_cons hd _ ih ihi => exact complete_tuple_cons (begins hd) ih ihi
  | list _ ih => exact complete_list ih
  | dict _ ih => exact complete_dict ih
  | plain _ ih => exact complete_plain ih
  | positional _ ih => exact complete_positional ih
  | keyword _ ih => exact complete_keyword ih
  | entry _ _ ihk ihv => exact complete_entry ihk ihv
  | items_nil => exact complete_items_nil
  | items_one hd ih => exact complete_items_one (begins hd) ih
  | items_cons hd _ ih ihs => exact complete_items_cons (begins hd) ih ihs

end Parser

/-- The grammar is unambiguous. -/
theorem Derives.unique {ts : List Token} {t t' : Tree} (h : Derives (.phrase .expression) ts t)
    (h' : Derives (.phrase .expression) ts t') : t = t' := by
  have hp := (Parser.complete h).stops [] Parser.stops_nil
  have hp' := (Parser.complete h').stops [] Parser.stops_nil
  obtain ⟨n, h₁, h₂⟩ := (hp.and hp').exists
  rw [h₁] at h₂
  exact (Prod.mk.inj (Option.some.inj h₂)).1

end MacroLisp.Host
