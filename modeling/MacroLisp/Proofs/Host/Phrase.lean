import MacroLisp.Proofs.Host.Constant
import MacroLisp.Proofs.Host.Tree
import MacroLisp.Proofs.Name.Mangle

namespace MacroLisp.Host

variable {α : Type} {c : Char} {cs ds sep : List Char} {texts : List (List Char)}

def isLineBreak (c : Char) : Bool := c == '\n' || c == '\r'

def Unbroken (cs : List Char) : Prop := ∀ c ∈ cs, isLineBreak c = false

/-- What can stand on a line behind its indentation. -/
structure IsLineText (cs : List Char) : Prop where
  opens : cs.head?.any (· != ' ') = true
  unbroken : Unbroken cs

/-- What can stand there and be no header of a block. -/
structure IsPhrase (cs : List Char) : Prop extends IsLineText cs where
  ends : cs.getLast?.any (· != ':') = true

instance (cs : List Char) : Decidable (Unbroken cs) := List.decidableBAll (isLineBreak · = false) cs

instance (cs : List Char) : Decidable (IsLineText cs) :=
  decidable_of_iff (cs.head?.any (· != ' ') = true ∧ Unbroken cs) ⟨fun h ↦ ⟨h.1, h.2⟩, fun h ↦ ⟨h.1, h.2⟩⟩

instance (cs : List Char) : Decidable (IsPhrase cs) :=
  decidable_of_iff (IsLineText cs ∧ cs.getLast?.any (· != ':') = true) ⟨fun h ↦ ⟨h.1, h.2⟩, fun h ↦ ⟨h.1, h.2⟩⟩

@[simp] theorem unbroken_cons : Unbroken (c :: cs) ↔ isLineBreak c = false ∧ Unbroken cs := List.forall_mem_cons

@[simp] theorem unbroken_append : Unbroken (cs ++ ds) ↔ Unbroken cs ∧ Unbroken ds := List.forall_mem_append

theorem unbroken_flatMap {xs : List α} {f : α → List Char} (h : ∀ x ∈ xs, Unbroken (f x)) : Unbroken (xs.flatMap f) := by
  intro c hc
  obtain ⟨x, hx, hc⟩ := List.mem_flatMap.mp hc
  exact h x hx c hc

theorem unbroken_intercalate (hsep : Unbroken sep) (h : ∀ t ∈ texts, Unbroken t) : Unbroken (sep.intercalate texts) := by
  cases texts with
  | nil => exact fun c hc ↦ absurd hc List.not_mem_nil
  | cons t texts =>
    obtain ⟨ht, htexts⟩ := List.forall_mem_cons.mp h
    rw [Text.intercalate_cons, unbroken_append]
    exact ⟨ht, unbroken_flatMap fun u hu ↦ unbroken_append.mpr ⟨hsep, htexts u hu⟩⟩

theorem IsLineText.ne_nil (h : IsLineText cs) : cs ≠ [] := by
  rintro rfl
  cases h.opens

theorem IsLineText.append (h : IsLineText cs) (hd : Unbroken ds) : IsLineText (cs ++ ds) := by
  refine ⟨?_, unbroken_append.mpr ⟨h.unbroken, hd⟩⟩
  rw [List.head?_append_of_ne_nil _ h.ne_nil]
  exact h.opens

theorem IsLineText.append_phrase (h : IsLineText cs) (hd : IsPhrase ds) : IsPhrase (cs ++ ds) := by
  refine ⟨h.append hd.unbroken, ?_⟩
  rw [List.getLast?_append_of_ne_nil _ hd.ne_nil]
  exact hd.ends

theorem IsPhrase.append_flatMap {xs : List α} {f : α → List Char} (h : IsPhrase cs)
    (hf : ∀ x ∈ xs, ∃ sep ds, f x = sep ++ ds ∧ Unbroken sep ∧ IsPhrase ds) : IsPhrase (cs ++ xs.flatMap f) := by
  induction xs generalizing cs with
  | nil => simpa using h
  | cons x xs ih =>
    obtain ⟨hx, hxs⟩ := List.forall_mem_cons.mp hf
    obtain ⟨sep, ds, hfx, hsep, hds⟩ := hx
    rw [List.flatMap_cons, ← List.append_assoc, hfx, ← List.append_assoc]
    exact ih ((h.toIsLineText.append hsep).append_phrase hds) hxs

theorem IsPhrase.bracket {l r : List Char} (hl : IsLineText l) (hr : IsPhrase r) (h : Unbroken cs) :
    IsPhrase (l ++ cs ++ r) :=
  (hl.append h).append_phrase hr

def isPlain (c : Char) : Bool := !([' ', ':', '\n', '\r'].contains c)

theorem isPhrase_of_plain (hne : cs ≠ []) (h : ∀ c ∈ cs, isPlain c = true) : IsPhrase cs := by
  have hplain : ∀ c ∈ cs, c ≠ ' ' ∧ c ≠ ':' ∧ isLineBreak c = false := by
    intro c hc
    simpa [isPlain, isLineBreak] using h c hc
  refine ⟨⟨?_, fun c hc ↦ (hplain c hc).2.2⟩, ?_⟩
  · rw [List.head?_eq_some_head hne]
    simpa using (hplain _ (List.head_mem hne)).1
  · rw [List.getLast?_eq_some_getLast hne]
    simpa using (hplain _ (List.getLast_mem hne)).2.1

theorem isPlain_of_isIdentifierPart (h : Name.isIdentifierPart c = true) : isPlain c = true := by
  by_contra hc
  simp only [isPlain, List.contains_cons, List.contains_nil, Bool.or_false, Bool.not_eq_true', Bool.not_eq_false,
    Bool.or_eq_true, beq_iff_eq] at hc
  rcases hc with rfl | rfl | rfl | rfl <;> exact absurd h (by decide)

theorem isPlain_of_isDigit (h : c.isDigit = true) : isPlain c = true :=
  isPlain_of_isIdentifierPart (Name.isIdentifierPart_of_isDigit h)

theorem unbroken_escapeChar (quote c : Char) : Unbroken (escapeChar quote c) := by
  unfold escapeChar
  split
  · decide
  · decide
  · decide
  · decide
  · next hline _ hreturn =>
    have hc : isLineBreak c = false := by simpa [isLineBreak] using ⟨hline, hreturn⟩
    have hback : isLineBreak '\\' = false := rfl
    split
    · simpa [Unbroken] using ⟨hback, hc⟩
    · simpa [Unbroken] using hc

theorem isPhrase_stringChars (cs : List Char) : IsPhrase (stringChars cs) := by
  have hquote : IsPhrase [quoteFor cs] := by
    unfold quoteFor
    split <;> decide
  exact .bracket hquote.toIsLineText hquote (unbroken_flatMap fun c _ ↦ unbroken_escapeChar _ c)

theorem isPhrase_text (c : Constant) : IsPhrase c.text.toList := by
  cases c with
  | none => decide
  | bool b => cases b <;> decide
  | string s => simpa [Constant.text, stringText] using isPhrase_stringChars s.toList
  | int n =>
    have hdigits : ∀ d ∈ Nat.toDigits 10 n.toInt.natAbs, isPlain d = true := fun d hd ↦
      isPlain_of_isDigit (Binary64.allDigits_toDigits _ d hd)
    rw [Constant.toList_intText]
    split
    · exact isPhrase_of_plain (by simp) (List.forall_mem_cons.mpr ⟨rfl, hdigits⟩)
    · exact isPhrase_of_plain Nat.toDigits_ne_nil hdigits
  | float x =>
    cases hx : x.isFinite with
    | false =>
      rw [Constant.text, Constant.floatText_of_not_finite hx]
      split
      · decide
      · split <;> decide
    | true =>
      obtain ⟨sign, ws, fs, htext, hsign, hw, hf, -⟩ := Constant.exists_floatText hx
      rw [Constant.text, htext]
      refine isPhrase_of_plain (by simp) fun c hc ↦ ?_
      simp only [List.mem_append, List.mem_cons] at hc
      rcases hc with hc | hc | rfl | hc
      · rcases hsign with rfl | rfl
        · cases hc
        · obtain rfl := List.mem_singleton.mp hc
          rfl
      · exact isPlain_of_isDigit (hw c hc)
      · rfl
      · exact isPlain_of_isDigit (hf c hc)

namespace Expr

variable {e left right value test body orelse func : Expr} {es args items keys values : List Expr}
  {keywords : List (String × Expr)} {attr : String}

def IsOnLine (e : Expr) : Prop := IsPhrase e.source.toList

theorem IsOnLine.enclose (h : e.IsOnLine) (needed : Strength) : IsPhrase (e.enclose needed e.source).toList := by
  unfold Expr.enclose
  split
  · simp only [String.toList_append]
    exact .bracket (by decide) (by decide) h.unbroken
  · exact h

theorem isOnLine_member (ctx : Context) (h : value.IsOnLine) (ha : IsPhrase attr.toList) :
    (member value attr ctx).IsOnLine := by
  have hbase : IsPhrase (if value.isInt then "(" ++ enclose .atom value value.source ++ ")" else
      enclose .atom value value.source).toList := by
    split
    · simp only [String.toList_append]
      exact .bracket (by decide) (by decide) (h.enclose .atom).unbroken
    · exact h.enclose .atom
  simp only [IsOnLine, source, String.toList_append]
  exact (hbase.toIsLineText.append (by decide)).append_phrase ha

theorem isOnLine_binary (op : BinaryOp) (hl : left.IsOnLine) (hr : right.IsOnLine) : (binary left op right).IsOnLine := by
  have hop : Unbroken op.symbol.toList := by cases op <;> decide
  simp only [IsOnLine, source, String.toList_append]
  exact ((((hl.enclose _).toIsLineText.append (by decide)).append hop).append (by decide)).append_phrase (hr.enclose _)

theorem isOnLine_unary (op : UnaryOp) (h : e.IsOnLine) : (unary op e).IsOnLine := by
  have hop : IsLineText op.symbol.toList := by cases op <;> decide
  simp only [IsOnLine, source, String.toList_append]
  exact hop.append_phrase (h.enclose _)

theorem isOnLine_boolean (op : BoolOp) (hne : es ≠ []) (h : ∀ e ∈ es, e.IsOnLine) : (boolean op es).IsOnLine := by
  obtain ⟨e, es, rfl⟩ := List.exists_cons_of_ne_nil hne
  obtain ⟨he, hes⟩ := List.forall_mem_cons.mp h
  have hop : Unbroken (' ' :: op.symbol.toList ++ [' ']) := by cases op <;> decide
  rw [IsOnLine, toList_source_boolean]
  exact (he.enclose _).append_flatMap fun e he ↦ ⟨_, _, by simp, hop, (hes e he).enclose op.strength.next⟩

theorem isOnLine_compare (ops : List CompareOp) (hl : left.IsOnLine) (h : ∀ e ∈ es, e.IsOnLine) :
    (compare left ops es).IsOnLine := by
  rw [IsOnLine, toList_source_compare]
  refine (hl.enclose _).append_flatMap fun p hp ↦ ⟨' ' :: p.1.symbol.toList ++ [' '], _, by simp, ?_,
    (h p.2 (List.of_mem_zip hp).2).enclose .bitOr⟩
  cases p.1 <;> decide

theorem isOnLine_conditional (ht : test.IsOnLine) (hb : body.IsOnLine) (ho : orelse.IsOnLine) :
    (conditional test body orelse).IsOnLine := by
  simp only [IsOnLine, source, String.toList_append]
  refine ((((hb.enclose _).toIsLineText.append (by decide)).append ?_).append (by decide)).append_phrase (ho.enclose _)
  exact (ht.enclose _).unbroken

theorem unbroken_items (h : ∀ e ∈ items, e.IsOnLine) :
    Unbroken (commaBlank.intercalate (items.map fun e ↦ (e.enclose .test e.source).toList)) :=
  unbroken_intercalate (by decide) (List.forall_mem_map.mpr fun e he ↦ ((h e he).enclose _).unbroken)

theorem isOnLine_list (h : ∀ e ∈ items, e.IsOnLine) : (list items).IsOnLine := by
  rw [IsOnLine, toList_source_list]
  exact .bracket (by decide) (by decide) (unbroken_items h)

theorem isOnLine_tuple (h : ∀ e ∈ items, e.IsOnLine) : (tuple items).IsOnLine := by
  rw [IsOnLine, toList_source_tuple]
  refine .bracket (by decide) ?_ (unbroken_items h)
  split <;> decide

theorem isOnLine_dict (hk : ∀ e ∈ keys, e.IsOnLine) (hv : ∀ e ∈ values, e.IsOnLine) : (dict keys values).IsOnLine := by
  rw [IsOnLine, toList_source_dict]
  refine .bracket (by decide) (by decide) (unbroken_intercalate (by decide) (List.forall_mem_map.mpr fun p hp ↦ ?_))
  obtain ⟨hkey, hvalue⟩ := List.of_mem_zip hp
  simp only [String.toList_append, unbroken_append]
  exact ⟨⟨((hk _ hkey).enclose _).unbroken, by decide⟩, ((hv _ hvalue).enclose _).unbroken⟩

theorem isOnLine_call (hf : func.IsOnLine) (ha : ∀ e ∈ args, e.IsOnLine) (hk : ∀ k ∈ keywords, k.2.IsOnLine)
    (hn : ∀ k ∈ keywords, Unbroken k.1.toList) : (call func args keywords).IsOnLine := by
  rw [IsOnLine, toList_source_call]
  refine (hf.enclose _).toIsLineText.append_phrase (.bracket (by decide) (by decide) ?_)
  refine unbroken_intercalate (by decide) ?_
  refine List.forall_mem_append.mpr ⟨List.forall_mem_map.mpr fun e he ↦ ((ha e he).enclose _).unbroken, ?_⟩
  refine List.forall_mem_map.mpr fun k hmem ↦ ?_
  simp only [String.toList_append, unbroken_append]
  exact ⟨⟨hn k hmem, by decide⟩, ((hk k hmem).enclose _).unbroken⟩

end Expr

end MacroLisp.Host
