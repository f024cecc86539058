import MacroLisp.Lowering.Basic
import MacroLisp.Proofs.Expansion.Spans
import MacroLisp.Proofs.Expansion.Transfer
import MacroLisp.Proofs.Lowering.Quasiquote

namespace MacroLisp

open Node (AllAlike)

/-- Errors of one kind with one message, about trees that are the same. -/
structure CompileError.Alike (e e' : CompileError) : Prop where
  code : e.code = e'.code
  message : e.message = e'.message
  form : e.form.Alike e'.form

/-- Two ways to lower that come to the same value, the same statements and the same names. -/
abbrev LowerAlike {α : Type} (p q : LowerM α) : Prop := Process.Alike Eq CompileError.Alike Eq p q

namespace Lowering

open Host (Expr Stmt BinaryOp CompareOp BoolOp)

variable {α : Type} {n m : Node} {ns ms args args' : List Node}

theorem unsupported_alike (h : n.Alike m) {why why' : Unsupported} (hwhy : why.message = why'.message) :
    CompileError.Alike (.unsupported n why) (.unsupported m why') := by
  refine ⟨rfl, ?_, h⟩
  unfold CompileError.message
  dsimp only
  rw [h.text_eq, hwhy]

theorem malformed_alike (head : String) (h : n.Alike m) (why : Malformed) :
    CompileError.Alike (.malformed head n why) (.malformed head m why) := by
  refine ⟨rfl, ?_, h⟩
  unfold CompileError.message
  dsimp only
  rw [h.text_eq]

theorem reject_alike (h : n.Alike m) (why : Unsupported) : LowerAlike (reject n why : LowerM α) (reject m why) :=
  .throw (unsupported_alike h rfl)

theorem refuse_alike (head : String) (h : n.Alike m) (why : Malformed) :
    LowerAlike (refuse head n why : LowerM α) (refuse head m why) :=
  .throw (malformed_alike head h why)

theorem emit_alike (s : Stmt) : LowerAlike (emit s) (emit s) := .record rfl

theorem ofExcept_alike {r r' : Except CompileError α} (h : Results CompileError.Alike Eq r r') :
    LowerAlike (ofExcept r) (ofExcept r') := by
  cases h with
  | ok h => exact .pure h
  | error h => exact .throw h

theorem collect_alike {p q : LowerM α} (h : LowerAlike p q) : LowerAlike (p.collect : LowerM _) q.collect := by
  refine h.collect.imp fun a b hab ↦ ?_
  rw [List.forall₂_eq_eq_eq] at hab
  exact Prod.ext hab.1 hab.2

theorem map_alike {β : Type} {p q : LowerM α} (h : LowerAlike p q) (f : α → β) : LowerAlike (f <$> p) (f <$> q) :=
  h.map fun _ _ hab ↦ congrArg f hab

theorem symbol_alike (name : String) (h : n.Alike m) : Results CompileError.Alike Eq (symbol name n) (symbol name m) := by
  unfold symbol
  split
  · exact .ok rfl
  split
  · exact .ok rfl
  dsimp only
  split
  · exact .error (unsupported_alike h rfl)
  split
  · exact .ok rfl
  · exact .error (unsupported_alike h rfl)

theorem operation_alike (head : String) (op : BinaryOp) (h : n.Alike m) (es : List Expr) :
    Results CompileError.Alike Eq (operation head op n es) (operation head op m es) := by
  unfold operation
  split
  · split
    · exact .ok rfl
    · exact .ok rfl
    · exact .error (malformed_alike head h _)
  · split
    · exact .ok rfl
    · exact .ok rfl
    · exact .ok rfl
    · exact .ok rfl
    · exact .error (malformed_alike head h _)
  · exact .ok rfl

section Shapes

variable {lower : Node → LowerM (Option Expr)} (hlower : ∀ n m, n.Alike m → LowerAlike (lower n) (lower m))

include hlower

theorem value_alike (h : n.Alike m) : LowerAlike (value lower n) (value lower m) :=
  (hlower n m h).bind_eq fun _ ↦ .pure rfl

theorem values_alike (h : AllAlike ns ms) : LowerAlike (values lower ns) (values lower ms) := by
  induction h with
  | nil => exact .pure rfl
  | cons h _ ih => exact (value_alike hlower h).bind_eq fun e ↦ ih.bind_eq fun es ↦ .pure rfl

theorem operator_alike (head : String) (op : BinaryOp) (hargs : AllAlike args args') (h : n.Alike m) :
    LowerAlike (operator lower head op args n) (operator lower head op args' m) :=
  (values_alike hlower hargs).bind_eq fun es ↦ ofExcept_alike (operation_alike head op h es)

theorem comparison_alike (head : String) (op : CompareOp) (hargs : AllAlike args args') (h : n.Alike m) :
    LowerAlike (comparison lower head op args n) (comparison lower head op args' m) := by
  refine (values_alike hlower hargs).bind_eq fun es ↦ ?_
  split
  · exact refuse_alike head h _
  · exact (emit_alike _).bind_eq fun _ ↦ .pure rfl
  · exact .pure rfl

theorem laterOperands_alike (head : String) (h : n.Alike m) (hargs : AllAlike args args') :
    LowerAlike (laterOperands lower head n args) (laterOperands lower head m args') := by
  induction hargs with
  | nil => exact .pure rfl
  | cons harg _ ih =>
    refine (collect_alike (value_alike hlower harg)).bind_eq fun p ↦ ?_
    dsimp only
    split
    · exact ih.bind_eq fun es ↦ .pure rfl
    · exact reject_alike h _

theorem boolean_alike (head : String) (op : BoolOp) (hargs : AllAlike args args') (h : n.Alike m) :
    LowerAlike (boolean lower head op args n) (boolean lower head op args' m) := by
  cases hargs with
  | nil => cases op <;> exact .pure rfl
  | cons hfirst hrest =>
    refine (value_alike hlower hfirst).bind_eq fun e ↦ (laterOperands_alike hlower head h hrest).bind_eq fun es ↦ ?_
    split <;> exact .pure rfl

theorem conditional_alike {test test' body body' : Node} {orelse orelse' : Option Node} (htest : test.Alike test')
    (hbody : body.Alike body') (horelse : Option.Rel Node.Alike orelse orelse') :
    LowerAlike (conditional lower test body orelse) (conditional lower test' body' orelse') := by
  refine (value_alike hlower htest).bind_eq fun e ↦ ?_
  refine (collect_alike (value_alike hlower hbody)).bind_eq fun p ↦ ?_
  refine (collect_alike ?_).bind_eq fun q ↦ ?_
  · cases horelse with
    | none => exact .pure rfl
    | some h => exact value_alike hlower h
  dsimp only
  split
  · exact .pure rfl
  · exact (Process.Alike.freshName "if").bind_eq fun temporary ↦ (emit_alike _).bind_eq fun _ ↦ .pure rfl

theorem sequence_alike (h : AllAlike ns ms) : LowerAlike (sequence lower ns) (sequence lower ms) := by
  induction h with
  | nil => exact .pure rfl
  | cons h hrest ih =>
    cases hrest with
    | nil => exact hlower _ _ h
    | cons h' hrest =>
      refine (hlower _ _ h).bind_eq fun e ↦ ?_
      split
      · exact (emit_alike _).bind_eq fun _ ↦ ih
      · exact ih

theorem assignments_alike (h : n.Alike m) (hargs : AllAlike args args') :
    LowerAlike (assignments lower n args) (assignments lower m args') := by
  induction args using List.twoStepInduction generalizing args' with
  | nil =>
    cases hargs
    exact .pure rfl
  | singleton target =>
    cases hargs with
    | cons _ hrest =>
      cases hrest
      exact .pure rfl
  | cons_cons target source rest ih _ =>
    cases hargs with
    | cons htarget hrest =>
      cases hrest with
      | cons hsource hrest =>
        rw [assignments, assignments, htarget.symbol?_eq, htarget.text_eq]
        split
        · exact refuse_alike "setv" h _
        · next name _ =>
          refine (ofExcept_alike (symbol_alike name htarget)).bind_eq fun e ↦ ?_
          split
          · exact refuse_alike "setv" h _
          · refine (value_alike hlower hsource).bind_eq fun v ↦ (emit_alike _).bind_eq fun _ ↦ ?_
            exact ih hrest

theorem keyValues_alike (h : AllAlike ns ms) : LowerAlike (keyValues lower ns) (keyValues lower ms) := by
  induction ns using List.twoStepInduction generalizing ms with
  | nil =>
    cases h
    exact .pure rfl
  | singleton k =>
    cases h with
    | cons _ hrest =>
      cases hrest
      exact .pure rfl
  | cons_cons k v rest ih _ =>
    cases h with
    | cons hk hrest =>
      cases hrest with
      | cons hv hrest =>
        refine (value_alike hlower hk).bind_eq fun ek ↦ (value_alike hlower hv).bind_eq fun ev ↦ ?_
        exact (ih hrest).bind_eq fun p ↦ .pure rfl

theorem dictionary_alike (hitems : AllAlike ns ms) (h : n.Alike m) :
    LowerAlike (dictionary lower ns n) (dictionary lower ms m) := by
  unfold dictionary
  rw [hitems.length_eq]
  split
  · exact refuse_alike _ h _
  · exact (keyValues_alike hlower hitems).bind_eq fun p ↦ .pure rfl

omit hlower in
theorem arguments_cons (hn : ∀ k s, n ≠ .literal (.keyword k) s) (rest : List Node) :
    arguments lower (n :: rest) = (if isUnpacking n then reject n .unpacking else do
      let e ← value lower n
      let (es, ks) ← arguments lower rest
      return (e :: es, ks)) := by
  rw [arguments]
  exact hn

theorem arguments_cons_alike (hn : ¬∃ k s, n = .literal (.keyword k) s) (h : n.Alike m)
    (hrest : LowerAlike (arguments lower args) (arguments lower args')) :
    LowerAlike (arguments lower (n :: args)) (arguments lower (m :: args')) := by
  have hm : ∀ k s, m ≠ .literal (.keyword k) s := by
    rintro k s rfl
    obtain ⟨s', rfl⟩ := Node.alike_literal.mp h.symm
    exact hn ⟨k, s', rfl⟩
  have hunpacking : isUnpacking n = isUnpacking m := by rw [isUnpacking, isUnpacking, h.isCallTo_eq, h.isCallTo_eq]
  rw [arguments_cons fun k s he ↦ hn ⟨k, s, he⟩, arguments_cons hm, hunpacking]
  split
  · exact reject_alike h _
  · exact (value_alike hlower h).bind_eq fun e ↦ hrest.bind_eq fun _ ↦ .pure rfl

theorem arguments_alike (hargs : AllAlike args args') : LowerAlike (arguments lower args) (arguments lower args') := by
  induction args using List.twoStepInduction generalizing args' with
  | nil =>
    cases hargs
    exact .pure rfl
  | singleton n =>
    cases hargs with
    | cons h hrest =>
      by_cases hk : ∃ k s, n = .literal (.keyword k) s
      · obtain ⟨k, s, rfl⟩ := hk
        obtain ⟨s', rfl⟩ := Node.alike_literal.mp h
        cases hrest
        exact refuse_alike k h _
      · cases hrest
        exact arguments_cons_alike hlower hk h (.pure rfl)
  | cons_cons n v rest ih ihRest =>
    cases hargs with
    | cons h hrest =>
      by_cases hk : ∃ k s, n = .literal (.keyword k) s
      · obtain ⟨k, s, rfl⟩ := hk
        obtain ⟨s', rfl⟩ := Node.alike_literal.mp h
        cases hrest with
        | cons hv hrest =>
          exact (value_alike hlower hv).bind_eq fun e ↦ (ih hrest).bind_eq fun _ ↦ .pure rfl
      · exact arguments_cons_alike hlower hk h (ihRest v hrest)

theorem call_alike (func : Expr) (hargs : AllAlike args args') :
    LowerAlike (call lower func args) (call lower func args') :=
  (arguments_alike hlower hargs).bind_eq fun _ ↦ .pure rfl

omit hlower in
theorem attributes_alike (h : n.Alike m) (e : Expr) (hargs : AllAlike args args') :
    LowerAlike (attributes n e args) (attributes m e args') := by
  induction hargs generalizing e with
  | nil => exact .pure rfl
  | cons harg _ ih =>
    rw [attributes, attributes, harg.symbol?_eq]
    split
    · exact ih _
    · refine .throw (unsupported_alike h ?_)
      unfold Unsupported.message
      dsimp only
      rw [harg.text_eq]

omit hlower in
theorem alike_mark {head : String} {operand : Node} {s hs : Span} (h : (Node.form [.symbol head hs, operand] s).Alike m) :
    ∃ hs' operand' s', m = .form [.symbol head hs', operand'] s' ∧ operand.Alike operand' := by
  obtain ⟨ms, s', rfl, hitems⟩ := Node.alike_sequence.mp h
  obtain ⟨hs', operand', rfl, hoperand, -⟩ :=
    Expansion.exists_mark (P := fun _ _ ↦ True) (hitems.imp fun _ _ h ↦ ⟨h, trivial⟩)
  exact ⟨hs', operand', s', rfl, hoperand⟩

theorem quoteItems_alike {level : Option ℕ}
    (h : List.Forall₂ (fun n m ↦ ∃ _ : n.Alike m, ∀ level, LowerAlike (quote lower level n) (quote lower level m)) ns ms) :
    LowerAlike (quoteItems lower level ns) (quoteItems lower level ms) := by
  induction h with
  | nil =>
    unfold quoteItems
    exact .pure rfl
  | @cons n m _ _ h _ ih =>
    obtain ⟨h, hquote⟩ := h
    by_cases hsplice : level = some 1 ∧ IsSplice n
    · obtain ⟨rfl, hs, operand, s, rfl⟩ := hsplice
      obtain ⟨hs', operand', s', rfl, hoperand⟩ := alike_mark h
      rw [quoteItems_splice, quoteItems_splice]
      exact (value_alike hlower hoperand).bind_eq fun e ↦ ih.bind_eq fun _ ↦ .pure rfl
    · have hsplice' : ¬(level = some 1 ∧ IsSplice m) := by
        rintro ⟨hlevel, hs, operand, s, rfl⟩
        obtain ⟨hs', operand', s', rfl, -⟩ := alike_mark h.symm
        exact hsplice ⟨hlevel, hs', operand', s', rfl⟩
      rw [quoteItems_item hsplice, quoteItems_item hsplice']
      exact (hquote level).bind_eq fun e ↦ ih.bind_eq fun _ ↦ .pure rfl

theorem quote_alike {level : Option ℕ} (h : n.Alike m) : LowerAlike (quote lower level n) (quote lower level m) := by
  induction h using Node.Alike.induct generalizing level with
  | symbol name s s' =>
    unfold quote
    exact .pure rfl
  | literal l s s' =>
    unfold quote
    exact .pure rfl
  | sequence d ns ms s s' h ih =>
    have hquote : List.Forall₂
        (fun n m ↦ ∃ _ : n.Alike m, ∀ level, LowerAlike (quote lower level n) (quote lower level m)) ns ms :=
      ih.imp fun _ _ ih ↦ ⟨ih.fst, fun _ ↦ ih.snd⟩
    by_cases hmark : level = none ∨ ¬Template.IsMark d ns
    · have hmark' : level = none ∨ ¬Template.IsMark d ms := hmark.imp_right (mt (Expansion.isMark_iff h d).mpr)
      rw [quote_of_not_mark hmark, quote_of_not_mark hmark']
      exact (quoteItems_alike hlower hquote).bind_eq fun _ ↦ .pure rfl
    · rw [not_or, not_not] at hmark
      obtain ⟨hlevel, head, hs, operand, rfl, rfl⟩ := hmark
      obtain ⟨level, rfl⟩ := Option.ne_none_iff_exists'.mp hlevel
      obtain ⟨hs', operand', rfl, hoperand, hquoteOperand⟩ := Expansion.exists_mark hquote
      have hmarkAlike := h.form s s'
      simp only [quote]
      split
      · exact value_alike hlower hoperand
      split
      · exact reject_alike hmarkAlike _
      · exact (quoteItems_alike hlower (.cons ⟨hoperand, hquoteOperand⟩ .nil)).bind_eq fun _ ↦ .pure rfl

end Shapes

theorem exists_alias {t : Span} {name : Node} (h : AllAlike (.literal (.keyword "as") t :: name :: args) args') :
    ∃ t' name' rest, args' = .literal (.keyword "as") t' :: name' :: rest ∧ name.Alike name' ∧ AllAlike args rest := by
  cases h with
  | cons has hrest =>
    obtain ⟨t', rfl⟩ := Node.alike_literal.mp has
    cases hrest with
    | cons hname hrest => exact ⟨t', _, _, rfl, hname, hrest⟩

theorem aliases_alike (h : n.Alike m) (hargs : AllAlike args args') :
    Results CompileError.Alike Eq (aliases n args) (aliases m args') := by
  fun_induction aliases n args generalizing args' with
  | case1 =>
    cases hargs
    exact .ok rfl
  | case2 path s t name rest hname =>
    cases hargs with
    | cons hpath hrest =>
      obtain ⟨s', rfl⟩ := Node.alike_symbol.mp hpath
      obtain ⟨t', name', rest', rfl, hname', -⟩ := exists_alias hrest
      rw [aliases, ← hname'.symbol?_eq, hname]
      exact .error (malformed_alike "import" h _)
  | case3 path s t name rest as hname ih =>
    cases hargs with
    | cons hpath hrest =>
      obtain ⟨s', rfl⟩ := Node.alike_symbol.mp hpath
      obtain ⟨t', name', rest', rfl, hname', hrest'⟩ := exists_alias hrest
      rw [aliases, ← hname'.symbol?_eq, hname]
      exact (ih hrest').map fun _ _ he ↦ congrArg _ he
  | case4 path s rest hno ih =>
    cases hargs with
    | cons hpath hrest =>
      obtain ⟨s', rfl⟩ := Node.alike_symbol.mp hpath
      rw [aliases]
      · exact (ih hrest).map fun _ _ he ↦ congrArg _ he
      · rintro t' name' rest' rfl
        obtain ⟨t, name, rest, rfl, -, -⟩ := exists_alias (Node.AllAlike.symm hrest)
        exact hno t name rest rfl
  | case5 other rest _ hno =>
    cases hargs with
    | @cons _ other' _ _ hother _ =>
      have hno' : ∀ path s, other' ≠ .symbol path s := by
        rintro path s rfl
        obtain ⟨s', rfl⟩ := Node.alike_symbol.mp hother.symm
        exact hno path s' rfl
      rw [aliases]
      · refine .error (unsupported_alike h ?_)
        unfold Unsupported.message
        dsimp only
        rw [hother.text_eq]
      · exact fun path s t name rest hsymbol _ ↦ hno' path s hsymbol
      · exact hno'

section Forms

variable {lower : Node → LowerM (Option Expr)} (hlower : ∀ n m, n.Alike m → LowerAlike (lower n) (lower m))

theorem single_alike {f : Node → LowerM α} (hf : ∀ n m, n.Alike m → LowerAlike (f n) (f m)) (head : String) (h : n.Alike m)
    (hargs : AllAlike args args') : LowerAlike (single head n args f) (single head m args' f) := by
  cases hargs with
  | nil => exact refuse_alike head h _
  | cons harg hrest =>
    cases hrest with
    | nil => exact hf _ _ harg
    | cons => exact refuse_alike head h _

include hlower

theorem choice_alike (head : String) (h : n.Alike m) : AllAlike args args' → LowerAlike
    (match args with
      | [test, body] => some <$> conditional lower test body none
      | [test, body, orelse] => some <$> conditional lower test body (some orelse)
      | _ => refuse head n .conditionalParts)
    (match args' with
      | [test, body] => some <$> conditional lower test body none
      | [test, body, orelse] => some <$> conditional lower test body (some orelse)
      | _ => refuse head m .conditionalParts) := by
  intro hargs
  cases hargs with
  | nil => exact refuse_alike head h _
  | cons htest hrest =>
    cases hrest with
    | nil => exact refuse_alike head h _
    | cons hbody hrest =>
      cases hrest with
      | nil => exact map_alike (conditional_alike hlower htest hbody .none) some
      | cons horelse hrest =>
        cases hrest with
        | nil => exact map_alike (conditional_alike hlower htest hbody (.some horelse)) some
        | cons => exact refuse_alike head h _

theorem form_alike (head : String) (hargs : AllAlike args args') (h : n.Alike m) :
    LowerAlike (form lower head args n) (form lower head args' m) := by
  have hunary : ∀ op : Host.UnaryOp, LowerAlike
      (single head n args fun arg ↦ do return some (Expr.unary op (← value lower arg)))
      (single head m args' fun arg ↦ do return some (Expr.unary op (← value lower arg))) := by
    intro op
    refine single_alike (fun a b hab ↦ ?_) head h hargs
    exact (value_alike hlower hab).bind_eq fun e ↦ .pure rfl
  unfold form
  split
  · exact map_alike (operator_alike hlower head _ hargs h) some
  · exact map_alike (comparison_alike hlower head _ hargs h) some
  split
  · exact hunary _
  · exact hunary _
  · exact map_alike (boolean_alike hlower _ _ hargs h) some
  · exact map_alike (boolean_alike hlower _ _ hargs h) some
  · exact choice_alike hlower _ h hargs
  · exact sequence_alike hlower hargs
  · rw [hargs.length_eq]
    split
    · exact refuse_alike _ h _
    · exact (assignments_alike hlower h hargs).bind_eq fun _ ↦ .pure rfl
  · refine (ofExcept_alike (aliases_alike h hargs)).bind_eq fun names ↦ ?_
    split
    · exact refuse_alike _ h _
    · exact (emit_alike _).bind_eq fun _ ↦ .pure rfl
  · cases hargs with
    | nil => exact refuse_alike _ h _
    | cons hobject hrest =>
      exact (value_alike hlower hobject).bind_eq fun e ↦ map_alike (attributes_alike h e hrest) some
  · exact single_alike (fun _ _ h ↦ map_alike (quote_alike hlower h) some) _ h hargs
  · exact single_alike (fun _ _ h ↦ map_alike (quote_alike hlower h) some) _ h hargs
  · exact reject_alike h _
  · exact reject_alike h _
  · exact reject_alike h _
  · exact reject_alike h _
  · exact reject_alike h _
  · split
    · cases hargs with
      | nil => exact refuse_alike _ h _
      | cons hobject hrest =>
        exact (value_alike hlower hobject).bind_eq fun e ↦ map_alike (call_alike hlower _ hrest) some
    · exact (ofExcept_alike (symbol_alike head h)).bind_eq fun func ↦ map_alike (call_alike hlower func hargs) some

theorem expanded_alike (h : n.Alike m) : LowerAlike (expanded lower n) (expanded lower m) := by
  have hnode := h
  induction h using Node.Alike.elim with
  | symbol name s s' => exact map_alike (ofExcept_alike (symbol_alike name hnode)) some
  | literal l s s' => exact .pure rfl
  | sequence d ns ms s s' h =>
    cases d with
    | bracket => exact (values_alike hlower h).bind_eq fun _ ↦ .pure rfl
    | brace => exact map_alike (dictionary_alike hlower h hnode) some
    | paren =>
      cases h with
      | nil => exact .pure rfl
      | cons hfunc hargs =>
        have hcall := fun {func func' : Node} (h : func.Alike func') ↦
          (value_alike hlower h).bind_eq fun f ↦ map_alike (call_alike hlower f hargs) some
        induction hfunc using Node.Alike.elim with
        | symbol head _ _ => exact form_alike hlower head hargs hnode
        | literal l _ _ => exact hcall rfl
        | sequence d _ _ _ _ h => exact hcall (h.sequence d _ _)

end Forms

end Lowering

namespace Compiler

variable {c : Compiler} {n m : Node} {ns ms : List Node} {fuel : ℕ}

def IgnoresSpans (c : Compiler) : Prop :=
  ∀ x, c.expansion = some x → ∀ name p b, x.lookup name = some (p, b) → b.expander.IgnoresSpans

theorem expand_alike (hc : c.IgnoresSpans) (h : n.Alike m) :
    Process.Alike Eq CompileError.Alike Expanded.Alike (c.expand fuel n) (c.expand fuel m) := by
  unfold expand
  split
  · exact .pure ⟨h, rfl⟩
  · next x hx =>
    have hhead : ExpandAlike Expanded.Alike (x.head fuel .value 0 n) (x.head fuel .value 0 m) :=
      Expansion.head_alike (hc x hx) h
    refine hhead.quietly.bind fun r r' hr ↦ ?_
    cases hr with
    | ok he => exact .pure he
    | error he => exact .throw ⟨he.code, he.message, he.form⟩

theorem lower_alike (hc : c.IgnoresSpans) (expands : Bool) (h : n.Alike m) :
    LowerAlike (c.lower fuel expands n) (c.lower fuel expands m) := by
  induction fuel generalizing expands n m with
  | zero => exact .unfinished
  | succ fuel ih =>
    cases expands with
    | false => exact Lowering.expanded_alike (fun _ _ ↦ ih false) h
    | true =>
      refine (expand_alike hc h).bind fun e e' he ↦ ?_
      rw [he.verbatim]
      exact Lowering.expanded_alike (fun _ _ ↦ ih _) he.node

theorem statements_alike (hc : c.IgnoresSpans) (h : AllAlike ns ms) :
    LowerAlike (c.statements fuel ns) (c.statements fuel ms) := by
  induction h with
  | nil => exact .pure rfl
  | cons h _ ih =>
    refine (lower_alike hc true h).bind_eq fun e ↦ ?_
    split
    · exact (Lowering.emit_alike _).bind_eq fun _ ↦ ih
    · exact ih

theorem module_alike (hc : c.IgnoresSpans) (withLibrary : Bool) (h : AllAlike ns ms) :
    LowerAlike (c.module fuel withLibrary ns) (c.module fuel withLibrary ms) :=
  (Lowering.collect_alike (statements_alike hc h)).bind_eq fun _ ↦ .pure rfl

end Compiler

/-- With template macros and core macros only, places make no difference to expansion or compilation, however many steps are
tried and allowed. Both runs draw the same names. Expansions come to the same trees by the same steps, up to places, and
compilation to the same program; what fails in one run fails in the other with the same message. -/
theorem spans_never_matter {x : Expansion} (hx : ∀ name p b, x.lookup name = some (p, b) → AnyTemplateOrCore b.expander)
    {n m : Node} (h : n.bare = m.bare) {ns ms : List Node} (hs : ns.map Node.bare = ms.map Node.bare) (fuel : ℕ) :
    ExpandAlike Node.Alike (x.macroexpandOnce fuel n) (x.macroexpandOnce fuel m) ∧
    ExpandAlike Node.Alike (x.macroexpand fuel n) (x.macroexpand fuel m) ∧
    ExpandAlike Node.Alike (x.all fuel n) (x.all fuel m) ∧
    ∀ (c : Compiler) (withLibrary : Bool), (∀ y ∈ c.expansion, y = x) →
      LowerAlike (c.module fuel withLibrary ns) (c.module fuel withLibrary ms) := by
  have hignores : ∀ name p b, x.lookup name = some (p, b) → b.expander.IgnoresSpans :=
    fun name p b hb ↦ (hx name p b hb).ignoresSpans
  have hhead : ∀ mode, ExpandAlike Expanded.Alike (x.head fuel mode 0 n) (x.head fuel mode 0 m) :=
    fun mode ↦ Expansion.head_alike hignores h
  refine ⟨(hhead .single).map fun _ _ ↦ Expanded.Alike.node, (hhead .full).map fun _ _ ↦ Expanded.Alike.node,
    Expansion.all_alike hignores h, fun c withLibrary hc ↦ ?_⟩
  refine Compiler.module_alike (fun y hy ↦ ?_) withLibrary (Node.allAlike_iff.mpr hs)
  obtain rfl := hc y hy
  exact hignores

/-- `(twice e)` stands for `(do e e)`. -/
def twice : Template where
  params := ⟨["e"], none⟩
  body := .form [.symbol "quasiquote" .nowhere, .form [.symbol "do" .nowhere, .form [.symbol "unquote" .nowhere,
    .symbol "e" .nowhere] .nowhere, .form [.symbol "unquote" .nowhere, .symbol "e" .nowhere] .nowhere] .nowhere] .nowhere
  doc := none

def twiceAndCore : Expansion where
  lookup := ((MacroEnv.ofModule "m").installLocal "twice" twice.expander).lookup
  mangle := Name.mangle
  limit := some 4

theorem anyTemplateOrCore_twiceAndCore {name : String} {p : Provenance} {b : MacroBinding}
    (h : twiceAndCore.lookup name = some (p, b)) : AnyTemplateOrCore b.expander := by
  have hnone : (MacroTable.new "m" Name.mangle).getMangled? name = none := by
    simp [MacroTable.new, MacroTable.getMangled?]
  simp only [twiceAndCore, MacroEnv.ofModule, MacroEnv.new, MacroEnv.installLocal, MacroEnv.lookup, List.findSome?_nil,
    MacroTable.getMangled?_insert, hnone] at h
  split at h
  · next hfound =>
    split at hfound
    · cases hfound
      cases h
      exact .template twice
    · cases hfound
  · obtain ⟨b', hb, he⟩ := Option.map_eq_some_iff.mp h
    cases he
    exact .core hb

/-- `(twice (with-gensyms [g] (when g 1)))`, read from a text and made without one. -/
theorem spans_never_matter_twice :
    let n : Node := .form [.symbol "twice" ⟨1, 6⟩, .form [.symbol "with-gensyms" ⟨8, 20⟩,
      .sequence .bracket [.symbol "g" ⟨22, 23⟩] ⟨21, 24⟩, .form [.symbol "when" ⟨26, 30⟩, .symbol "g" ⟨31, 32⟩,
        .literal (.int 1) ⟨33, 34⟩] ⟨25, 35⟩] ⟨7, 36⟩] ⟨0, 37⟩
    let w : World := ⟨.new Name.mangle, none⟩
    (∀ name p b, twiceAndCore.lookup name = some (p, b) → AnyTemplateOrCore b.expander) ∧ n.bare = n.bare.bare ∧
      (∃ o, twiceAndCore.all 9 n w = some o) ∧
      ExpandAlike Node.Alike (twiceAndCore.macroexpandOnce 9 n) (twiceAndCore.macroexpandOnce 9 n.bare) ∧
      ExpandAlike Node.Alike (twiceAndCore.macroexpand 9 n) (twiceAndCore.macroexpand 9 n.bare) ∧
      ExpandAlike Node.Alike (twiceAndCore.all 9 n) (twiceAndCore.all 9 n.bare) ∧
      LowerAlike ((⟨some twiceAndCore⟩ : Compiler).module 9 true [n])
        ((⟨some twiceAndCore⟩ : Compiler).module 9 true [n.bare]) := by
  intro n w
  have hx : ∀ name p b, twiceAndCore.lookup name = some (p, b) → AnyTemplateOrCore b.expander :=
    fun _ _ _ ↦ anyTemplateOrCore_twiceAndCore
  have hbare : n.bare = n.bare.bare := rfl
  have hends : (twiceAndCore.all 9 n w).isSome = true := by decide +kernel
  have hforms : [n].map Node.bare = [n.bare].map Node.bare := congrArg (fun n ↦ [n]) hbare
  obtain ⟨honce, hfull, hall, hmodule⟩ := spans_never_matter hx hbare hforms 9
  refine ⟨hx, hbare, Option.isSome_iff_exists.mp hends, honce, hfull, hall, hmodule ⟨some twiceAndCore⟩ true fun y hy ↦ ?_⟩
  exact (Option.some.inj hy).symm

end MacroLisp
