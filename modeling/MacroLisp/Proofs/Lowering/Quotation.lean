import MacroLisp.Proofs.Expansion.Leftover
import MacroLisp.Proofs.Lowering.Quasiquote

namespace MacroLisp.Lowering

open Host (Expr)

/-- The form is quoted by one expression, whatever its parts would be lowered to, and that builds it in any
environment. -/
def IsQuoted (n : Node) (e : Expr) : Prop := (∀ lower, quote lower none n = pure e) ∧ ∀ env, Builds env e n.bare

variable {n : Node} {ns : List Node} {e : Expr} {hs s : Span}

theorem isQuoted_symbol (name : String) : IsQuoted (.symbol name s) (model "Symbol" (.string name)) :=
  ⟨fun lower ↦ by rw [quote], fun _ ↦ builds_symbol name⟩

theorem isQuoted_literal (value : Literal) : IsQuoted (.literal value s) (quotedLiteral value) :=
  ⟨fun lower ↦ by rw [quote], fun _ ↦ builds_quotedLiteral value⟩

theorem quoteItems_of_isQuoted {es : List Expr} (h : List.Forall₂ IsQuoted ns es)
    (lower : Node → LowerM (Option Expr)) : quoteItems lower none ns = pure (es.map Piece.item) := by
  induction h with
  | nil => rw [quoteItems, List.map_nil]
  | @cons n _ _ _ h _ ih =>
    have hplain : ¬((none : Option ℕ) = some 1 ∧ IsSplice n) := fun hsplice ↦ Option.some_ne_none 1 hsplice.1.symm
    rw [quoteItems_item hplain, h.1, ih]
    simp only [pure_bind, List.map_cons]

theorem adds_of_isQuoted {es : List Expr} (h : List.Forall₂ IsQuoted ns es) (env : String → Option Node) :
    List.Forall₂ (Piece.Adds env) (es.map Piece.item) (ns.map fun n ↦ [n.bare]) := by
  induction h with
  | nil => exact .nil
  | cons h _ ih => exact .cons (.item (h.2 env)) ih

theorem isQuoted_sequence {es : List Expr} (d : Delimiter) (h : List.Forall₂ IsQuoted ns es) :
    IsQuoted (.sequence d ns s) (quotedSequence d (es.map Piece.item)) := by
  constructor
  · intro lower
    rw [quote_of_not_mark (.inl rfl), quoteItems_of_isQuoted h, pure_bind]
  · intro env
    have hflat : ns.map Node.bare = (ns.map fun n ↦ [n.bare]).flatten := by
      rw [← List.flatMap_def, List.map_eq_flatMap]
    rw [Node.bare, Node.bareAll_eq_map, hflat]
    exact builds_quotedSequence (adds_of_isQuoted h env)

theorem exists_isQuoted_all (h : ∀ n ∈ ns, ∃ e, IsQuoted n e) : ∃ es, List.Forall₂ IsQuoted ns es := by
  induction ns with
  | nil => exact ⟨[], .nil⟩
  | cons n ns ih =>
    obtain ⟨hn, hns⟩ := List.forall_mem_cons.mp h
    obtain ⟨e, he⟩ := hn
    obtain ⟨es, hes⟩ := ih hns
    exact ⟨e :: es, .cons he hes⟩

theorem exists_isQuoted (n : Node) : ∃ e, IsQuoted n e := by
  induction n using Node.induct with
  | symbol name s => exact ⟨_, isQuoted_symbol name⟩
  | literal value s => exact ⟨_, isQuoted_literal value⟩
  | sequence d ns s ih =>
    obtain ⟨es, hes⟩ := exists_isQuoted_all ih
    exact ⟨_, isQuoted_sequence d hes⟩

variable {c : Compiler}

theorem expand_of_callee_none (h : ∀ x, c.expansion = some x → x.callee? n = none) (fuel : ℕ) :
    c.expand (fuel + 1) n = pure ⟨n, false⟩ := by
  unfold Compiler.expand
  split
  · rfl
  · next x hx =>
    rw [Expansion.head_of_callee_none (h x hx)]
    rfl

theorem expanded_quote (lower : Node → LowerM (Option Expr)) :
    expanded lower (.form [.symbol "quote" hs, n] s) = some <$> quote lower none n := rfl

/-- Where `quote` is no macro, compiling a quoted form expands and evaluates nothing, and what it comes to builds
the form again. -/
theorem quote_faithful (t : Node) (hs s : Span) : ∃ e, IsQuoted t e ∧
    ∀ c : Compiler, (∀ x, c.expansion = some x → x.lookup (x.mangle "quote") = none) → ∀ fuel w,
      c.expand (fuel + 1) (.form [.symbol "quote" hs, t] s) w = some ⟨.ok ⟨.form [.symbol "quote" hs, t] s, false⟩, [], w⟩ ∧
      c.lower (fuel + 2) true (.form [.symbol "quote" hs, t] s) w = some ⟨.ok (some e), [], w⟩ := by
  obtain ⟨e, he⟩ := exists_isQuoted t
  refine ⟨e, he, fun c hc fuel w ↦ ?_⟩
  have hexpand : c.expand (fuel + 1) (.form [.symbol "quote" hs, t] s) = pure ⟨.form [.symbol "quote" hs, t] s, false⟩ :=
    expand_of_callee_none hc fuel
  constructor
  · rw [hexpand, Process.pure_apply]
  · rw [Compiler.lower, hexpand, pure_bind, expanded_quote, he.1, map_pure, Process.pure_apply]

/-- Calls of macros, a template with a hole and a splice, a splice outside of any, and empty sequences. -/
def quotedProgram : Node :=
  let symbol (name : String) : Node := .symbol name .nowhere
  let call (items : List Node) : Node := .form items .nowhere
  call [symbol "when", call [symbol "cond"],
    call [symbol "quasiquote", .sequence .bracket [call [symbol "unquote", symbol "x"],
      call [symbol "unquote-splice", symbol "ys"]] .nowhere],
    call [symbol "unquote-splice", call []], .sequence .brace [] .nowhere, .literal (.keyword "k") .nowhere]

theorem quote_faithful_quotedProgram :
    Expansion.coreMacros.lookup (Expansion.coreMacros.mangle "quote") = none ∧
    (Expansion.coreMacros.callee? quotedProgram).isSome = true ∧
    ∃ e, IsQuoted quotedProgram e ∧ ∀ fuel w,
      (Compiler.mk (some Expansion.coreMacros)).expand (fuel + 1) (.form [.symbol "quote" .nowhere, quotedProgram] .nowhere) w =
        some ⟨.ok ⟨.form [.symbol "quote" .nowhere, quotedProgram] .nowhere, false⟩, [], w⟩ ∧
      (Compiler.mk (some Expansion.coreMacros)).lower (fuel + 2) true (.form [.symbol "quote" .nowhere, quotedProgram] .nowhere) w =
        some ⟨.ok (some e), [], w⟩ := by
  have hquote : Expansion.coreMacros.lookup (Expansion.coreMacros.mangle "quote") = none := rfl
  obtain ⟨e, he, hcompile⟩ := quote_faithful quotedProgram .nowhere .nowhere
  refine ⟨hquote, rfl, e, he, hcompile ⟨some Expansion.coreMacros⟩ ?_⟩
  rintro x ⟨rfl⟩
  exact hquote

end MacroLisp.Lowering
