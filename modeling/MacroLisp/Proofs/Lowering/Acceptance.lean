import MacroLisp.Proofs.Lowering.Assembly

namespace MacroLisp

namespace Template

/-- The operands of a form that has the look of a hole. -/
def holeOperands : Node → List Node
  | .sequence .paren (.symbol head _ :: operands) _ =>
    if head = "unquote" ∨ head = "unquote-splice" then operands else []
  | _ => []

/-- A parameter that stands for a parenthesised sequence, or a form that has the look of a hole. -/
def isFillable (scope : Scope) : Node → Bool
  | .symbol name _ => (scope.lookup name).any fun m ↦ m.form?.isSome
  | n => n.isCallTo "unquote" || n.isCallTo "unquote-splice"

/-- A splice among the items of a sequence has one operand, or several symbols. -/
def isSoundSplice : Node → Bool
  | .sequence .paren (.symbol head _ :: operands) _ =>
    if head = "unquote-splice" then
      match operands with
      | [] => false
      | [_] => true
      | operands => operands.all fun o ↦ o.symbol?.isSome
    else true
  | _ => true

def isSymbolSplice (n : Node) : Bool := (spliced? n).any fun o ↦ o.symbol?.isSome

mutual

/-- Splices of the first level are sound, and none takes a symbol right under a hole of the second level. -/
def splicesFit : Nat → Node → Bool
  | level, .sequence d items _ =>
    match d, items with
    | .paren, [.symbol head _, operand] =>
      if head = "unquote" ∨ head = "unquote-splice" then
        level = 1 || !(level = 2 && isSymbolSplice operand) && splicesFit (level - 1) operand
      else if head = "quasiquote" then splicesFit (level + 1) operand
      else (level ≠ 1 || isSoundSplice operand) && splicesFit level operand
    | _, items => allSplicesFit level items
  | _, _ => true

def allSplicesFit : Nat → List Node → Bool
  | _, [] => true
  | level, n :: ns => (level ≠ 1 || isSoundSplice n) && splicesFit level n && allSplicesFit level ns

end

end Template

namespace Lowering

open Host (Expr)
open Template (fill fillItems holes holesAll holeOperands isFillable isSoundSplice isSymbolSplice splicesFit allSplicesFit)

section Acceptance

variable {ι α β γ δ : Type}

/-- Both give a result, or both refuse. Parts are lowered in several ways to one end. -/
inductive AcceptsAlike (p : Action α) (q : ι → LowerM β) : Prop
  | accepted (a : α) (b : β) (hp : p = pure a) (hq : ∀ i, q i = pure b)
  | refused (why : Failure) (e : CompileError) (hp : p = .fail why) (hq : ∀ i, q i = .throw e)

variable {p : Action α} {q : ι → LowerM β} {f : α → Action γ} {g : ι → β → LowerM δ}

theorem AcceptsAlike.bind (h : AcceptsAlike p q) (hf : ∀ a b, AcceptsAlike (f a) fun i ↦ g i b) :
    AcceptsAlike (p >>= f) fun i ↦ q i >>= g i := by
  cases h with
  | accepted a b hp hq =>
    simp only [hp, hq, pure_bind]
    exact hf a b
  | refused why e hp hq =>
    simp only [hp, hq]
    exact .refused why e rfl fun i ↦ rfl

theorem AcceptsAlike.bind_pure (h : AcceptsAlike p q) (f : α → γ) (g : β → δ) :
    AcceptsAlike (p >>= fun a ↦ pure (f a)) fun i ↦ q i >>= fun b ↦ pure (g b) :=
  h.bind fun a b ↦ .accepted (f a) (g b) rfl fun _ ↦ rfl

theorem AcceptsAlike.map_right (h : AcceptsAlike p q) (g : β → δ) : AcceptsAlike p fun i ↦ q i >>= fun b ↦ pure (g b) := by
  cases h with
  | accepted a b hp hq => exact .accepted a (g b) hp fun i ↦ by rw [hq, pure_bind]
  | refused why e hp hq => exact .refused why e hp fun i ↦ by rw [hq]; rfl

end Acceptance

variable {ι : Type} (scope : Scope) (lowers : ι → Node → LowerM (Option Expr))

/-- What both sides make of the operand of a hole: a symbol is a parameter with items, anything else is refused. -/
inductive IsMet (operand : Node) : Prop
  | parameter (m : Node) (ms : List Node) (e : Expr) (hs : operand.symbol?.isSome = true)
    (he : Template.eval scope operand = pure m) (hm : m.items? = some ms) (hl : ∀ i, value (lowers i) operand = pure e)
  | refused (why : Failure) (e : CompileError) (hs : operand.symbol?.isSome = false)
    (he : Template.eval scope operand = .fail why) (hl : ∀ i, value (lowers i) operand = .throw e)

variable {scope lowers} {level : Nat} {n operand : Node} {ns : List Node} {d : Delimiter} {s hs : Span} {head : String}

theorem IsMet.acceptsAlike (h : IsMet scope lowers operand) :
    AcceptsAlike (Template.eval scope operand) fun i ↦ value (lowers i) operand := by
  cases h with
  | parameter m ms e hs he hm hl => exact .accepted m e he hl
  | refused why e hs he hl => exact .refused why e he hl

theorem fillItems_splice_cons {more : List Node} :
    fillItems scope 1 (.form (.symbol "unquote-splice" hs :: operand :: more) s :: ns) = (do
      let ms ← Template.splice (← Template.eval scope operand)
      return ms ++ (← fillItems scope 1 ns)) := by
  conv_lhs => unfold fillItems
  simp [Node.form]

theorem fillItems_splice_of_eval {more ms : List Node} {m : Node} (he : Template.eval scope operand = pure m)
    (hm : m.items? = some ms) : fillItems scope 1 (.form (.symbol "unquote-splice" hs :: operand :: more) s :: ns) =
      (do return ms ++ (← fillItems scope 1 ns)) := by
  have hsplice : Template.splice m = pure ms := by simp [Template.splice, hm]
  rw [fillItems_splice_cons, he]
  change (Template.splice m >>= _) = _
  rw [hsplice]
  rfl

theorem IsMet.acceptsAlike_splice (h : IsMet scope lowers operand)
    (ht : AcceptsAlike (fillItems scope 1 ns) fun i ↦ quoteItems (lowers i) (some 1) ns) :
    AcceptsAlike (fillItems scope 1 (.form [.symbol "unquote-splice" hs, operand] s :: ns))
      fun i ↦ quoteItems (lowers i) (some 1) (.form [.symbol "unquote-splice" hs, operand] s :: ns) := by
  simp only [quoteItems_splice]
  cases h with
  | parameter m ms e hsymbol he hm hl =>
    simp only [fillItems_splice_of_eval he hm, hl, pure_bind]
    exact ht.bind_pure _ _
  | refused why e hsymbol he hl =>
    rw [fillItems_splice, he]
    simp only [hl]
    exact .refused why e rfl fun _ ↦ rfl

theorem quote_of_holes_eq_nil (hplain : ¬(level = 1 ∧ IsSplice n)) (h : holes level n = [])
    (lower : Node → LowerM (Option Expr)) : quote lower (some level) n = pure (expressions.assemble level n []) := by
  rw [quote_eq lower level n hplain, h, List.map_nil, List.mapM_nil, map_pure]

theorem holesAll_symbols (h : ∀ n ∈ ns, n.symbol?.isSome = true) : holesAll level ns = [] := by
  rw [List.eq_nil_iff_forall_not_mem]
  intro hole hhole
  obtain ⟨n, hn, hhole⟩ := Template.mem_holesAll.mp hhole
  cases n with
  | symbol name s => cases hhole
  | literal value s => cases hhole
  | sequence d ns s => cases h _ hn

theorem IsMet.acceptsAlike_symbols {second : Node} {more : List Node} (h : IsMet scope lowers operand)
    (hsymbols : ∀ n ∈ operand :: second :: more, n.symbol?.isSome = true)
    (ht : AcceptsAlike (fillItems scope 1 ns) fun i ↦ quoteItems (lowers i) (some 1) ns) :
    AcceptsAlike (fillItems scope 1 (.form (.symbol "unquote-splice" hs :: operand :: second :: more) s :: ns))
      fun i ↦ quoteItems (lowers i) (some 1) (.form (.symbol "unquote-splice" hs :: operand :: second :: more) s :: ns) := by
  have hmark : ¬Template.IsMark .paren (.symbol "unquote-splice" hs :: operand :: second :: more) := by
    rintro ⟨_, _, _, -, hlength⟩
    simp at hlength
  have hplain : ¬(1 = 1 ∧ IsSplice (.form (.symbol "unquote-splice" hs :: operand :: second :: more) s)) :=
    fun hsplice ↦ Template.Assembly.not_isSplice_of_not_isMark hmark hsplice.2
  have hholes : holes 1 (.form (.symbol "unquote-splice" hs :: operand :: second :: more) s) = [] := by
    rw [Node.form, Template.holes_sequence hmark]
    exact holesAll_symbols (List.forall_mem_cons.mpr ⟨rfl, hsymbols⟩)
  have hitem : ∀ i, quoteItems (lowers i) (some 1)
      (.form (.symbol "unquote-splice" hs :: operand :: second :: more) s :: ns) = (do
        return .item (expressions.assemble 1 (.form (.symbol "unquote-splice" hs :: operand :: second :: more) s) []) ::
          (← quoteItems (lowers i) (some 1) ns)) := by
    intro i
    rw [quoteItems_item fun h ↦ hplain ⟨rfl, h.2⟩, quote_of_holes_eq_nil hplain hholes, pure_bind]
  simp only [hitem]
  cases h with
  | parameter m ms e hsymbol he hm hl =>
    rw [fillItems_splice_of_eval he hm]
    exact ht.bind_pure _ _
  | refused why e hsymbol he hl =>
    rw [hsymbols operand (List.mem_cons_self ..)] at hsymbol
    cases hsymbol

theorem acceptsAlike_item (hn : AcceptsAlike (fill scope level n) fun i ↦ quote (lowers i) (some level) n)
    (hplain : ¬(level = 1 ∧ n.isCallTo "unquote-splice" = true))
    (ht : AcceptsAlike (fillItems scope level ns) fun i ↦ quoteItems (lowers i) (some level) ns) :
    AcceptsAlike (fillItems scope level (n :: ns)) fun i ↦ quoteItems (lowers i) (some level) (n :: ns) := by
  rw [fillItems_cons hplain]
  simp only [quoteItems_cons hplain]
  exact hn.bind fun m e ↦ ht.bind_pure _ _

theorem acceptsAlike_items (hfit : allSplicesFit level ns = true)
    (hmet : ∀ n ∈ ns, ∀ o ∈ holeOperands n, IsMet scope lowers o)
    (h : ∀ n ∈ ns, splicesFit level n = true → AcceptsAlike (fill scope level n) fun i ↦ quote (lowers i) (some level) n) :
    AcceptsAlike (fillItems scope level ns) fun i ↦ quoteItems (lowers i) (some level) ns := by
  induction ns with
  | nil => exact .accepted [] [] (by simp [fillItems]) fun i ↦ by simp [quoteItems]
  | cons n ns ih =>
    simp only [allSplicesFit, Bool.and_eq_true, Bool.or_eq_true, decide_eq_true_eq] at hfit
    obtain ⟨⟨hsound, hfitn⟩, hfitns⟩ := hfit
    obtain ⟨hmetn, hmetns⟩ := List.forall_mem_cons.mp hmet
    obtain ⟨hn, hns⟩ := List.forall_mem_cons.mp h
    have ht := ih hfitns hmetns hns
    by_cases hsplice : level = 1 ∧ n.isCallTo "unquote-splice" = true
    · obtain ⟨rfl, hcall⟩ := hsplice
      obtain ⟨hs, operands, s, rfl⟩ := exists_of_isCallTo hcall
      have hsound := hsound.resolve_left (not_not_intro rfl)
      simp only [Node.form, holeOperands, or_true, if_true] at hmetn
      cases operands with
      | nil => cases hsound
      | cons operand more =>
        have hmeto := hmetn operand (List.mem_cons_self ..)
        cases more with
        | nil => exact hmeto.acceptsAlike_splice ht
        | cons second more => exact hmeto.acceptsAlike_symbols (List.all_eq_true.mp hsound) ht
    · exact acceptsAlike_item (hn hfitn) hsplice ht

theorem acceptsAlike_splice_outside :
    AcceptsAlike (fill scope 1 (.form [.symbol "unquote-splice" hs, operand] s))
      fun i ↦ quote (lowers i) (some 1) (.form [.symbol "unquote-splice" hs, operand] s) := by
  have hfill : fill scope 1 (.form [.symbol "unquote-splice" hs, operand] s) =
      .refuse "unquote-splice outside a sequence" := by
    simp [Node.form, fill]
  rw [hfill]
  exact .refused _ (.unsupported (.form [.symbol "unquote-splice" hs, operand] s) .spliceOutsideSequence) rfl fun i ↦ by
    simp [Node.form, quote, reject]

theorem acceptsAlike_operand (hmet : ∀ o ∈ holeOperands operand, IsMet scope lowers o)
    (hfit : level = 1 → isSymbolSplice operand = false)
    (h : AcceptsAlike (fill scope level operand) fun i ↦ quote (lowers i) (some level) operand) :
    AcceptsAlike (fill scope level operand) fun i ↦ quoteItems (lowers i) (some level) [operand] := by
  by_cases hsplice : level = 1 ∧ IsSplice operand
  · obtain ⟨rfl, hs, o, s, rfl⟩ := hsplice
    have hsymbol : o.symbol?.isSome = false := hfit rfl
    have ho : IsMet scope lowers o := hmet o (by simp [Node.form, holeOperands])
    simp only [quoteItems_splice]
    cases ho with
    | parameter m ms e hsymbol' he hm hl =>
      rw [hsymbol] at hsymbol'
      cases hsymbol'
    | refused why e _ he hl =>
      simp only [hl]
      exact .refused (.message "unquote-splice outside a sequence") e (by simp [Node.form, fill, Action.refuse]) fun _ ↦ rfl
  · have hitem : ∀ i, quoteItems (lowers i) (some level) [operand] =
        (do return [.item (← quote (lowers i) (some level) operand)]) := by
      intro i
      rw [quoteItems_item fun h ↦ hsplice ⟨by simpa using h.1, h.2⟩]
      simp [quoteItems]
    simp only [hitem]
    exact h.map_right _

theorem splicesFit_mark (hm : IsMark head) (hlevel : head = "quasiquote" ∨ level ≠ 1) (hpos : 1 ≤ level)
    (h : splicesFit level (.form [.symbol head hs, operand] s) = true) :
    1 ≤ levelUnder head level ∧ (levelUnder head level = 1 → isSymbolSplice operand = false) ∧
      splicesFit (levelUnder head level) operand = true := by
  by_cases hq : head = "quasiquote"
  · subst hq
    simp only [Node.form, splicesFit, String.reduceEq, or_self, if_false, if_true] at h
    simp only [levelUnder, if_true]
    exact ⟨by omega, fun hone ↦ by omega, h⟩
  · have hhole : head = "unquote" ∨ head = "unquote-splice" := by
      rcases hm with h | h | h
      · exact .inl h
      · exact .inr h
      · exact absurd h hq
    have hne := hlevel.resolve_left hq
    simp only [Node.form, splicesFit, hhole, if_true, hne, decide_false, Bool.false_or, Bool.and_eq_true, Bool.not_eq_true',
      Bool.and_eq_false_iff, decide_eq_false_iff_not] at h
    simp only [levelUnder, hq, if_false]
    exact ⟨by omega, fun hone ↦ h.1.resolve_left fun hlevel ↦ by omega, h.2⟩

theorem splicesFit_sequence (hno : ∀ head hs operand, d = .paren → ns = [.symbol head hs, operand] → ¬IsMark head) :
    splicesFit level (.sequence d ns s) = allSplicesFit level ns := by
  conv_lhs => unfold splicesFit
  split
  · next head hs operand =>
    have hm := hno head hs operand rfl rfl
    simp only [IsMark, not_or] at hm
    simp [hm, allSplicesFit, splicesFit, isSoundSplice]
  · rfl

/-- At every level a template is accepted or refused alike, if the operands of its holes are. -/
theorem acceptsAlike (n : Node) (hpos : 1 ≤ level) (hfit : splicesFit level n = true)
    (hmet : ∀ m ∈ n.subnodes, ∀ o ∈ holeOperands m, IsMet scope lowers o) :
    AcceptsAlike (fill scope level n) fun i ↦ quote (lowers i) (some level) n := by
  induction n using Node.induct generalizing level with
  | symbol name s => exact .accepted (.symbol name s) _ (by simp [fill]) fun i ↦ by rw [quote]
  | literal value s => exact .accepted (.literal value s) _ (by simp [fill]) fun i ↦ by rw [quote]
  | sequence d items s ih =>
    have hitem : ∀ n ∈ items, ∀ m ∈ n.subnodes, ∀ o ∈ holeOperands m, IsMet scope lowers o := fun n hn m hm ↦
      hmet m (List.mem_cons_of_mem _ (Node.mem_subnodesAll.mpr ⟨n, hn, hm⟩))
    by_cases hmark : ∃ head hs operand, d = .paren ∧ items = [.symbol head hs, operand] ∧ IsMark head
    · obtain ⟨head, hs, operand, rfl, rfl, hm⟩ := hmark
      by_cases hout : head = "quasiquote" ∨ level ≠ 1
      · obtain ⟨hunder, hsymbol, hfitoperand⟩ := splicesFit_mark hm hout hpos hfit
        have hoperand := ih operand (by simp) hunder hfitoperand (hitem operand (by simp))
        have hmetoperand := hitem operand (by simp) operand operand.self_mem_subnodes
        rw [← Node.form, fill_mark hm hout]
        simp only [quote_mark hm hout]
        exact (acceptsAlike_operand hmetoperand hsymbol hoperand).bind_pure _ _
      · obtain ⟨hq, rfl⟩ : head ≠ "quasiquote" ∧ level = 1 := by simpa using hout
        rcases hm with rfl | rfl | rfl
        · have ho := hmet _ (Node.self_mem_subnodes _) operand (by simp [holeOperands])
          simpa [fill, quote] using ho.acceptsAlike
        · exact acceptsAlike_splice_outside
        · exact absurd rfl hq
    · have hno : ∀ head hs operand, d = .paren → items = [.symbol head hs, operand] → ¬IsMark head :=
        fun head hs operand hd hitems hm ↦ hmark ⟨head, hs, operand, hd, hitems, hm⟩
      rw [splicesFit_sequence hno] at hfit
      rw [fill_sequence hno]
      simp only [quote_sequence hno]
      exact (acceptsAlike_items hfit (fun n hn ↦ hitem n hn n n.self_mem_subnodes)
        fun n hn hfitn ↦ ih n hn hpos hfitn (hitem n hn)).bind_pure _ _

def isLowerable : Node → Bool
  | .symbol name s => (symbol name (.symbol name s)).isOk
  | _ => true

theorem eval_hole {operands : List Node} (h : head = "unquote" ∨ head = "unquote-splice") :
    Template.eval scope (.form (.symbol head hs :: operands) s) =
      .refuse ("cannot evaluate " ++ (Node.form (.symbol head hs :: operands) s).text ++ " at expansion time") := by
  rcases h with rfl | rfl <;> simp [Node.form, Template.eval]

theorem value_lowerPlain_hole {operands : List Node} (h : head = "unquote" ∨ head = "unquote-splice") (fuel : Nat) :
    value (lowerPlain (fuel + 1)) (.form (.symbol head hs :: operands) s) =
      .throw (.unsupported (.form (.symbol head hs :: operands) s) (.holeOutsideTemplate head)) := by
  rw [value, lowerPlain_succ]
  rcases h with rfl | rfl <;> rfl

theorem value_lowerPlain_symbol {name : String} {e : Expr} (h : symbol name (.symbol name s) = .ok e) (fuel : Nat) :
    value (lowerPlain (fuel + 1)) (.symbol name s) = pure e := by
  rw [value, lowerPlain_succ, expanded, h]
  rfl

theorem lowerPlain_quasiquote (t : Node) (hs s : Span) (fuel : Nat) :
    lowerPlain (fuel + 2) (.form [.symbol "quasiquote" hs, t] s) = some <$> quote (lowerPlain (fuel + 1)) (some 1) t := by
  rw [lowerPlain_succ]
  rfl

theorem items?_of_form? {m : Node} (h : m.form?.isSome = true) : ∃ ms, m.items? = some ms := by
  cases m with
  | symbol name s => cases h
  | literal value s => cases h
  | sequence d ns s => exact ⟨ns, rfl⟩

theorem isMet_of_isFillable (hfill : isFillable scope operand = true) (hlower : isLowerable operand = true) :
    IsMet scope (fun fuel ↦ lowerPlain (fuel + 1)) operand := by
  cases operand with
  | symbol name s =>
    cases hm : scope.lookup name with
    | none => simp [isFillable, hm] at hfill
    | some m =>
      obtain ⟨ms, hms⟩ := items?_of_form? (m := m) (by simpa [isFillable, hm] using hfill)
      have heval : Template.eval scope (.symbol name s) = pure m := by simp only [Template.eval, hm]
      cases he : symbol name (.symbol name s) with
      | error e =>
        rw [isLowerable, he] at hlower
        cases hlower
      | ok e => exact .parameter m ms e rfl heval hms fun fuel ↦ value_lowerPlain_symbol he fuel
  | literal value s => cases hfill
  | sequence d ns s =>
    have hcall : ∃ head, (head = "unquote" ∨ head = "unquote-splice") ∧ (Node.sequence d ns s).isCallTo head = true := by
      rcases Bool.or_eq_true_iff.mp hfill with h | h
      · exact ⟨_, .inl rfl, h⟩
      · exact ⟨_, .inr rfl, h⟩
    obtain ⟨head, hhead, hcall⟩ := hcall
    obtain ⟨hs, operands, s, hform⟩ := exists_of_isCallTo hcall
    rw [hform]
    exact .refused _ _ rfl (eval_hole hhead) fun fuel ↦ value_lowerPlain_hole hhead fuel

/-- A template macro fills a template and the compiler without macros lowers it, or neither does: if parameters
that stand for parenthesised sequences and forms that look like holes are the only operands of such forms, if the
compiler has an expression for these parameters, and if the splices fit. -/
theorem template_accepted_alike {p : Params} {t : Node} {call : MacroCall} (doc : Option String) (hs s : Span)
    (harity : p.accepts call.args.length = true)
    (hfill : ∀ n ∈ t.subnodes, ∀ o ∈ holeOperands n, isFillable (p.bind call.args call.form.span) o = true)
    (hlower : ∀ n ∈ t.subnodes, ∀ o ∈ holeOperands n, isLowerable o = true) (hfit : splicesFit 1 t = true) :
    (∃ filled e, Template.expander ⟨p, .form [.symbol "quasiquote" hs, t] s, doc⟩ call = .done (.form filled) ∧
      ∀ fuel w, (Compiler.mk none).module (fuel + 2) false [.form [.symbol "quasiquote" hs, t] s] w =
        some ⟨.ok ⟨[.expr e]⟩, [], w⟩) ∨
    ∃ why error, Template.expander ⟨p, .form [.symbol "quasiquote" hs, t] s, doc⟩ call = .fail why ∧
      ∀ fuel w, (Compiler.mk none).module (fuel + 2) false [.form [.symbol "quasiquote" hs, t] s] w =
        some ⟨.error error, [], w⟩ := by
  have hexpander : Template.expander ⟨p, .form [.symbol "quasiquote" hs, t] s, doc⟩ call =
      (do return .form (← fill (p.bind call.args call.form.span) 1 t)) := by
    rw [Template.expander, if_pos harity]
    change (Template.eval _ (.sequence .paren [.symbol "quasiquote" hs, t] s) >>= _) = _
    rw [Template.eval]
  rcases acceptsAlike t le_rfl hfit fun n hn o ho ↦ isMet_of_isFillable (hfill n hn o ho) (hlower n hn o ho) with
    ⟨filled, e, hf, hq⟩ | ⟨why, error, hf, hq⟩
  · refine .inl ⟨filled, e, by rw [hexpander, hf]; rfl, fun fuel w ↦ ?_⟩
    rw [Compiler.module, Compiler.statements]
    change ((lowerPlain (fuel + 2) _ >>= _).collect >>= _) w = _
    rw [lowerPlain_quasiquote, hq, map_pure, pure_bind]
    rfl
  · refine .inr ⟨why, error, by rw [hexpander, hf]; rfl, fun fuel w ↦ ?_⟩
    rw [Compiler.module, Compiler.statements]
    change ((lowerPlain (fuel + 2) _ >>= _).collect >>= _) w = _
    rw [lowerPlain_quasiquote, hq]
    rfl

section Examples

def filling (name : String) (t : Node) : Action MacroOutput :=
  Template.expander ⟨⟨[name], none⟩, .form [.symbol "quasiquote" .nowhere, t] .nowhere, none⟩
    ⟨"m", .form [] .nowhere, [.form [] .nowhere]⟩

def lowering (fuel : Nat) (t : Node) : LowerM Host.Module :=
  (Compiler.mk none).module (fuel + 2) false [.form [.symbol "quasiquote" .nowhere, t] .nowhere]

def FilledOnly (name : String) (t : Node) : Prop :=
  (∃ output, filling name t = .done output) ∧ ∃ error, ∀ fuel w, lowering fuel t w = some ⟨.error error, [], w⟩

def LoweredOnly (name : String) (t : Node) : Prop :=
  (∃ why, filling name t = .fail why) ∧ ∃ m, ∀ fuel w, lowering fuel t w = some ⟨.ok m, [], w⟩

def likeHole (head : String) (operands : List Node) : Node := .form (.symbol head .nowhere :: operands) .nowhere

def besideA (n : Node) : Node := .form [.symbol "a" .nowhere, n] .nowhere

def parameterX : Node := .symbol "x" .nowhere

def emptySplice : Node := besideA (likeHole "unquote-splice" [])

def wideSplice : Node :=
  besideA (likeHole "unquote-splice" [parameterX, likeHole "unquote" [likeHole "unquote" [parameterX]]])

/-- A splice right under a hole of the second level. -/
def heldSplice : Node :=
  besideA (likeHole "quasiquote" [besideA (likeHole "unquote" [likeHole "unquote-splice" [parameterX]])])

def dottedHole : Node := besideA (likeHole "unquote" [.symbol "x..y" .nowhere])

/-- Templates with the right operands in their holes, each of which only one side accepts. -/
theorem templates_accepted_by_one_side :
    (∀ t ∈ [emptySplice, wideSplice, heldSplice], ∀ n ∈ t.subnodes, ∀ o ∈ holeOperands n,
      isFillable [("x", .form [] .nowhere)] o = true) ∧
    (∀ n ∈ dottedHole.subnodes, ∀ o ∈ holeOperands n, isFillable [("x..y", .form [] .nowhere)] o = true) ∧
    LoweredOnly "x" emptySplice ∧ FilledOnly "x" wideSplice ∧ LoweredOnly "x" heldSplice ∧ FilledOnly "x..y" dottedHole := by
  have hempty : LoweredOnly "x" emptySplice :=
    ⟨⟨_, rfl⟩, ⟨[.expr (expressions.assemble 1 emptySplice [])]⟩, fun fuel w ↦ rfl⟩
  have hwide : FilledOnly "x" wideSplice := ⟨⟨_, rfl⟩, _, fun fuel w ↦ rfl⟩
  have hheld : LoweredOnly "x" heldSplice :=
    ⟨⟨_, rfl⟩, ⟨[.expr (expressions.assemble 1 heldSplice [.load "x"])]⟩, fun fuel w ↦ rfl⟩
  have hdotted : FilledOnly "x..y" dottedHole := ⟨⟨_, rfl⟩, _, fun fuel w ↦ rfl⟩
  exact ⟨by decide, by decide, hempty, hwide, hheld, hdotted⟩

/-- A hole, splices at two levels, one of them with two operands, and a form that only has the look of a hole. -/
def mixedTemplate : Node :=
  .form [likeHole "unquote" [parameterX], likeHole "unquote-splice" [parameterX],
    likeHole "unquote-splice" [parameterX, parameterX], likeHole "unquote" [],
    likeHole "quasiquote" [besideA (likeHole "unquote-splice" [likeHole "unquote" [parameterX]])]] .nowhere

theorem template_accepted_alike_mixedTemplate :
    (∀ n ∈ mixedTemplate.subnodes, ∀ o ∈ holeOperands n, isFillable [("x", .form [] .nowhere)] o = true) ∧
    (∀ n ∈ mixedTemplate.subnodes, ∀ o ∈ holeOperands n, isLowerable o = true) ∧ splicesFit 1 mixedTemplate = true ∧
    ((∃ filled e, filling "x" mixedTemplate = .done (.form filled) ∧
      ∀ fuel w, lowering fuel mixedTemplate w = some ⟨.ok ⟨[.expr e]⟩, [], w⟩) ∨
    ∃ why error, filling "x" mixedTemplate = .fail why ∧
      ∀ fuel w, lowering fuel mixedTemplate w = some ⟨.error error, [], w⟩) := by
  have hfill : ∀ n ∈ mixedTemplate.subnodes, ∀ o ∈ holeOperands n, isFillable [("x", .form [] .nowhere)] o = true := by decide
  have hlower : ∀ n ∈ mixedTemplate.subnodes, ∀ o ∈ holeOperands n, isLowerable o = true := by decide
  exact ⟨hfill, hlower, rfl, template_accepted_alike none .nowhere .nowhere rfl hfill hlower rfl⟩

end Examples

end Lowering

end MacroLisp
