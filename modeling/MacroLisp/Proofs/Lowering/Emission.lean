import MacroLisp.Proofs.Lowering.Quasiquote
import MacroLisp.Proofs.Lowering.Values

namespace MacroLisp

namespace Lowering

open Host (Expr Stmt Alias BinaryOp CompareOp BoolOp UnaryOp Role)

variable {S : Role → String → Prop} {P : Node → Prop} {μ : String → String} {α : Type} {n test body : Node}
  {ns args : List Node} {e first : Expr} {es : List Expr} {name : String}

section Model

variable (hP : Admits S P)

theorem value_none : IsValue S μ Expr.none := .constant _

theorem value_group (op : BinaryOp) (hf : IsValue S μ first) (h : ∀ e ∈ es, IsValue S μ e) :
    IsValue S μ (group op first es) := by
  by_cases hop : op = .pow
  · subst hop
    induction es generalizing first with
    | nil => exact hf
    | cons second rest ih =>
      obtain ⟨hsecond, hrest⟩ := List.forall_mem_cons.mp h
      rw [group_pow_cons]
      exact .binary _ hf (ih hsecond hrest)
  · rw [group_of_ne_pow hop]
    exact List.foldlRecOn _ _ hf fun left hl right hr ↦ .binary op hl (h right hr)

theorem value_operation {head : String} {op : BinaryOp} (h : ∀ e ∈ es, IsValue S μ e)
    (ho : operation head op n es = .ok e) : IsValue S μ e := by
  unfold operation at ho
  split at ho
  · split at ho
    · cases ho
      exact .constant _
    · cases ho
      exact .constant _
    · cases ho
  · have he := h _ (List.mem_singleton_self _)
    split at ho
    · cases ho
      exact .unary _ he
    · cases ho
      exact .unary _ he
    · cases ho
      exact he
    · cases ho
      exact .binary _ (.constant _) he
    · cases ho
  · cases ho
    obtain ⟨hfirst, hrest⟩ := List.forall_mem_cons.mp h
    exact value_group op hfirst hrest

include hP

theorem value_load (hid : Name.isIdentifier name = true) : IsValue S μ (.load name) := by
  simpa only [Name.mangle_of_isIdentifier hid] using
    IsValue.load (μ := μ) (hP.whole .name (Name.isWhole_of_isIdentifier hid))

theorem value_attr (hid : Name.isIdentifier name = true) (h : IsValue S μ e) : IsValue S μ (e.attr name) := by
  simpa only [Name.mangle_of_isIdentifier hid] using h.attr (hP.whole .member (Name.isWhole_of_isIdentifier hid))

theorem value_model {kind : String} (hid : Name.isIdentifier kind = true) (h : IsValue S μ e) :
    IsValue S μ (model kind e) := by
  have hy : IsValue S μ (.load "hy") := value_load hP (by decide)
  have hmodels : IsValue S μ ((Expr.load "hy").attr "models") := value_attr hP (by decide) hy
  exact .call (value_attr hP hid hmodels) (by simpa using h) (by simp) (by simp)

theorem value_literal (l : Literal) : IsValue S μ (literal l) := by
  cases l with
  | keyword k => exact value_model hP (by decide) (.constant _)
  | _ => exact .constant _

theorem value_quotedLiteral (l : Literal) : IsValue S μ (quotedLiteral l) := by
  cases l <;> exact value_model hP (by decide) (.constant _)

theorem value_chain {first : String} {rest : List String} (h : ∀ s ∈ first :: rest, Name.IsWhole s) :
    IsValue S μ (chain first rest) := by
  obtain ⟨hfirst, hrest⟩ := List.forall_mem_cons.mp h
  exact List.foldlRecOn rest _ (.load (hP.whole .name hfirst)) fun e he s hs ↦ he.attr (hP.whole .member (hrest s hs))

theorem value_symbol {s : Span} (hn : P (.symbol name s)) (h : symbol name n = .ok e) : IsValue S μ e := by
  unfold symbol at h
  split at h
  · next c hc =>
    cases h
    unfold constant? at hc
    split at hc <;> cases hc <;> exact .constant _
  split at h
  · next hsingle =>
    cases h
    refine .load (hP.given hn (.symbol ?_))
    simpa [Name.IsSingle] using hsingle
  dsimp only at h
  split at h
  · cases h
  · next hall =>
    split at h
    · next first rest hfields =>
      cases h
      refine value_chain hP fun component hc ↦ ?_
      rw [← hfields] at hc
      refine ⟨?_, Name.isSingle_of_mem_fields hc⟩
      rintro rfl
      exact hall (List.any_eq_true.mpr ⟨"", hc, rfl⟩)
    · cases h

def Piece.expr : Piece → Expr
  | item e => e
  | splice e => e

omit hP in
theorem value_run {run : List Expr} (h : ∀ e ∈ run, IsValue S μ e) :
    ∀ e ∈ (if run.isEmpty then [] else [Expr.list run]), IsValue S μ e := by
  split
  · simp
  · simpa using IsValue.list h

theorem value_chunks {run : List Expr} {pieces : List Piece} (hr : ∀ e ∈ run, IsValue S μ e)
    (h : ∀ p ∈ pieces, IsValue S μ p.expr) : ∀ e ∈ chunks run pieces, IsValue S μ e := by
  induction pieces generalizing run with
  | nil => exact value_run hr
  | cons p pieces ih =>
    obtain ⟨hp, hpieces⟩ := List.forall_mem_cons.mp h
    cases p with
    | item e => exact ih (List.forall_mem_append.mpr ⟨hr, List.forall_mem_singleton.mpr hp⟩) hpieces
    | splice e =>
      have hlist : IsValue S μ (.call (.load "list") [e] []) :=
        .call (value_load hP (by decide)) (List.forall_mem_singleton.mpr hp) (by simp) (by simp)
      exact List.forall_mem_append.mpr ⟨value_run hr, List.forall_mem_cons.mpr ⟨hlist, ih (by simp) hpieces⟩⟩

theorem value_quotedSequence (d : Delimiter) {pieces : List Piece} (h : ∀ p ∈ pieces, IsValue S μ p.expr) :
    IsValue S μ (quotedSequence d pieces) := by
  have hchunks : ∀ e ∈ chunks [] pieces, IsValue S μ e := value_chunks hP (by simp) h
  have hsum : IsValue S μ (concatenation (chunks [] pieces)) := by
    unfold concatenation
    split
    · exact .list (by simp)
    · next first rest hc =>
      rw [hc] at hchunks
      obtain ⟨hfirst, hrest⟩ := List.forall_mem_cons.mp hchunks
      exact List.foldlRecOn rest _ hfirst fun left hl right hr ↦ .binary _ hl (hrest right hr)
  cases d <;> exact value_model hP (by decide) hsum

end Model

section Shapes

variable {lower : Node → LowerM (Option Expr)} (hP : Admits S P)
  (hlower : ∀ n, P n → Emits S μ (lower n) fun r ↦ ∀ e ∈ r, IsValue S μ e)

theorem emits_reject (n : Node) (why : Unsupported) {Q : α → Prop} : Emits S μ (reject n why) Q := .throw _

theorem emits_refuse (head : String) (n : Node) (why : Malformed) {Q : α → Prop} : Emits S μ (refuse head n why) Q :=
  .throw _

theorem emits_expr (h : IsValue S μ e) : Emits S μ (emit (.expr e)) fun _ ↦ True := by
  refine .emit (.expr h) ?_
  simp [Stmt.temporaries]

theorem emits_some {p : LowerM Expr} (h : Emits S μ p (IsValue S μ)) :
    Emits S μ (some <$> p) fun r ↦ ∀ e ∈ r, IsValue S μ e :=
  h.map fun e he ↦ by simpa using he

include hlower

theorem emits_value (h : P n) : Emits S μ (value lower n) (IsValue S μ) := by
  refine (hlower n h).bind fun r hr ↦ .pure ?_
  cases r with
  | none => exact value_none
  | some e => exact hr e rfl

theorem emits_values (h : ∀ n ∈ ns, P n) : Emits S μ (values lower ns) fun es ↦ ∀ e ∈ es, IsValue S μ e := by
  induction ns with
  | nil => exact .pure (by simp)
  | cons n ns ih =>
    obtain ⟨hn, hns⟩ := List.forall_mem_cons.mp h
    refine (emits_value hlower hn).bind fun e he ↦ (ih hns).bind fun es hes ↦ .pure ?_
    exact List.forall_mem_cons.mpr ⟨he, hes⟩

theorem emits_operator (head : String) (op : BinaryOp) (n : Node) (h : ∀ n ∈ args, P n) :
    Emits S μ (operator lower head op args n) (IsValue S μ) :=
  (emits_values hlower h).bind fun _ hes ↦ .ofExcept fun _ he ↦ value_operation hes he

theorem emits_comparison (head : String) (op : CompareOp) (n : Node) (h : ∀ n ∈ args, P n) :
    Emits S μ (comparison lower head op args n) (IsValue S μ) := by
  refine (emits_values hlower h).bind fun es hes ↦ ?_
  rcases es with _ | ⟨left, _ | ⟨second, rest⟩⟩
  · exact emits_refuse head n _
  · exact (emits_expr (hes left (by simp))).bind fun _ _ ↦ .pure (.constant _)
  · obtain ⟨hleft, hrest⟩ := List.forall_mem_cons.mp hes
    exact .pure (.compare hleft (by simp) (by simp) hrest)

theorem emits_laterOperands (head : String) (n : Node) (h : ∀ n ∈ args, P n) :
    Emits S μ (laterOperands lower head n args) fun es ↦ ∀ e ∈ es, IsValue S μ e := by
  induction args with
  | nil => exact .pure (by simp)
  | cons arg args ih =>
    obtain ⟨harg, hargs⟩ := List.forall_mem_cons.mp h
    refine (emits_value hlower harg).collect.bind fun p hp ↦ ?_
    dsimp only
    split
    · exact (ih hargs).bind fun es hes ↦ .pure (List.forall_mem_cons.mpr ⟨hp, hes⟩)
    · exact emits_reject n _

theorem emits_boolean (head : String) (op : BoolOp) (n : Node) (h : ∀ n ∈ args, P n) :
    Emits S μ (boolean lower head op args n) (IsValue S μ) := by
  cases args with
  | nil => cases op <;> exact .pure (.constant _)
  | cons first rest =>
    obtain ⟨hfirst, hrest⟩ := List.forall_mem_cons.mp h
    refine (emits_value hlower hfirst).bind fun e he ↦ (emits_laterOperands hlower head n hrest).bind fun es hes ↦ ?_
    cases es with
    | nil => exact .pure he
    | cons e' es => exact .pure (.boolean op (by simp) (List.forall_mem_cons.mpr ⟨he, hes⟩))

omit hlower in
theorem freshName_temporary {w : World} (hw : w.names.mangle = μ) : (Process.freshName "if" : LowerM String) w =
    some ⟨.ok (temporary μ w.names.count), [], ⟨⟨μ, w.names.count + 1⟩, w.resolver⟩⟩ := by
  subst hw
  rfl

theorem emits_conditional {orelse : Option Node} (ht : P test) (hb : P body)
    (ho : ∀ n ∈ orelse, P n) : Emits S μ (conditional lower test body orelse) (IsValue S μ) := by
  unfold conditional
  refine (emits_value hlower ht).bind fun t htest w e stmts w' hw hp ↦ ?_
  obtain ⟨p, log, w₁, log', hcollect, hrest, rfl⟩ := Process.bind_eq_ok hp
  obtain ⟨hbody, rfl⟩ := Process.collect_eq_ok hcollect
  obtain ⟨hbv, hbs, hsupply₁, ks, hks, hbetween₁⟩ := emits_value hlower hb w _ _ _ hw hbody
  have hw₁ : w₁.names.mangle = μ := hsupply₁.mangle.trans hw
  dsimp only at hrest
  obtain ⟨q, log, w₂, log', hcollect', hlast, rfl⟩ := Process.bind_eq_ok hrest
  obtain ⟨helse, rfl⟩ := Process.collect_eq_ok hcollect'
  obtain ⟨hev, hes, hsupply₂, ls, hls, hbetween₂⟩ : Emission S μ (IsValue S μ) q.1 q.2 w₁.names w₂.names := by
    cases orelse with
    | none => exact Emits.pure value_none w₁ _ _ _ hw₁ helse
    | some n => exact emits_value hlower (ho n rfl) w₁ _ _ _ hw₁ helse
  have hw₂ : w₂.names.mangle = μ := hsupply₂.mangle.trans hw₁
  split at hlast
  · cases hlast
    exact Emits.silent (.conditional htest hbv hev) (hsupply₁.trans hsupply₂)
  · rw [Process.bind_of_ok (freshName_temporary hw₂)] at hlast
    cases hlast
    have hcount := (hsupply₁.trans hsupply₂).count
    refine ⟨.temporary _, ?_, ⟨?_, Nat.le_succ_of_le hcount⟩, w₂.names.count :: (ks ++ ls), ?_,
      (hbetween₁.append hbetween₂ hsupply₁.count hsupply₂.count).cons hcount⟩
    · exact List.forall_mem_singleton.mpr (.ifElse _ htest hbs hbv hes hev)
    · exact hw.symm
    · simp [Stmt.temporariesOfAll, Stmt.temporaries, Stmt.lastTarget?_append_assign, Stmt.temporariesOfAll_append_assign,
        hks, hls]

theorem emits_sequence (h : ∀ n ∈ ns, P n) :
    Emits S μ (sequence lower ns) fun r ↦ ∀ e ∈ r, IsValue S μ e := by
  induction ns with
  | nil => exact .pure (by simp)
  | cons n ns ih =>
    obtain ⟨hn, hns⟩ := List.forall_mem_cons.mp h
    cases ns with
    | nil => exact hlower n hn
    | cons n' ns =>
      refine (hlower n hn).bind fun r hr ↦ ?_
      cases r with
      | none => exact ih hns
      | some e => exact (emits_expr (hr e rfl)).bind fun _ _ ↦ ih hns

include hP in
theorem emits_assignments (n : Node) (h : ∀ n ∈ args, P n) :
    Emits S μ (assignments lower n args) fun _ ↦ True := by
  induction args using List.twoStepInduction with
  | nil => exact .pure trivial
  | singleton target => exact .pure trivial
  | cons_cons target source rest ih _ =>
    obtain ⟨htarget, hargs⟩ := List.forall_mem_cons.mp h
    obtain ⟨hsource, hrest⟩ := List.forall_mem_cons.mp hargs
    unfold assignments
    split
    · exact emits_refuse "setv" n _
    · next name hname =>
      obtain ⟨s, rfl⟩ := Node.exists_of_symbol? hname
      refine (Emits.ofExcept (Q := IsValue S μ) fun e he ↦ value_symbol hP htarget he).bind fun e he ↦ ?_
      split
      · exact emits_refuse "setv" n _
      · next place hplace =>
        refine (emits_value hlower hsource).bind fun v hv ↦ ?_
        refine (Emits.emit (.assign he hplace hv) ?_).bind fun _ _ ↦ ih hrest
        simp [Stmt.temporaries]

theorem emits_keyValues (h : ∀ n ∈ ns, P n) : Emits S μ (keyValues lower ns) fun p ↦
    p.1.length = p.2.length ∧ (∀ e ∈ p.1, IsValue S μ e) ∧ ∀ e ∈ p.2, IsValue S μ e := by
  induction ns using List.twoStepInduction with
  | nil => exact .pure (by simp)
  | singleton k => exact .pure (by simp)
  | cons_cons k v rest ih _ =>
    obtain ⟨hk, hns⟩ := List.forall_mem_cons.mp h
    obtain ⟨hv, hrest⟩ := List.forall_mem_cons.mp hns
    refine (emits_value hlower hk).bind fun ek hek ↦ (emits_value hlower hv).bind fun ev hev ↦ ?_
    refine (ih hrest).bind fun p ⟨hlen, hks, hvs⟩ ↦ .pure ⟨congrArg (· + 1) hlen, ?_, ?_⟩
    · exact List.forall_mem_cons.mpr ⟨hek, hks⟩
    · exact List.forall_mem_cons.mpr ⟨hev, hvs⟩

theorem emits_dictionary (n : Node) (h : ∀ n ∈ ns, P n) :
    Emits S μ (dictionary lower ns n) (IsValue S μ) := by
  unfold dictionary
  split
  · exact emits_refuse _ n _
  · exact (emits_keyValues hlower h).bind fun p ⟨hlen, hks, hvs⟩ ↦ .pure (.dict hlen hks hvs)

include hP in
theorem emits_arguments (h : ∀ n ∈ args, P n) : Emits S μ (arguments lower args) fun p ↦
    (∀ e ∈ p.1, IsValue S μ e) ∧ (∀ k ∈ p.2, IsValue S μ k.2) ∧
      ∀ k ∈ p.2, ∃ name, S .keyword name ∧ k.1 = Name.mangle name := by
  fun_induction arguments lower args with
  | case1 => exact .pure (by simp)
  | case2 k s => exact emits_refuse k _ _
  | case3 k s v rest ih =>
    obtain ⟨hk, hvs⟩ := List.forall_mem_cons.mp h
    obtain ⟨hv, hrest⟩ := List.forall_mem_cons.mp hvs
    refine (emits_value hlower hv).bind fun e he ↦ (ih hrest).bind fun p ⟨hes, hks, hnames⟩ ↦ .pure ⟨hes, ?_, ?_⟩
    · exact List.forall_mem_cons.mpr ⟨he, hks⟩
    · exact List.forall_mem_cons.mpr ⟨⟨k, hP.given hk .keyword, rfl⟩, hnames⟩
  | case4 n rest => exact emits_reject n _
  | case5 n rest _ _ ih =>
    obtain ⟨hn, hrest⟩ := List.forall_mem_cons.mp h
    refine (emits_value hlower hn).bind fun e he ↦ (ih hrest).bind fun p ⟨hes, hks, hnames⟩ ↦ .pure ⟨?_, hks, hnames⟩
    exact List.forall_mem_cons.mpr ⟨he, hes⟩

include hP in
theorem emits_call (hf : IsValue S μ e) (h : ∀ n ∈ args, P n) : Emits S μ (call lower e args) (IsValue S μ) :=
  (emits_arguments hP hlower h).bind fun _ ⟨hes, hks, hnames⟩ ↦ .pure (.call hf hes hks hnames)

omit hlower in
theorem emits_attributes (n : Node) (he : IsValue S μ e) (h : ∀ name s, .symbol name s ∈ args → S .member name) :
    Emits S μ (attributes n e args) (IsValue S μ) := by
  induction args generalizing e with
  | nil => exact .pure he
  | cons a rest ih =>
    have hrest : ∀ name s, .symbol name s ∈ rest → S .member name :=
      fun name s hs ↦ h name s (List.mem_cons_of_mem _ hs)
    unfold attributes
    cases a with
    | symbol name s => exact ih (he.attr (h name s List.mem_cons_self)) hrest
    | literal value s => exact emits_reject n _
    | sequence d items s => exact emits_reject n _

include hP in
theorem emits_quoteItems {level : Option ℕ}
    (hq : ∀ n ∈ ns, P n → ∀ level, Emits S μ (quote lower level n) (IsValue S μ))
    (h : ∀ n ∈ ns, P n) :
    Emits S μ (quoteItems lower level ns) fun pieces ↦ ∀ p ∈ pieces, IsValue S μ p.expr := by
  induction ns with
  | nil =>
    unfold quoteItems
    exact .pure (by simp)
  | cons n ns ih =>
    obtain ⟨hn, hns⟩ := List.forall_mem_cons.mp h
    obtain ⟨hqn, hqns⟩ := List.forall_mem_cons.mp hq
    by_cases hsplice : level = some 1 ∧ IsSplice n
    · obtain ⟨rfl, hs, operand, s, rfl⟩ := hsplice
      rw [quoteItems_splice]
      have hoperand : P operand := hP.part hn operand (by simp)
      refine (emits_value hlower hoperand).bind fun e he ↦ (ih hqns hns).bind fun pieces hp ↦ .pure ?_
      exact List.forall_mem_cons.mpr ⟨he, hp⟩
    · rw [quoteItems_item hsplice]
      refine (hqn hn level).bind fun e he ↦ (ih hqns hns).bind fun pieces hp ↦ .pure ?_
      exact List.forall_mem_cons.mpr ⟨he, hp⟩

include hP in
theorem emits_quote (level : Option ℕ) (h : P n) : Emits S μ (quote lower level n) (IsValue S μ) := by
  induction n using Node.induct generalizing level with
  | symbol name s =>
    unfold quote
    exact .pure (value_model hP (by decide) (.constant _))
  | literal l s =>
    unfold quote
    exact .pure (value_quotedLiteral hP l)
  | sequence d ns s ih =>
    have hitems := hP.part h
    have hquote : ∀ level, Emits S μ (do return quotedSequence d (← quoteItems lower level ns)) (IsValue S μ) := by
      intro level
      refine (emits_quoteItems hP hlower (fun n hn hnames level ↦ ih n hn level hnames) hitems).bind fun pieces hp ↦ ?_
      exact .pure (value_quotedSequence hP d hp)
    by_cases hmark : level = none ∨ ¬Template.IsMark d ns
    · rw [quote_of_not_mark hmark]
      exact hquote level
    · rw [not_or, not_not] at hmark
      obtain ⟨hlevel, head, hs, operand, rfl, rfl⟩ := hmark
      obtain ⟨level, rfl⟩ := Option.ne_none_iff_exists'.mp hlevel
      have hoperand : ∀ n ∈ [operand], P n := fun n hn ↦ hitems n (List.mem_cons_of_mem _ hn)
      simp only [quote]
      split
      · exact emits_value hlower (hoperand operand (by simp))
      split
      · exact emits_reject _ _
      · have hq : ∀ n ∈ [operand], P n → ∀ level, Emits S μ (quote lower level n) (IsValue S μ) :=
          fun n hn hnames level ↦ ih n (List.mem_cons_of_mem _ hn) level hnames
        refine (emits_quoteItems hP hlower hq hoperand).bind fun pieces hp ↦ .pure (value_quotedSequence hP _ ?_)
        exact List.forall_mem_cons.mpr ⟨value_model hP (by decide) (.constant _), hp⟩

end Shapes

theorem exists_of_cons_ok {a : α} {r : Except CompileError (List α)} {as : List α}
    (h : (do return a :: (← r)) = Except.ok as) : ∃ rest, r = .ok rest ∧ as = a :: rest := by
  cases r with
  | error e => cases h
  | ok rest =>
    cases h
    exact ⟨rest, rfl, rfl⟩

theorem isAlias_of_aliases {names : List Alias} (hpath : ∀ path s, .symbol path s ∈ args → S .module path)
    (hname : ∀ name ks s, [.literal (.keyword "as") ks, .symbol name s] <:+: args → S .asName name)
    (ha : aliases n args = .ok names) : ∀ a ∈ names, IsAlias S a := by
  induction args using aliases.induct generalizing names with
  | case1 =>
    cases ha
    simp
  | case2 path s t name rest hnone =>
    simp only [aliases, hnone] at ha
    cases ha
  | case3 path s t name rest as hsome ih =>
    obtain ⟨u, rfl⟩ := Node.exists_of_symbol? hsome
    simp only [aliases, hsome] at ha
    obtain ⟨names, hnames, rfl⟩ := exists_of_cons_ok ha
    have hrest : rest <:+ .symbol path s :: .literal (.keyword "as") t :: .symbol as u :: rest :=
      List.suffix_append [_, _, _] rest
    have has : S .asName as := hname as t u ⟨[.symbol path s], rest, rfl⟩
    have hfirst : IsAlias S ⟨Name.mangle path, some (Name.mangle as)⟩ :=
      ⟨⟨path, hpath path s List.mem_cons_self, rfl⟩, by simpa using ⟨as, has, rfl⟩⟩
    refine List.forall_mem_cons.mpr ⟨hfirst, ih (fun path s h ↦ hpath path s (hrest.subset h)) ?_ hnames⟩
    exact fun name ks s h ↦ hname name ks s (h.trans hrest.isInfix)
  | case4 path s rest hno ih =>
    have hrest : rest <:+ .symbol path s :: rest := List.suffix_cons _ _
    rw [aliases] at ha
    · obtain ⟨names, hnames, rfl⟩ := exists_of_cons_ok ha
      have hfirst : IsAlias S ⟨Name.mangle path, none⟩ := ⟨⟨path, hpath path s List.mem_cons_self, rfl⟩, by simp⟩
      refine List.forall_mem_cons.mpr ⟨hfirst, ih (fun path s h ↦ hpath path s (hrest.subset h)) ?_ hnames⟩
      exact fun name ks s h ↦ hname name ks s (h.trans hrest.isInfix)
    · exact hno
  | case5 other rest hother hno =>
    rw [aliases] at ha
    · cases ha
    · exact hother
    · exact hno

theorem isWhole_of_method? {head : String} (h : method? head = some name) : Name.IsWhole name := by
  unfold method? at h
  split at h
  · split at h
    · cases h
    · next c cs _ hdot =>
      cases h
      refine ⟨fun he ↦ List.cons_ne_nil _ _ (String.ofList_injective he), .inl ?_⟩
      simpa using hdot
  · cases h

section Forms

variable {lower : Node → LowerM (Option Expr)} (hP : Admits S P)
  (hlower : ∀ n, P n → Emits S μ (lower n) fun r ↦ ∀ e ∈ r, IsValue S μ e)

theorem emits_single {f : Node → LowerM α} {Q : α → Prop} (hf : ∀ n, P n → Emits S μ (f n) Q) (head : String)
    (n : Node) (h : ∀ n ∈ args, P n) : Emits S μ (single head n args f) Q := by
  unfold single
  split
  · exact hf _ (h _ (by simp))
  · exact emits_refuse head n _

include hP hlower

theorem emits_form (head : String) (n : Node) {s t : Span} (hform : P (.sequence .paren (.symbol head s :: args) t)) :
    Emits S μ (form lower head args n) fun r ↦ ∀ e ∈ r, IsValue S μ e := by
  obtain ⟨hhead, h⟩ := List.forall_mem_cons.mp (hP.part hform)
  have hunary : ∀ op : UnaryOp, Emits S μ (single head n args fun arg ↦ do return some (Expr.unary op (← value lower arg)))
      fun r ↦ ∀ e ∈ r, IsValue S μ e := by
    intro op
    refine emits_single (fun m hm ↦ ?_) head n h
    exact (emits_value hlower hm).bind fun e he ↦ .pure (by simpa using IsValue.unary op he)
  have hquote : ∀ level, Emits S μ (single head n args fun arg ↦ some <$> quote lower level arg)
      fun r ↦ ∀ e ∈ r, IsValue S μ e :=
    fun level ↦ emits_single (fun m hm ↦ emits_some (emits_quote hP hlower level hm)) head n h
  unfold form
  split
  · exact emits_some (emits_operator hlower head _ n h)
  · exact emits_some (emits_comparison hlower head _ n h)
  split
  · exact hunary _
  · exact hunary _
  · exact emits_some (emits_boolean hlower _ _ n h)
  · exact emits_some (emits_boolean hlower _ _ n h)
  · split
    · exact emits_some (emits_conditional hlower (h _ (by simp)) (h _ (by simp)) (by simp))
    · exact emits_some (emits_conditional hlower (h _ (by simp)) (h _ (by simp)) (by simpa using h _ (by simp)))
    · exact emits_refuse _ n _
  · exact emits_sequence hlower h
  · split
    · exact emits_refuse _ n _
    · exact (emits_assignments hP hlower n h).bind fun _ _ ↦ .pure (by simp)
  · refine (Emits.ofExcept (Q := fun names ↦ ∀ a ∈ names, IsAlias S a) fun names ↦ isAlias_of_aliases
      (fun path s hs ↦ hP.given hform (.module hs)) fun name ks s hs ↦ hP.given hform (.asName hs)).bind
      fun names hnames ↦ ?_
    cases names with
    | nil => exact emits_refuse _ n _
    | cons a names =>
      refine (Emits.emit (.imports (by simp) hnames) ?_).bind fun _ _ ↦ .pure (by simp)
      simp [Stmt.temporaries]
  · split
    · exact emits_refuse _ n _
    · next object rest =>
      have hmember : ∀ name s, .symbol name s ∈ rest → S .member name := fun name s hs ↦ hP.given hform (.member hs)
      refine (emits_value hlower (h object List.mem_cons_self)).bind fun e he ↦ ?_
      exact emits_some (emits_attributes n he hmember)
  · exact hquote _
  · exact hquote _
  · exact emits_reject n _
  · exact emits_reject n _
  · exact emits_reject n _
  · exact emits_reject n _
  · exact emits_reject n _
  · split
    · next name hname =>
      split
      · exact emits_refuse _ n _
      · next object rest =>
        obtain ⟨hobject, hrest⟩ := List.forall_mem_cons.mp h
        refine (emits_value hlower hobject).bind fun e he ↦ ?_
        exact emits_some (emits_call hP hlower (he.attr (hP.whole .member (isWhole_of_method? hname))) hrest)
    · refine (Emits.ofExcept (Q := IsValue S μ) fun e he ↦ value_symbol hP hhead he).bind fun func hfunc ↦ ?_
      exact emits_some (emits_call hP hlower hfunc h)

theorem emits_expanded (h : P n) : Emits S μ (expanded lower n) fun r ↦ ∀ e ∈ r, IsValue S μ e := by
  unfold expanded
  split
  · exact .pure (by simpa using value_literal hP _)
  · next name s => exact emits_some (.ofExcept fun e he ↦ value_symbol hP h he)
  · exact (emits_values hlower (hP.part h)).bind fun es hes ↦ .pure (by simpa using IsValue.list hes)
  · exact emits_some (emits_dictionary hlower _ (hP.part h))
  · exact .pure (by simpa using IsValue.tuple (by simp))
  · next head s args t => exact emits_form hP hlower head _ h
  · next func args s _ =>
    obtain ⟨hfunc, hargs⟩ := List.forall_mem_cons.mp (hP.part h)
    exact (emits_value hlower hfunc).bind fun f hf ↦ emits_some (emits_call hP hlower hf hargs)

end Forms

end Lowering

open Host (Role)
open Lowering (Admits Emits IsValue IsStatement temporary)

namespace Compiler

variable {c : Compiler} {μ : String → String} {n : Node} {ns : List Node}

/-- Expansion comes to nothing but nodes of the same class. -/
def Keeps (S : Role → String → Prop) (P : Node → Prop) (μ : String → String) (c : Compiler) : Prop :=
  ∀ fuel n, P n → Emits S μ (c.expand fuel n) fun e ↦ P e.node

section Admits

variable {S : Role → String → Prop} {P : Node → Prop} (hP : Admits S P) (hc : c.Keeps S P μ)

include hP hc

theorem emits_lower (fuel : ℕ) (expands : Bool) (h : P n) :
    Emits S μ (c.lower fuel expands n) fun r ↦ ∀ e ∈ r, IsValue S μ e := by
  induction fuel generalizing expands n with
  | zero => exact .unfinished
  | succ fuel ih =>
    cases expands with
    | false => exact Lowering.emits_expanded hP (fun _ ↦ ih false) h
    | true => exact (hc fuel n h).bind fun e he ↦ Lowering.emits_expanded hP (fun _ ↦ ih _) he

theorem emits_statements (fuel : ℕ) (h : ∀ n ∈ ns, P n) : Emits S μ (c.statements fuel ns) fun _ ↦ True := by
  induction ns with
  | nil => exact .pure trivial
  | cons n ns ih =>
    obtain ⟨hn, hns⟩ := List.forall_mem_cons.mp h
    refine (emits_lower hP hc fuel true hn).bind fun r hr ↦ ?_
    cases r with
    | none => exact ih hns
    | some e => exact (Lowering.emits_expr (hr e rfl)).bind fun _ _ ↦ ih hns

theorem emits_module_of_admits {fuel : ℕ} {withLibrary : Bool} {forms : List Node} {w w' : World} {m : Host.Module}
    {log : List Host.Stmt} (hw : w.names.mangle = μ) (h : ∀ n ∈ forms, P n)
    (hm : c.module fuel withLibrary forms w = some ⟨.ok m, log, w'⟩) :
    (∀ s ∈ m.body, IsStatement S μ s) ∧
      ∃ ks : List ℕ, Host.Stmt.temporariesOfAll m.body = ks.map (temporary μ) ∧ ks.Nodup := by
  obtain ⟨⟨_, body⟩, log, w₁, log', hcollect, hpure, rfl⟩ := Process.bind_eq_ok hm
  obtain ⟨hbody, rfl⟩ := Process.collect_eq_ok hcollect
  cases hpure
  obtain ⟨-, hstmts, -, ks, hks, hbetween⟩ := emits_statements hP hc fuel h w _ _ _ hw hbody
  have hlibrary : IsStatement S μ libraryImport := by
    have hy : Name.isIdentifier "hy" = true := by decide
    have hmangle : "hy" = Name.mangle "hy" := (Name.mangle_of_isIdentifier hy).symm
    have hmodule : S .module "hy" := hP.whole .module (Name.isWhole_of_isIdentifier hy)
    exact .imports (by simp) (by simpa using ⟨⟨"hy", hmodule, hmangle⟩, by simp⟩)
  cases withLibrary with
  | false => exact ⟨hstmts, ks, hks, hbetween.nodup⟩
  | true =>
    refine ⟨List.forall_mem_cons.mpr ⟨hlibrary, hstmts⟩, ks, ?_, hbetween.nodup⟩
    simpa [libraryImport, Host.Stmt.temporariesOfAll, Host.Stmt.temporaries] using hks

end Admits

section Names

variable {S : String → Prop}

abbrev KeepsNames (S : String → Prop) (μ : String → String) (c : Compiler) : Prop :=
  c.Keeps (Lowering.ofNames S) (Node.AllNames S) μ

theorem emits_module (hS : ∀ name, name ≠ "" → S name) (hc : c.KeepsNames S μ) {fuel : ℕ} {withLibrary : Bool}
    {forms : List Node} {w w' : World} {m : Host.Module} {log : List Host.Stmt} (hw : w.names.mangle = μ)
    (h : ∀ n ∈ forms, n.AllNames S) (hm : c.module fuel withLibrary forms w = some ⟨.ok m, log, w'⟩) :
    (∀ s ∈ m.body, IsStatement (Lowering.ofNames S) μ s) ∧
      ∃ ks : List ℕ, Host.Stmt.temporariesOfAll m.body = ks.map (temporary μ) ∧ ks.Nodup :=
  emits_module_of_admits (Lowering.admits_allNames hS) hc hw h hm

end Names

end Compiler

end MacroLisp
