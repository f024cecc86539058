import MacroLisp.Proofs.Expansion.Answers
import MacroLisp.Proofs.Node.Replacement

namespace MacroLisp

variable {ω α β γ δ : Type} {f : α → β} {g : γ → δ} {σ : List (String × Node)}

/-- The actions draw the same symbols, whatever generated names these get. The second comes to what `f` makes of the result
of the first, or both give up. -/
inductive Action.Mapped (f : α → β) : Action α → Action β → Prop
  | done (a : α) : Mapped f (.done a) (.done (f a))
  | refuse (text : String) : Mapped f (.refuse text) (.refuse text)
  | fresh (hint : String) {next : Node → Action α} {next' : Node → Action β}
      (h : ∀ name, NameSupply.isReserved name = true →
        Mapped f (next (.symbol name .nowhere)) (next' (.symbol name .nowhere))) :
      Mapped f (.fresh hint next) (.fresh hint next')

namespace Action.Mapped

variable {a : Action α} {b : Action β}

theorem bind (h : Mapped f a b) {k : α → Action γ} {k' : β → Action δ} (hk : ∀ x, Mapped g (k x) (k' (f x))) :
    Mapped g (a >>= k) (b >>= k') := by
  induction h with
  | done x => exact hk x
  | refuse text => exact .refuse text
  | fresh hint _ ih => exact .fresh hint ih

theorem run_return (h : Mapped f a b) (k : α → γ) (k' : β → δ) (w : World) :
    ∃ (r : Except Failure α) (w' : World), ∀ nested : Bool → Node → Process ω ExpansionError Node,
      Action.run nested (do return k (← a)) w = some ⟨r.map k, [], w'⟩ ∧
        Action.run nested (do return k' (← b)) w = some ⟨(r.map f).map k', [], w'⟩ := by
  induction h generalizing w with
  | done x => exact ⟨.ok x, w, fun nested ↦ ⟨rfl, rfl⟩⟩
  | refuse text => exact ⟨.error (.message text), w, fun nested ↦ ⟨rfl, rfl⟩⟩
  | @fresh hint next next' _ ih =>
    obtain ⟨r, w', hrun⟩ := ih _ (w.names.isReserved_fresh hint) { w with names := (w.names.fresh hint).2 }
    refine ⟨r, w', fun nested ↦ ?_⟩
    obtain ⟨ha, hb⟩ := hrun nested
    constructor
    · change Action.run nested (.fresh hint fun name ↦ do return k (← next name)) w = _
      rw [Action.run, Process.bind_of_ok (Process.gensym_apply hint w), ha]
      rfl
    · change Action.run nested (.fresh hint fun name ↦ do return k' (← next' name)) w = _
      rw [Action.run, Process.bind_of_ok (Process.gensym_apply hint w), hb]
      rfl

end Action.Mapped

def Scope.replace (σ : List (String × Node)) (scope : Scope) : Scope := scope.map fun p ↦ (p.1, p.2.replace σ)

theorem Scope.lookup_replace (σ : List (String × Node)) (scope : Scope) (name : String) :
    List.lookup name (scope.replace σ) = (List.lookup name scope).map (Node.replace σ) := by
  induction scope with
  | nil => rfl
  | cons p scope ih =>
    rw [replace, List.map_cons, List.lookup_cons, List.lookup_cons, ← replace, ih]
    cases name == p.1 <;> rfl

namespace Template

variable {scope : Scope} {n : Node} {ns : List Node} {d : Delimiter} {s : Span} {level : ℕ}

/-- A part of a body in which nothing is replaced and nothing is spliced. -/
structure Rigid (σ : List (String × Node)) (n : Node) : Prop where
  names : n.AllNames fun name ↦ σ.lookup name = none
  splices : ∀ m ∈ n.subnodes, m.isCallTo "unquote-splice" = false

theorem Rigid.of_mem (h : Rigid σ (.sequence d ns s)) (hn : n ∈ ns) : Rigid σ n := by
  refine ⟨Node.allNames_sequence.mp h.names n hn, fun m hm ↦ h.splices m ?_⟩
  rw [Node.subnodes]
  exact List.mem_cons_of_mem _ (Node.mem_subnodesAll.mpr ⟨n, hn, hm⟩)

theorem Rigid.mapped_pure (h : Rigid σ n) : Action.Mapped (Node.replace σ) (pure n) (pure n) := by
  have hdone := Action.Mapped.done (f := Node.replace σ) n
  rwa [Node.replace_eq_self h.names] at hdone

theorem mapped_bindFresh (hσ : ∀ name, NameSupply.isReserved name = true → σ.lookup name = none) (scope : Scope)
    (names : List Node) : Action.Mapped (Scope.replace σ) (bindFresh scope names) (bindFresh (scope.replace σ) names) := by
  induction names generalizing scope with
  | nil => exact .done scope
  | cons n names ih =>
    cases n with
    | symbol name s =>
      refine .fresh name fun fresh hfresh ↦ ?_
      have hkeep : (Node.symbol fresh .nowhere).replace σ = .symbol fresh .nowhere :=
        Node.replace_eq_self (Node.allNames_symbol.mpr (hσ fresh hfresh))
      have hnext := ih ((name, .symbol fresh .nowhere) :: scope)
      rwa [Scope.replace, List.map_cons, hkeep] at hnext
    | literal value s => exact .refuse _
    | sequence d items s => exact .refuse _

def EvalMapped (σ : List (String × Node)) (n : Node) : Prop :=
  Rigid σ n → ∀ scope, Action.Mapped (Node.replace σ) (eval scope n) (eval (scope.replace σ) n)

def FillMapped (σ : List (String × Node)) (n : Node) : Prop :=
  Rigid σ n → ∀ scope level, Action.Mapped (Node.replace σ) (fill scope level n) (fill (scope.replace σ) level n)

theorem evalMapped_symbol (name : String) (s : Span) : EvalMapped σ (.symbol name s) := by
  intro _ scope
  rw [eval, eval, Scope.lookup_replace]
  cases List.lookup name scope with
  | none => exact .refuse _
  | some m => exact .done m

theorem evalMapped_sequence (hσ : ∀ name, NameSupply.isReserved name = true → σ.lookup name = none)
    (he : ∀ n ∈ ns, EvalMapped σ n) (hf : ∀ n ∈ ns, FillMapped σ n) : EvalMapped σ (.sequence d ns s) := by
  intro h scope
  unfold eval
  split
  · next heq => cases heq
  · next heq =>
    cases heq
    exact (h.of_mem (by simp)).mapped_pure
  · next heq =>
    cases heq
    exact hf _ (by simp) (h.of_mem (by simp)) scope 1
  · next names body _ heq =>
    cases heq
    split
    · exact (mapped_bindFresh hσ scope _).bind fun scope ↦ he body (by simp) (h.of_mem (by simp)) scope
    · exact .refuse _
  · exact .refuse _
  · exact h.mapped_pure

theorem mapped_fillItems (hf : ∀ n ∈ ns, FillMapped σ n) (h : ∀ n ∈ ns, Rigid σ n) (scope : Scope) (level : ℕ) :
    Action.Mapped (List.map (Node.replace σ)) (fillItems scope level ns) (fillItems (scope.replace σ) level ns) := by
  induction ns with
  | nil =>
    unfold fillItems
    exact .done []
  | cons n ns ih =>
    obtain ⟨hfn, hfns⟩ := List.forall_mem_cons.mp hf
    obtain ⟨hn, hns⟩ := List.forall_mem_cons.mp h
    have hsplice := hn.splices n n.self_mem_subnodes
    unfold fillItems
    split
    · next heq => cases heq
    · next heq =>
      cases heq
      simp [Node.isCallTo, Node.head?] at hsplice
    · next heq =>
      cases heq
      simp [Node.isCallTo, Node.head?] at hsplice
    · next heq =>
      cases heq
      exact (hfn hn scope _).bind fun m ↦ (ih hfns hns).bind fun ms ↦ .done (m :: ms)

theorem fillMapped_sequence (hf : ∀ n ∈ ns, FillMapped σ n) (he : ∀ n ∈ ns, EvalMapped σ n) :
    FillMapped σ (.sequence d ns s) := by
  intro h scope level
  have hmark : ∀ head operand level', ns = [head, operand] →
      Action.Mapped (Node.replace σ) (do return Node.form [head, ← fill scope level' operand] s)
        (do return Node.form [head, ← fill (scope.replace σ) level' operand] s) := by
    rintro head operand level' rfl
    refine (hf operand (by simp) (h.of_mem (by simp)) scope level').bind fun m ↦ ?_
    have hdone := Action.Mapped.done (f := Node.replace σ) (.form [head, m] s)
    have hhead := Node.replace_eq_self (h.of_mem (n := head) (by simp)).names
    rwa [Node.replace_form, List.map_cons, hhead] at hdone
  unfold fill
  split
  · split
    · exact he _ (by simp) (h.of_mem (by simp)) scope
    · exact hmark _ _ _ rfl
  · split
    · exact .refuse _
    · exact hmark _ _ _ rfl
  · exact hmark _ _ _ rfl
  · refine (mapped_fillItems hf (fun n ↦ h.of_mem) scope level).bind fun ms ↦ ?_
    rw [← Node.replace_sequence]
    exact .done _

theorem evalMapped (hσ : ∀ name, NameSupply.isReserved name = true → σ.lookup name = none) (n : Node) : EvalMapped σ n := by
  refine (induct_eval_fill evalMapped_symbol (fun value s h scope ↦ ?_) (fun n hn h scope level ↦ ?_)
    (fun _ _ _ ↦ evalMapped_sequence hσ) (fun _ _ _ hf he _ ↦ fillMapped_sequence hf he) n).1
  · unfold eval
    exact h.mapped_pure
  · rw [fill_of_leaf hn, fill_of_leaf hn]
    exact h.mapped_pure

theorem bind_replace (p : Params) (args : List Node) (s : Span) :
    p.bind (args.map (Node.replace σ)) s = Scope.replace σ (p.bind args s) := by
  simp [Params.bind, Scope.replace, List.zip_map_right, List.map_reverse, Function.comp_def, Prod.map]

/-- Let symbols of different names stand for the arguments of a template macro, which neither the body of the template nor
any generator brings, and let the body have no splices. Called with the symbols, the macro succeeds or fails as it does when it
is called with the arguments at the same place and from the same world. What it makes of the arguments is what it makes of
the symbols, with the arguments in their place, whatever is in them; it fails with the same message, and leaves the same
world. -/
theorem arguments_unread (t : Template) (hsplice : ∀ m ∈ t.body.subnodes, m.isCallTo "unquote-splice" = false)
    {symbols : List (String × Span)} {args : List Node} (hlength : symbols.length = args.length)
    (hnodup : (symbols.map Prod.fst).Nodup)
    (hnew : ∀ p ∈ symbols, ¬t.body.Mentions p.1 ∧ NameSupply.isReserved p.1 = false) (module : String)
    {call call' : Node} (hspan : call.span = call'.span) (w : World) :
    ∃ (r : Except Failure Node) (w' : World), ∀ nested : Bool → Node → Process ω ExpansionError Node,
      (t.expander ⟨module, call, symbols.map fun p ↦ .symbol p.1 p.2⟩).run nested w = some ⟨r.map .form, [], w'⟩ ∧
      (t.expander ⟨module, call', args⟩).run nested w =
        some ⟨(r.map (Node.replace ((symbols.map Prod.fst).zip args))).map .form, [], w'⟩ := by
  generalize hσ : (symbols.map Prod.fst).zip args = σ
  have hargs : args = (symbols.map fun p ↦ Node.symbol p.1 p.2).map (Node.replace σ) := by
    rw [List.map_map, ← hσ]
    exact (Node.map_replace_symbols hnodup hlength).symm
  have hkeys : ∀ name, (∀ p ∈ symbols, p.1 ≠ name) → σ.lookup name = none := by
    intro name hname
    refine List.lookup_eq_none_iff.mpr fun p hp ↦ ?_
    rw [← hσ] at hp
    obtain ⟨q, hq, hkey⟩ := List.mem_map.mp (List.of_mem_zip hp).1
    exact bne_iff_ne.mpr fun he ↦ hname q hq (hkey.trans he.symm)
  have hbody : Rigid σ t.body :=
    ⟨fun name hm ↦ hkeys name fun p hp he ↦ (hnew p hp).1 (he ▸ hm), hsplice⟩
  have hreserved : ∀ name, NameSupply.isReserved name = true → σ.lookup name = none := by
    refine fun name hname ↦ hkeys name fun p hp he ↦ ?_
    have hplain := (hnew p hp).2
    rw [he, hname] at hplain
    cases hplain
  unfold expander
  dsimp only
  rw [List.length_map, hlength]
  split
  · have hmapped := evalMapped hreserved t.body hbody
      (t.params.bind (symbols.map fun p ↦ .symbol p.1 p.2) call.span)
    rw [← bind_replace, ← hargs] at hmapped
    rw [← hspan]
    exact hmapped.run_return MacroOutput.form MacroOutput.form w
  · exact ⟨.error (.message _), w, fun nested ↦ ⟨rfl, rfl⟩⟩

/-- Binds its first argument to a fresh name, and keeps it once more as a hole of a template. -/
def bindOnce : Template where
  params := ⟨["x"], some "more"⟩
  body := .form [.symbol "with-gensyms" .nowhere, .sequence .bracket [.symbol "g" .nowhere] .nowhere,
    .form [.symbol "quasiquote" .nowhere, .form [.symbol "let" .nowhere,
      .sequence .bracket [.form [.symbol "unquote" .nowhere, .symbol "g" .nowhere] .nowhere,
        .form [.symbol "unquote" .nowhere, .symbol "x" .nowhere] .nowhere] .nowhere,
      .form [.symbol "quasiquote" .nowhere, .form [.symbol "unquote" .nowhere,
        .form [.symbol "unquote" .nowhere, .symbol "x" .nowhere] .nowhere] .nowhere] .nowhere,
      .form [.symbol "unquote" .nowhere, .symbol "more" .nowhere] .nowhere] .nowhere] .nowhere] .nowhere
  doc := none

theorem bindOnce_keeps_template_syntax :
    let w : World := ⟨.new Name.mangle, none⟩
    let call : Node := .form [] .nowhere
    let symbols : List (String × Span) := [("first", .nowhere), ("second", .nowhere)]
    let args : List Node := [.form [.symbol "unquote-splice" .nowhere, .symbol "x" .nowhere] .nowhere,
      .form [.symbol "quasiquote" .nowhere, .form [.symbol "unquote" .nowhere, .symbol "g" .nowhere] .nowhere] .nowhere]
    (∀ m ∈ bindOnce.body.subnodes, m.isCallTo "unquote-splice" = false) ∧ symbols.length = args.length ∧
    (symbols.map Prod.fst).Nodup ∧
    (∀ p ∈ symbols, ¬bindOnce.body.Mentions p.1 ∧ NameSupply.isReserved p.1 = false) ∧
    ∃ (n : Node) (w' : World), ∀ nested : Bool → Node → Process Unit ExpansionError Node,
      (bindOnce.expander ⟨"__main__", call, symbols.map fun p ↦ .symbol p.1 p.2⟩).run nested w =
        some ⟨.ok (.form n), [], w'⟩ ∧
      (bindOnce.expander ⟨"__main__", call, args⟩).run nested w =
        some ⟨.ok (.form (n.replace ((symbols.map Prod.fst).zip args))), [], w'⟩ := by
  intro w call symbols args
  have hsplice : ∀ m ∈ bindOnce.body.subnodes, m.isCallTo "unquote-splice" = false := by decide
  have hnew : ∀ p ∈ symbols, ¬bindOnce.body.Mentions p.1 ∧ NameSupply.isReserved p.1 = false := by
    have hplain : NameSupply.isReserved "first" = false ∧ NameSupply.isReserved "second" = false := by decide +kernel
    simpa [symbols, bindOnce] using hplain
  obtain ⟨r, w', hrun⟩ := @arguments_unread Unit bindOnce hsplice symbols args rfl (by decide) hnew "__main__" call call
    rfl w
  refine ⟨hsplice, rfl, by decide, hnew, ?_⟩
  let unasked : Bool → Node → Process Unit ExpansionError Node := fun _ _ _ ↦ none
  have hok : ((bindOnce.expander ⟨"__main__", call, args⟩).run unasked w).map (·.result.isOk) = some true := by
    decide +kernel
  cases r with
  | ok n => exact ⟨n, w', hrun⟩
  | error e =>
    rw [(hrun unasked).2] at hok
    cases hok

end Template

end MacroLisp
