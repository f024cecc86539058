import MacroLisp.Proofs.Lowering.Order
import MacroLisp.Proofs.Lowering.Preservation
import MacroLisp.Proofs.Lowering.Quotation

namespace MacroLisp.Lowering

open Host (Expr Stmt UnaryOp BinaryOp CompareOp Effects)
open Term (ofNode? ofNodes? ofArguments? ofAssignments? ofOperator? ofComparison? ofUnary? hoisted hoistedAll hoistedTo rest
  combine combineAll kind)

/-- The statements and the expression do what is hoisted of the term and what is left of it. -/
def Means (t : Term) (stmts : List Stmt) (e : Expr) : Prop :=
  ∀ (M : Type → Type) [Monad M] [LawfulMonad M] (V : Type) (S : Effects M V),
    S.execAll stmts = hoisted S t ∧ S.eval e = rest S t

inductive MeanAll : List Term → List Stmt → List Expr → Prop
  | nil : MeanAll [] [] []
  | cons {t : Term} {ts : List Term} {ss ss' : List Stmt} {e : Expr} {es : List Expr} (h : Means t ss e)
    (hs : MeanAll ts ss' es) : MeanAll (t :: ts) (ss ++ ss') (e :: es)

section Effects

variable {M : Type → Type} {V : Type} [Monad M] [LawfulMonad M] (S : Effects M V) {ts : List Term} {stmts : List Stmt}
  {es : List Expr}

theorem MeanAll.hoisted_eq (h : MeanAll ts stmts es) : S.execAll stmts = hoistedAll S ts := by
  induction h with
  | nil => rfl
  | cons h _ ih => rw [Effects.execAll_append, (h M V S).1, ih, hoistedAll]

theorem MeanAll.rest_eq (h : MeanAll ts stmts es) : es.map S.eval = ts.map (rest S) := by
  induction h with
  | nil => rfl
  | cons h _ ih => rw [List.map_cons, List.map_cons, (h M V S).2, ih]

theorem eval_foldl {op : BinaryOp} (hop : op ≠ .pow) (e : Expr) (es : List Expr) :
    S.eval (es.foldl (fun l r ↦ .binary l op r) e) = (do
      let v ← S.eval e
      let ws ← (es.map S.eval).mapM id
      return combine S op v ws) := by
  induction es generalizing e with
  | nil => simp [combine]
  | cons e' es ih =>
    rw [List.foldl_cons, ih]
    simp [Effects.eval, combine, hop]

theorem eval_group (op : BinaryOp) (e : Expr) (es : List Expr) : S.eval (group op e es) = (do
    let v ← S.eval e
    let ws ← (es.map S.eval).mapM id
    return combine S op v ws) := by
  by_cases hop : op = .pow
  · subst hop
    induction es generalizing e with
    | nil =>
      change S.eval e = _
      simp [combine]
    | cons e' es ih =>
      rw [group_pow_cons, Effects.eval, ih]
      simp [combine]
  · rw [group_of_ne_pow hop, eval_foldl S hop]

end Effects

section Parts

variable {lower : Node → LowerM (Option Expr)} {n : Node} {ns args : List Node} {e f : Expr} {es : List Expr}
  {stmts ss : List Stmt} {head : String}

/-- What a form is lowered to means a term that the form stands for. -/
def IsRead (lower : Node → LowerM (Option Expr)) (n : Node) : Prop :=
  ∀ r stmts, Lowers (lower n) r stmts → ∃ t, ofNode? n = some t ∧ Means t stmts (r.getD .none)

theorem IsRead.value (h : IsRead lower n) (hl : Lowers (value lower n) e stmts) : ∃ t, ofNode? n = some t ∧ Means t stmts e := by
  obtain ⟨r, ss, ss', hr, hp, rfl⟩ := hl.of_bind
  obtain ⟨rfl, rfl⟩ := hp.of_pure
  rw [List.append_nil]
  exact h r ss hr

theorem meanAll_of_values (h : ∀ n ∈ ns, IsRead lower n) (hl : Lowers (values lower ns) es stmts) :
    ∃ ts, ofNodes? ns = some ts ∧ MeanAll ts stmts es := by
  induction ns generalizing es stmts with
  | nil =>
    obtain ⟨rfl, rfl⟩ := hl.of_pure
    exact ⟨[], rfl, .nil⟩
  | cons n ns ih =>
    obtain ⟨hn, hns⟩ := List.forall_mem_cons.mp h
    obtain ⟨e, es', ss, ss', he, hes, rfl, rfl⟩ := hl.of_values_cons
    obtain ⟨t, ht, hmean⟩ := hn.value he
    obtain ⟨ts, hts, hmeans⟩ := ih hns hes
    exact ⟨t :: ts, by simp [ofNodes?, ht, hts], .cons hmean hmeans⟩

theorem means_leaf (e : Expr) : Means (.leaf e) [] e := fun _ _ _ _ _ ↦ ⟨rfl, rfl⟩

theorem Means.unary {t : Term} (h : Means t stmts e) (op : UnaryOp) : Means (.unary op t) stmts (.unary op e) := by
  intro M _ _ V S
  exact ⟨(h M V S).1, by rw [Effects.eval, (h M V S).2, Term.rest]⟩

theorem Means.member {t : Term} (h : Means t stmts e) (name : String) : Means (.member t name) stmts (e.attr name) := by
  intro M _ _ V S
  exact ⟨(h M V S).1, by rw [Expr.attr, Effects.eval, (h M V S).2, rest]⟩

theorem MeanAll.operator {t : Term} {ts : List Term} (op : BinaryOp) (h : MeanAll (t :: ts) stmts (e :: es)) :
    Means (.operator op (t :: ts)) stmts (group op e es) := by
  intro M _ _ V S
  have hrest := h.rest_eq S
  rw [List.map_cons, List.map_cons, List.cons.injEq] at hrest
  refine ⟨h.hoisted_eq S, ?_⟩
  rw [eval_group, hrest.1, hrest.2, Term.rest]
  simp [combineAll]

theorem means_of_operation {ts : List Term} {op : BinaryOp} (h : MeanAll ts stmts es) (ho : operation head op n es = .ok e) :
    ∃ t, ofOperator? op ts = some t ∧ Means t stmts e := by
  cases h with
  | nil => cases op <;> cases ho <;> exact ⟨_, rfl, means_leaf _⟩
  | cons h hs =>
    cases hs with
    | nil =>
      rw [List.append_nil]
      cases op <;> cases ho
      · exact ⟨_, rfl, h.unary .plus⟩
      · exact ⟨_, rfl, h.unary .minus⟩
      · exact ⟨_, rfl, h⟩
      · have hboth := MeanAll.operator .div (.cons (means_leaf (.int 1)) (.cons h .nil))
        rw [List.nil_append, List.append_nil] at hboth
        exact ⟨_, rfl, hboth⟩
    | cons h' hs =>
      cases ho
      exact ⟨_, rfl, MeanAll.operator op (.cons h (.cons h' hs))⟩

theorem means_of_operator {op : BinaryOp} (h : ∀ n ∈ args, IsRead lower n) (hl : Lowers (operator lower head op args n) e stmts) :
    ∃ t, (ofNodes? args).bind (ofOperator? op) = some t ∧ Means t stmts e := by
  obtain ⟨es, ss, _, hes, ho, rfl⟩ := hl.of_bind
  obtain ⟨hoperation, rfl⟩ := ho.of_ofExcept
  obtain ⟨ts, hts, hmeans⟩ := meanAll_of_values h hes
  rw [hts, List.append_nil]
  exact means_of_operation hmeans hoperation

theorem means_of_comparison {op : CompareOp} (h : ∀ n ∈ args, IsRead lower n)
    (hl : Lowers (comparison lower head op args n) e stmts) :
    ∃ t, (ofNodes? args).bind (ofComparison? op) = some t ∧ Means t stmts e := by
  obtain ⟨es, ss, ss', hes, hc, rfl⟩ := hl.of_bind
  obtain ⟨ts, hts, hmeans⟩ := meanAll_of_values h hes
  rw [hts]
  cases hmeans with
  | nil => exact absurd hc not_lowers_throw
  | cons h hs =>
    cases hs with
    | nil =>
      obtain ⟨_, ss, ss', hemit, hr, rfl⟩ := hc.of_bind
      obtain rfl := hemit.of_emit
      obtain ⟨rfl, rfl⟩ := hr.of_pure
      refine ⟨_, rfl, fun M _ _ V S ↦ ⟨?_, rfl⟩⟩
      rw [List.append_nil, List.append_nil, Effects.execAll_expr, (h M V S).1, (h M V S).2, hoisted]
    | cons h' hs =>
      obtain ⟨rfl, rfl⟩ := hc.of_pure
      refine ⟨_, rfl, fun M _ _ V S ↦ ?_⟩
      have hothers := (MeanAll.cons h' hs).rest_eq S
      have hlength := congrArg List.length hothers
      rw [List.length_map, List.length_map] at hlength
      refine ⟨?_, ?_⟩
      · rw [List.append_nil, Effects.execAll_append, (h M V S).1, (MeanAll.cons h' hs).hoisted_eq S, hoisted]
      · rw [Effects.eval, Effects.evals_eq_map, (h M V S).2, hothers, rest, Term.rests_eq_map, List.map_const', hlength,
          List.map_const']

theorem meanAll_of_keyValues {p : List Expr × List Expr} (h : ∀ n ∈ ns, IsRead lower n) (heven : ns.length % 2 = 0)
    (hl : Lowers (keyValues lower ns) p stmts) :
    ∃ ts, ofNodes? ns = some ts ∧ MeanAll ts stmts (Host.interleave p.1 p.2) := by
  induction ns using List.twoStepInduction generalizing p stmts with
  | nil =>
    obtain ⟨rfl, rfl⟩ := hl.of_pure
    exact ⟨[], rfl, .nil⟩
  | singleton k => simp at heven
  | cons_cons k v ns ih _ =>
    obtain ⟨hk, hrest⟩ := List.forall_mem_cons.mp h
    obtain ⟨hv, hns⟩ := List.forall_mem_cons.mp hrest
    obtain ⟨e, ss, _, he, hl₁, rfl⟩ := hl.of_bind
    obtain ⟨e', ss', _, he', hl₂, rfl⟩ := hl₁.of_bind
    obtain ⟨⟨ks, vs⟩, ss'', _, hkvs, hp, rfl⟩ := hl₂.of_bind
    obtain ⟨rfl, rfl⟩ := hp.of_pure
    obtain ⟨t, ht, hmean⟩ := hk.value he
    obtain ⟨t', ht', hmean'⟩ := hv.value he'
    obtain ⟨ts, hts, hmeans⟩ := ih hns (by rw [List.length_cons, List.length_cons] at heven; omega) hkvs
    refine ⟨t :: t' :: ts, by simp [ofNodes?, ht, ht', hts], ?_⟩
    rw [List.append_nil]
    exact .cons hmean (.cons hmean' hmeans)

theorem means_of_dictionary (h : ∀ n ∈ ns, IsRead lower n) (hl : Lowers (dictionary lower ns n) e stmts) :
    ∃ ts, ns.length % 2 = 0 ∧ ofNodes? ns = some ts ∧ Means (.dict ts) stmts e := by
  unfold dictionary at hl
  split at hl
  · exact absurd hl not_lowers_throw
  · next heven =>
    rw [not_not] at heven
    obtain ⟨⟨ks, vs⟩, ss, _, hkvs, hp, rfl⟩ := hl.of_bind
    obtain ⟨rfl, rfl⟩ := hp.of_pure
    obtain ⟨ts, hts, hmeans⟩ := meanAll_of_keyValues h heven hkvs
    refine ⟨ts, heven, hts, fun M _ _ V S ↦ ⟨?_, ?_⟩⟩
    · rw [List.append_nil, hmeans.hoisted_eq S, hoisted]
    · rw [Effects.eval, Effects.evals_eq_map, Effects.evals_eq_map, Host.interleave_map, hmeans.rest_eq S, rest,
        Term.rests_eq_map]

theorem meanAll_cons_argument {v : Node} {p : List Expr × List (String × Expr)} (key : Option String)
    {push : Expr → List Expr × List (String × Expr) → List Expr × List (String × Expr)}
    (hpush : ∀ e keys es, distribute (key :: keys) (e :: es) = push e (distribute keys es)) (hv : IsRead lower v)
    (hrest : ∀ q ss, Lowers (arguments lower ns) q ss →
      ∃ keys ts es, ofArguments? ns = some (keys, ts) ∧ MeanAll ts ss es ∧ distribute keys es = q)
    (hl : Lowers (do return push (← value lower v) (← arguments lower ns)) p stmts) :
    ∃ t keys ts es, ofNode? v = some t ∧ ofArguments? ns = some (keys, ts) ∧ MeanAll (t :: ts) stmts es ∧
      distribute (key :: keys) es = p := by
  obtain ⟨e, ss, _, he, hl', rfl⟩ := hl.of_bind
  obtain ⟨q, ss', _, hq, hp, rfl⟩ := hl'.of_bind
  obtain ⟨rfl, rfl⟩ := hp.of_pure
  obtain ⟨t, ht, hmean⟩ := hv.value he
  obtain ⟨keys, ts, es, hts, hmeans, rfl⟩ := hrest q ss' hq
  rw [List.append_nil]
  exact ⟨t, keys, ts, e :: es, ht, hts, .cons hmean hmeans, hpush e keys es⟩

theorem meanAll_of_arguments (h : ∀ n ∈ ns, IsRead lower n) : ∀ p stmts, Lowers (arguments lower ns) p stmts →
    ∃ keys ts es, ofArguments? ns = some (keys, ts) ∧ MeanAll ts stmts es ∧ distribute keys es = p := by
  induction ns using arguments.induct with
  | case1 =>
    intro p stmts hl
    obtain ⟨rfl, rfl⟩ := hl.of_pure
    exact ⟨[], [], [], rfl, .nil, rfl⟩
  | case2 k s => exact fun _ _ hl ↦ absurd hl not_lowers_throw
  | case3 k s v rest ih =>
    intro p stmts hl
    obtain ⟨hv, hrest⟩ := List.forall_mem_cons.mp (List.forall_mem_cons.mp h).2
    obtain ⟨t, keys, ts, es, ht, hts, hmeans⟩ :=
      meanAll_cons_argument (some (Name.mangle k)) (fun _ _ _ ↦ rfl) hv (ih hrest) hl
    exact ⟨_, t :: ts, es, by simp [ofArguments?, ht, hts], hmeans⟩
  | case4 n rest hkeyword hunpack =>
    intro p stmts hl
    rw [arguments, if_pos hunpack] at hl
    · exact absurd hl not_lowers_throw
    · exact hkeyword
  | case5 n rest hkeyword hunpack ih =>
    intro p stmts hl
    obtain ⟨hn, hrest⟩ := List.forall_mem_cons.mp h
    rw [arguments, if_neg hunpack] at hl
    · obtain ⟨t, keys, ts, es, ht, hts, hmeans⟩ :=
        meanAll_cons_argument none (fun _ _ _ ↦ rfl) hn (ih hrest) hl
      refine ⟨none :: keys, t :: ts, es, ?_, hmeans⟩
      rw [ofArguments?]
      · simp [ht, hts]
      · exact hkeyword
    · exact hkeyword

theorem means_of_call {t : Term} (hf : Means t ss f) (h : ∀ n ∈ ns, IsRead lower n) (hl : Lowers (call lower f ns) e stmts) :
    ∃ keys ts, ofArguments? ns = some (keys, ts) ∧ Means (.call t keys ts) (ss ++ stmts) e := by
  obtain ⟨⟨es, ks⟩, ss', _, hes, hp, rfl⟩ := hl.of_bind
  obtain ⟨rfl, rfl⟩ := hp.of_pure
  obtain ⟨keys, ts, all, hts, hmeans, hdistribute⟩ := meanAll_of_arguments h _ _ hes
  refine ⟨keys, ts, hts, fun M _ _ V S ↦ ⟨?_, ?_⟩⟩
  · rw [List.append_nil, Effects.execAll_append, (hf M V S).1, hmeans.hoisted_eq S, hoisted]
  · have hargs := distribute_map S.eval keys all
    rw [hmeans.rest_eq S, hdistribute] at hargs
    rw [Effects.eval, (hf M V S).2, Effects.evals_eq_map, Effects.keywordEvals_eq_map, ← hargs, rest, Term.rests_eq_map]

theorem length_of_ofNodes? {ts : List Term} (h : ofNodes? ns = some ts) : ts.length = ns.length := by
  induction ns generalizing ts with
  | nil =>
    cases h
    rfl
  | cons n ns ih =>
    simp only [ofNodes?, Option.bind_eq_bind, Option.bind_eq_some_iff] at h
    obtain ⟨t, -, ts', hts, h⟩ := h
    cases h
    rw [List.length_cons, List.length_cons, ih hts]

theorem Means.cons_sequence {t : Term} {ts : List Term} {r : Option Expr} (h : Means t ss (r.getD .none))
    (hne : ts ≠ []) (hs : Means (.sequence ts) stmts e) :
    Means (.sequence (t :: ts)) (ss ++ (r.map Stmt.expr).toList ++ stmts) e := by
  intro M _ _ V S
  obtain ⟨u, ts, rfl⟩ := List.exists_cons_of_ne_nil hne
  refine ⟨?_, (hs M V S).2⟩
  have hfirst : S.execAll (ss ++ (r.map Stmt.expr).toList) = (do hoisted S t; let _ ← rest S t) := by
    rw [← (h M V S).1, ← (h M V S).2]
    cases r with
    | none => simp [Expr.none, Effects.eval]
    | some e => exact S.execAll_expr ss e
  have hlast : hoisted S (.sequence (t :: u :: ts)) =
      (do hoisted S t; let _ ← rest S t; hoisted S (.sequence (u :: ts))) := rfl
  rw [Effects.execAll_append, hfirst, (hs M V S).1, hlast]
  simp

theorem means_of_sequence {r : Option Expr} (h : ∀ n ∈ ns, IsRead lower n) (hl : Lowers (sequence lower ns) r stmts) :
    ∃ ts, ofNodes? ns = some ts ∧ Means (.sequence ts) stmts (r.getD .none) := by
  induction ns generalizing r stmts with
  | nil =>
    obtain ⟨rfl, rfl⟩ := hl.of_pure
    exact ⟨[], rfl, fun _ _ _ _ _ ↦ ⟨rfl, rfl⟩⟩
  | cons n ns ih =>
    obtain ⟨hn, hns⟩ := List.forall_mem_cons.mp h
    cases ns with
    | nil =>
      obtain ⟨t, ht, hmean⟩ := hn r stmts hl
      exact ⟨[t], by simp [ofNodes?, ht], hmean⟩
    | cons n' ns =>
      obtain ⟨r', ss, tail, hr', hrest, rfl⟩ := hl.of_bind
      obtain ⟨t, ht, hmean⟩ := hn r' ss hr'
      obtain ⟨ss', rfl, htail⟩ : ∃ ss', tail = (r'.map Stmt.expr).toList ++ ss' ∧
          Lowers (sequence lower (n' :: ns)) r ss' := by
        cases r' with
        | none => exact ⟨_, rfl, hrest⟩
        | some e =>
          obtain ⟨_, _, ss', hemit, hrest', rfl⟩ := hrest.of_bind
          obtain rfl := hemit.of_emit
          exact ⟨ss', rfl, hrest'⟩
      obtain ⟨ts, hts, hmeans⟩ := ih hns htail
      have hne : ts ≠ [] := by
        rintro rfl
        cases length_of_ofNodes? hts
      refine ⟨t :: ts, by rw [ofNodes?, ht, hts]; rfl, ?_⟩
      rw [← List.append_assoc]
      exact hmean.cons_sequence hne hmeans

theorem Means.cons_assignment {t : Term} {ts : List Term} {place : Expr} {places : List Expr} (h : Means t ss e)
    (hs : Means (.assignment places ts) stmts .none) :
    Means (.assignment (place :: places) (t :: ts)) (ss ++ .assign [place] e :: stmts) .none := by
  intro M _ _ V S
  refine ⟨?_, rfl⟩
  rw [List.append_cons, Effects.execAll_append, Effects.execAll_assign, (h M V S).1, (h M V S).2, (hs M V S).1]
  simp [hoisted, hoistedTo]

theorem means_of_assignments {u : Unit} (h : ∀ n ∈ args, IsRead lower n) (heven : args.length % 2 = 0)
    (hl : Lowers (assignments lower n args) u stmts) :
    ∃ places ts, ofAssignments? args = some (places, ts) ∧ Means (.assignment places ts) stmts .none := by
  induction args using List.twoStepInduction generalizing stmts with
  | nil =>
    obtain ⟨-, rfl⟩ := hl.of_pure
    exact ⟨[], [], rfl, fun _ _ _ _ _ ↦ ⟨rfl, rfl⟩⟩
  | singleton target => simp at heven
  | cons_cons target source rest ih _ =>
    obtain ⟨hsource, hrest⟩ := List.forall_mem_cons.mp (List.forall_mem_cons.mp h).2
    rw [List.length_cons, List.length_cons] at heven
    cases target with
    | symbol name s =>
      obtain ⟨e, _, _, hsymbol, h₁, rfl⟩ := hl.of_bind
      obtain ⟨hsymbol', rfl⟩ := hsymbol.of_ofExcept
      cases hplace : e.asTarget? with
      | none =>
        rw [hplace] at h₁
        exact absurd h₁ not_lowers_throw
      | some place =>
        rw [hplace] at h₁
        obtain ⟨v, ss, _, hv, h₂, rfl⟩ := h₁.of_bind
        obtain ⟨_, _, ss', hemit, hl', rfl⟩ := h₂.of_bind
        obtain rfl := hemit.of_emit
        obtain ⟨t, ht, hmean⟩ := hsource.value hv
        obtain ⟨places, ts, hts, hmeans⟩ := ih hrest (by omega) hl'
        refine ⟨place :: places, t :: ts, ?_, hmean.cons_assignment hmeans⟩
        simp [ofAssignments?, hsymbol', Except.toOption, hplace, ht, hts]
    | literal l s => exact absurd hl not_lowers_throw
    | sequence d items s => exact absurd hl not_lowers_throw

theorem means_of_single {op : UnaryOp} {r : Option Expr} (h : ∀ n ∈ args, IsRead lower n)
    (hl : Lowers (single head n args fun arg ↦ do return some (.unary op (← value lower arg))) r stmts) :
    ∃ t, (ofNodes? args).bind (ofUnary? op) = some t ∧ Means t stmts (r.getD .none) := by
  match args with
  | [] => exact absurd hl not_lowers_throw
  | [arg] =>
    obtain ⟨e, ss, _, he, hp, rfl⟩ := Lowers.of_bind (p := value lower arg) hl
    obtain ⟨rfl, rfl⟩ := hp.of_pure
    obtain ⟨t, ht, hmean⟩ := (h arg (List.mem_singleton_self arg)).value he
    rw [List.append_nil]
    exact ⟨.unary op t, by simp [ofNodes?, ht, ofUnary?], hmean.unary op⟩
  | _ :: _ :: _ => exact absurd hl not_lowers_throw

theorem isRead_form {r : Option Expr} {s s' : Span} (hk : kind head ≠ .other) (h : ∀ n ∈ args, IsRead lower n)
    (hl : Lowers (form lower head args (.sequence .paren (.symbol head s :: args) s')) r stmts) :
    ∃ t, ofNode? (.sequence .paren (.symbol head s :: args) s') = some t ∧ Means t stmts (r.getD .none) := by
  rw [ofNode?]
  unfold form at hl
  split at hl
  · next op hop =>
    obtain ⟨e, he, rfl⟩ := hl.of_map
    rw [Term.kind_of_binaryOp? hop]
    exact means_of_operator h he
  · next op hno hop =>
    obtain ⟨e, he, rfl⟩ := hl.of_map
    rw [Term.kind_of_compareOp? hno hop]
    exact means_of_comparison h he
  next hnoop hnocomparison =>
  split at hl
  · exact means_of_single h hl
  · exact means_of_single h hl
  · exact absurd rfl hk
  · exact absurd rfl hk
  · exact absurd rfl hk
  · obtain ⟨ts, hts, hmeans⟩ := means_of_sequence h hl
    exact ⟨.sequence ts, by rw [hts]; rfl, hmeans⟩
  · split at hl
    · exact absurd hl not_lowers_throw
    · next heven =>
      rw [not_not] at heven
      obtain ⟨u, ss, _, hassign, hr, rfl⟩ := hl.of_bind
      obtain ⟨rfl, rfl⟩ := hr.of_pure
      obtain ⟨places, ts, hts, hmeans⟩ := means_of_assignments h heven hassign
      rw [List.append_nil]
      have hkind : kind "setv" = .assignment := rfl
      exact ⟨.assignment places ts, by simp only [hkind, heven, if_true, hts, Option.map_some], hmeans⟩
  iterate 9 exact absurd rfl hk
  split at hl
  · next name hname =>
    have hkind : kind head = .method name := by simp_all [kind]
    split at hl
    · exact absurd hl not_lowers_throw
    · next object rest =>
      obtain ⟨hobject, hrest⟩ := List.forall_mem_cons.mp h
      obtain ⟨e, ss, _, he, hl', rfl⟩ := hl.of_bind
      obtain ⟨e', hcall, rfl⟩ := hl'.of_map
      obtain ⟨t, ht, hmean⟩ := hobject.value he
      obtain ⟨keys, ts, hts, hmeans⟩ := means_of_call (hmean.member (Name.mangle name)) hrest hcall
      exact ⟨_, by simp [hkind, ht, hts], hmeans⟩
  · next hname =>
    have hkind : kind head = .call := by simp_all [kind]
    obtain ⟨f, _, _, hf, hl', rfl⟩ := hl.of_bind
    obtain ⟨hsymbol, rfl⟩ := hf.of_ofExcept
    obtain ⟨e', hcall, rfl⟩ := hl'.of_map
    obtain ⟨keys, ts, hts, hmeans⟩ := means_of_call (means_leaf f) h hcall
    exact ⟨_, by simp [hkind, hsymbol, Except.toOption, hts], hmeans⟩

theorem isRead_expanded {r : Option Expr} (hk : n.head?.map kind ≠ some .other)
    (h : ∀ items, n.items? = some items → ∀ m ∈ items, IsRead lower m) (hl : Lowers (expanded lower n) r stmts) :
    ∃ t, ofNode? n = some t ∧ Means t stmts (r.getD .none) := by
  unfold expanded at hl
  split at hl
  · next l s =>
    obtain ⟨rfl, rfl⟩ := hl.of_pure
    exact ⟨_, rfl, means_leaf _⟩
  · next name s =>
    obtain ⟨e, he, rfl⟩ := hl.of_map
    obtain ⟨hsymbol, rfl⟩ := he.of_ofExcept
    exact ⟨.leaf e, by simp [ofNode?, hsymbol, Except.toOption], means_leaf e⟩
  · next items s =>
    obtain ⟨es, ss, _, hes, hp, rfl⟩ := hl.of_bind
    obtain ⟨rfl, rfl⟩ := hp.of_pure
    obtain ⟨ts, hts, hmeans⟩ := meanAll_of_values (h items rfl) hes
    refine ⟨.list ts, by simp [ofNode?, hts], fun M _ _ V S ↦ ⟨?_, ?_⟩⟩
    · rw [List.append_nil, hmeans.hoisted_eq S, hoisted]
    · rw [Option.getD_some, Effects.eval, Effects.evals_eq_map, hmeans.rest_eq S, rest, Term.rests_eq_map]
  · next items s =>
    obtain ⟨e, he, rfl⟩ := hl.of_map
    obtain ⟨ts, heven, hts, hmeans⟩ := means_of_dictionary (h items rfl) he
    exact ⟨.dict ts, by simp [ofNode?, heven, hts], hmeans⟩
  · next s =>
    obtain ⟨rfl, rfl⟩ := hl.of_pure
    exact ⟨_, rfl, means_leaf _⟩
  · next head s args s' =>
    exact isRead_form (fun hother ↦ hk (congrArg some hother)) (List.forall_mem_cons.mp (h _ rfl)).2 hl
  · next func args s hfunc =>
    obtain ⟨hf, hargs⟩ := List.forall_mem_cons.mp (h _ rfl)
    obtain ⟨f, ss, _, he, hl', rfl⟩ := hl.of_bind
    obtain ⟨e, hcall, rfl⟩ := hl'.of_map
    obtain ⟨t, ht, hmean⟩ := hf.value he
    obtain ⟨keys, ts, hts, hmeans⟩ := means_of_call hmean hargs hcall
    refine ⟨.call t keys ts, ?_, hmeans⟩
    rw [ofNode?]
    · simp [ht, hts]
    · exact hfunc

end Parts

section Compiler

variable {c : Compiler} {n : Node} {fuel : ℕ}

theorem of_expand {e : Expanded} {ss : List Stmt} (h : ∀ x, c.expansion = some x → x.callee? n = none)
    (hl : Lowers (c.expand fuel n) e ss) : e = ⟨n, false⟩ ∧ ss = [] := by
  cases fuel with
  | zero =>
    unfold Compiler.expand at hl
    split at hl
    · exact hl.of_pure
    · obtain ⟨w, w', hl⟩ := hl
      cases hl
  | succ fuel =>
    rw [expand_of_callee_none h] at hl
    exact hl.of_pure

theorem isRead_lower (hmacros : ∀ x, c.expansion = some x → ∀ m ∈ n.subnodes, x.callee? m = none)
    (hforms : ∀ m ∈ n.subnodes, m.head?.map kind ≠ some .other) (fuel : ℕ) : IsRead (c.lower fuel true) n := by
  induction fuel generalizing n with
  | zero =>
    rintro r stmts ⟨w, w', hl⟩
    cases hl
  | succ fuel ih =>
    intro r stmts hl
    obtain ⟨e, ss, _, hexpand, hl', rfl⟩ := hl.of_bind
    obtain ⟨rfl, rfl⟩ := of_expand (fun x hx ↦ hmacros x hx n n.self_mem_subnodes) hexpand
    rw [List.nil_append]
    refine isRead_expanded (hforms n n.self_mem_subnodes) (fun items hitems m hm ↦ ?_) hl'
    have hsub : ∀ k ∈ m.subnodes, k ∈ n.subnodes := by
      intro k hk
      cases n with
      | symbol name s => cases hitems
      | literal value s => cases hitems
      | sequence d ns s =>
        cases hitems
        exact List.mem_cons_of_mem _ (Node.mem_subnodesAll.mpr ⟨m, hm, hk⟩)
    exact ih (fun x hx k hk ↦ hmacros x hx k (hsub k hk)) fun k hk ↦ hforms k (hsub k hk)

/-- What a form is lowered to carries out the form in two parts, each in the order in which it is written, whatever
reading, calling and assigning do. If no effect that is left to the expression stands before one that is hoisted or
takes the place of one, this is the order of the form itself. -/
theorem lower_hoists_in_order {r : Option Expr} {stmts : List Stmt} {w w' : World}
    (hmacros : ∀ x, c.expansion = some x → ∀ m ∈ n.subnodes, x.callee? m = none)
    (hforms : ∀ m ∈ n.subnodes, m.head?.map kind ≠ some .other)
    (hl : c.lower fuel true n w = some ⟨.ok r, stmts, w'⟩) :
    ∃ t, ofNode? n = some t ∧ ∀ (M : Type → Type) [Monad M] [LawfulMonad M] (V : Type) (S : Effects M V),
      S.execAll stmts = t.hoisted S ∧ S.eval (r.getD .none) = t.rest S ∧
      (t.inOrder = true → S.finish stmts (r.getD .none) = t.written S) := by
  obtain ⟨t, ht, hmeans⟩ := isRead_lower hmacros hforms fuel r stmts ⟨w, w', hl⟩
  refine ⟨t, ht, fun M _ _ V S ↦ ⟨(hmeans M V S).1, (hmeans M V S).2, fun horder ↦ ?_⟩⟩
  rw [Effects.finish, (hmeans M V S).1, (hmeans M V S).2]
  exact Term.keeps_of_inOrder horder

end Compiler

inductive Effect
  | read (name : String)
  | assign (name : String)
  | call
  deriving DecidableEq

def recording : Effects (StateM (List Effect)) Unit where
  constant _ := ()
  unary _ _ := ()
  binary _ _ _ := ()
  compare _ _ _ := ()
  truth _ := false
  list _ := ()
  tuple _ := ()
  dict _ := ()
  load id := modify (· ++ [.read id])
  member _ attr := modify (· ++ [.read attr])
  call _ _ _ := modify (· ++ [.call])
  assign id _ := modify (· ++ [.assign id])
  assignMember _ attr _ := modify (· ++ [.assign attr])
  imports _ := pure ()

def effects (x : StateM (List Effect) Unit) : List Effect := (x.run []).2

section Examples

def symbolOf (name : String) : Node := .symbol name .nowhere

def int (n : Int64) : Node := .literal (.int n) .nowhere

def callOf (name : String) (args : List Node) : Node := .form (symbolOf name :: args) .nowhere

/-- `[x (do (setv x 1) x)]` -/
def readThenAssign : Node :=
  .sequence .bracket [symbolOf "x", callOf "do" [callOf "setv" [symbolOf "x", int 1], symbolOf "x"]] .nowhere

/-- `(f :k (g) (h))` -/
def keywordFirst : Node := callOf "f" [.literal (.keyword "k") .nowhere, callOf "g" [], callOf "h" []]

/-- `(< 1 2 (do (f) 3))` -/
def lateOperand : Node := callOf "<" [int 1, int 2, callOf "do" [callOf "f" [], int 3]]

/-- What has no macros lowers a form to and what that does then, beside what is written. -/
def Reorders (n : Node) (done written : List Effect) : Prop :=
  ∃ e stmts, (∀ w, (Compiler.mk none).lower 4 true n w = some ⟨.ok (some e), stmts, w⟩) ∧
    effects (recording.finish stmts e) = done ∧ (ofNode? n).map (fun t ↦ effects (t.written recording)) = some written

/-- An assignment comes before a read, a positional argument before a keyword argument, and an operand before the
comparison that does not come to it. -/
theorem effects_reordered :
    Reorders readThenAssign [.assign "x", .read "x", .read "x"] [.read "x", .assign "x", .read "x"] ∧
    Reorders keywordFirst [.read "f", .read "h", .call, .read "g", .call, .call]
      [.read "f", .read "g", .call, .read "h", .call, .call] ∧
    Reorders lateOperand [.read "f", .call] [] := by
  have hread : Reorders readThenAssign _ _ :=
    ⟨.list [.load "x", .load "x"], [.assign [.name "x" .store] (.int 1)], fun w ↦ rfl, rfl, rfl⟩
  have hkeyword : Reorders keywordFirst _ _ :=
    ⟨.call (.load "f") [.call (.load "h") [] []] [("k", .call (.load "g") [] [])], [], fun w ↦ rfl, rfl, rfl⟩
  have hlate : Reorders lateOperand _ _ :=
    ⟨.compare (.int 1) [.lt, .lt] [.int 2, .int 3], [.expr (.call (.load "f") [] [])], fun w ↦ rfl, rfl, rfl⟩
  exact ⟨hread, hkeyword, hlate⟩

/-- `[(do (setv y (g)) 1) (f x :k (h x))]` -/
def orderedList : Node :=
  .sequence .bracket [callOf "do" [callOf "setv" [symbolOf "y", callOf "g" []], int 1],
    callOf "f" [symbolOf "x", .literal (.keyword "k") .nowhere, callOf "h" [symbolOf "x"]]] .nowhere

def orderedStatements : List Stmt := [.assign [.name "y" .store] (.call (.load "g") [] [])]

def orderedValue : Expr :=
  .list [.int 1, .call (.load "f") [.load "x"] [("k", .call (.load "h") [.load "x"] [])]]

def orderedEffects : List Effect :=
  [.read "g", .call, .assign "y", .read "f", .read "x", .read "h", .read "x", .call, .call]

/-- The list is in order, so nothing changes places although its first item needs statements. -/
theorem orderedList_hoists_in_order :
    (∀ m ∈ orderedList.subnodes, m.head?.map kind ≠ some .other) ∧
    (∀ w, (Compiler.mk none).lower 4 true orderedList w = some ⟨.ok (some orderedValue), orderedStatements, w⟩) ∧
    ∃ t, ofNode? orderedList = some t ∧ effects (t.written recording) = orderedEffects ∧
      ∀ (M : Type → Type) [Monad M] [LawfulMonad M] (V : Type) (S : Effects M V),
        S.finish orderedStatements orderedValue = t.written S := by
  have hmacros : ∀ x, (Compiler.mk none).expansion = some x → ∀ m ∈ orderedList.subnodes, x.callee? m = none := nofun
  have hforms : ∀ m ∈ orderedList.subnodes, m.head?.map kind ≠ some .other := by decide +kernel
  have hlower : ∀ w, (Compiler.mk none).lower 4 true orderedList w =
      some ⟨.ok (some orderedValue), orderedStatements, w⟩ := fun _ ↦ rfl
  refine ⟨hforms, hlower, ?_⟩
  obtain ⟨t, ht, h⟩ := lower_hoists_in_order hmacros hforms (hlower ⟨.new Name.mangle, none⟩)
  have horder : (ofNode? orderedList).map Term.inOrder = some true := rfl
  have heffects : (ofNode? orderedList).map (fun t ↦ effects (t.written recording)) = some orderedEffects := rfl
  rw [ht] at horder heffects
  exact ⟨t, ht, Option.some.inj heffects, fun M _ _ V S ↦ (h M V S).2.2 (Option.some.inj horder)⟩

end Examples

end MacroLisp.Lowering
