import MacroLisp.Proofs.Lowering.Simulation
import Mathlib.Data.List.Forall2
import Mathlib.Data.List.Induction

namespace MacroLisp.Lowering

open Host (Expr Stmt BinaryOp BoolOp UnaryOp Store Eval Semantics)

open Meaning (Special special?)

variable {V ε : Type} (S : Semantics V ε) (F : Node → Eval V ε V)

section Shapes

variable {lower : Node → LowerM (Option Expr)} {n : Node} {ns args : List Node} {e : Expr} {es : List Expr}
  {stmts : List Stmt} {head : String} {op : BinaryOp} {s s' : Span} {x : Eval V ε V}

/-- What a form is lowered to does what the form does. -/
def Preserves (lower : Node → LowerM (Option Expr)) (n : Node) : Prop :=
  ∀ r stmts, Lowers (lower n) r stmts → Sim (Meaning.eval S F n) (S.finish stmts (r.getD .none))

/-- Where the form is lowered, nothing has to run before its expression. -/
def HoistsNothing (lower : Node → LowerM (Option Expr)) (n : Node) : Prop :=
  ∀ r stmts, Lowers (lower n) r stmts → stmts = []

abbrev SimAll : List Node → List Expr → Prop := List.Forall₂ fun n e ↦ Sim (Meaning.eval S F n) (S.eval e)

variable {S F}

theorem Preserves.value (h : Preserves S F lower n) (hl : Lowers (value lower n) e stmts) :
    Sim (Meaning.eval S F n) (S.finish stmts e) := by
  obtain ⟨r, ss, ss', hr, hp, rfl⟩ := hl.of_bind
  obtain ⟨rfl, rfl⟩ := hp.of_pure
  rw [List.append_nil]
  exact h r ss hr

theorem HoistsNothing.value (h : HoistsNothing lower n) (hl : Lowers (value lower n) e stmts) : stmts = [] := by
  obtain ⟨r, ss, ss', hr, hp, rfl⟩ := hl.of_bind
  obtain ⟨rfl, rfl⟩ := hp.of_pure
  rw [List.append_nil]
  exact h r ss hr

theorem Lowers.of_values_cons (hl : Lowers (values lower (n :: ns)) es stmts) :
    ∃ e es' ss ss', Lowers (value lower n) e ss ∧ Lowers (values lower ns) es' ss' ∧ es = e :: es' ∧
      stmts = ss ++ ss' := by
  obtain ⟨e, ss, _, he, hl', rfl⟩ := hl.of_bind
  obtain ⟨es', ss', _, hes, hp, rfl⟩ := hl'.of_bind
  obtain ⟨rfl, rfl⟩ := hp.of_pure
  exact ⟨e, es', ss, ss', he, hes, rfl, by rw [List.append_nil]⟩

theorem simAll_of_values (hp : ∀ n ∈ ns, Preserves S F lower n) (hn : ∀ n ∈ ns, HoistsNothing lower n)
    (hl : Lowers (values lower ns) es stmts) : SimAll S F ns es ∧ stmts = [] := by
  induction ns generalizing es stmts with
  | nil =>
    obtain ⟨rfl, rfl⟩ := hl.of_pure
    exact ⟨.nil, rfl⟩
  | cons n ns ih =>
    obtain ⟨e, es', ss, ss', he, hes, rfl, rfl⟩ := hl.of_values_cons
    obtain rfl := (hn n (by simp)).value he
    have hsim := (hp n (by simp)).value he
    rw [Semantics.finish_nil] at hsim
    obtain ⟨hall, rfl⟩ := ih (fun n' h' ↦ hp n' (by simp [h'])) (fun n' h' ↦ hn n' (by simp [h'])) hes
    exact ⟨.cons hsim hall, rfl⟩

theorem group_pow_cons (e e' : Expr) (es : List Expr) :
    group .pow e (e' :: es) = .binary e .pow (group .pow e' es) := rfl

theorem group_of_ne_pow (h : op ≠ .pow) (e : Expr) (es : List Expr) :
    group op e es = es.foldl (fun l r ↦ .binary l op r) e := by
  cases op <;> first | contradiction | (cases es <;> rfl)

theorem sim_fold (hx : Sim x (S.finish stmts e)) (h : SimAll S F ns es) :
    Sim (do let v ← x; Meaning.fold S F op v ns) (S.finish stmts (es.foldl (fun l r ↦ .binary l op r) e)) := by
  induction h generalizing x e with
  | nil => simpa [Meaning.fold] using hx
  | @cons n e' ns es hn hns ih =>
    have hx' : Sim (do let v ← x; let w ← Meaning.eval S F n; S.combine op v w) (S.finish stmts (.binary e op e')) := by
      rw [Semantics.finish_binary]
      exact hx.bind fun v ↦ hn.bind fun w ↦ sim_combine S op v w
    simpa [Meaning.fold] using ih hx'

theorem sim_raise (hx : Sim x (S.finish stmts e)) (h : SimAll S F ns es) :
    Sim (x >>= fun v ↦ Meaning.raise S F v ns) (S.finish stmts (group .pow e es)) := by
  induction h generalizing x e stmts with
  | nil =>
    simp only [Meaning.raise, bind_pure]
    exact hx
  | @cons n e' ns es hn hns ih =>
    rw [group_pow_cons, Semantics.finish_binary]
    refine hx.bind fun v ↦ ?_
    -- The statements run before the base, so the exponent has none.
    have hn' : Sim (Meaning.eval S F n) (S.finish [] e') := by rwa [Semantics.finish_nil]
    have hrest := ih hn'
    rw [Semantics.finish_nil] at hrest
    simpa [Meaning.raise] using hrest.bind fun w ↦ sim_combine S .pow v w

theorem sim_group (hn : Sim (Meaning.eval S F n) (S.finish stmts e)) (h : SimAll S F ns es) :
    Sim (Meaning.eval S F n >>= fun v ↦ if op = .pow then Meaning.raise S F v ns else Meaning.fold S F op v ns)
      (S.finish stmts (group op e es)) := by
  by_cases hop : op = .pow
  · subst hop
    simpa using sim_raise hn h
  · rw [group_of_ne_pow hop]
    simpa [hop] using sim_fold hn h

theorem sim_alone {n' n'' : Node} {r : Expr} (hn : Sim (Meaning.eval S F n) (S.finish stmts e))
    (hr : operation head op n' [e] = .ok r) :
    Sim (Meaning.eval S F n >>= fun v ↦ Meaning.alone S F n'' v op) (S.finish stmts r) := by
  cases op <;> cases hr
  · rw [Semantics.finish_unary]
    exact hn.bind fun v ↦ sim_apply S .plus v
  · rw [Semantics.finish_unary]
    exact hn.bind fun v ↦ sim_apply S .minus v
  · simpa [Meaning.alone] using hn
  · have hdiv : S.finish stmts (.binary (.int 1) .div e) =
        S.finish stmts e >>= fun v ↦ S.combine .div (S.constant (.int 1)) v := by
      simp [Semantics.finish, Semantics.eval, Expr.int]
    rw [hdiv]
    exact hn.bind fun v ↦ sim_combine S .div _ v

theorem sim_operator {n' : Node} (hp : ∀ a ∈ args, Preserves S F lower a) (hn : ∀ a ∈ args.tail, HoistsNothing lower a)
    (hl : Lowers (operator lower head op args n) e stmts) :
    Sim (Meaning.operation S F n' op args) (S.finish stmts e) := by
  obtain ⟨es, ss, ss', hes, hr, rfl⟩ := hl.of_bind
  obtain ⟨hop, rfl⟩ := hr.of_ofExcept
  rw [List.append_nil]
  cases args with
  | nil =>
    obtain ⟨rfl, rfl⟩ := hes.of_pure
    rw [Semantics.finish_nil, Meaning.operation]
    cases op <;> cases hop <;> exact .pure _
  | cons a args =>
    obtain ⟨e₁, es', ss₁, ss₂, he, hes', rfl, rfl⟩ := hes.of_values_cons
    have hfirst := (hp a (by simp)).value he
    obtain ⟨hall, rfl⟩ := simAll_of_values (fun n' h' ↦ hp n' (List.mem_cons_of_mem a h')) hn hes'
    rw [List.append_nil]
    cases hall with
    | nil =>
      rw [Meaning.operation]
      exact sim_alone hfirst hop
    | cons h₂ hrest =>
      obtain rfl : group op _ _ = e := by simpa [operation] using hop
      rw [Meaning.operation]
      · exact sim_group hfirst (.cons h₂ hrest)
      · simp

theorem sim_sole {f : Node → LowerM (Option Expr)} {r : Option Expr} {o : UnaryOp} {n' : Node}
    (hf : ∀ a, f a = do return some (.unary o (← value lower a))) (hp : ∀ a ∈ args, Preserves S F lower a)
    (hl : Lowers (single head n args f) r stmts) :
    Sim (Meaning.sole S F n' o args) (S.finish stmts (r.getD .none)) := by
  unfold single at hl
  split at hl
  · next a =>
    rw [hf] at hl
    obtain ⟨e, ss, _, he, hr, rfl⟩ := hl.of_bind
    obtain ⟨rfl, rfl⟩ := hr.of_pure
    rw [List.append_nil, Meaning.sole, Option.getD_some, Semantics.finish_unary]
    exact ((hp a (by simp)).value he).bind fun v ↦ sim_apply S o v
  · exact absurd hl not_lowers_throw

theorem simAll_of_laterOperands (hp : ∀ a ∈ args, Preserves S F lower a)
    (hl : Lowers (laterOperands lower head n args) es stmts) : SimAll S F args es ∧ stmts = [] := by
  induction args generalizing es stmts with
  | nil =>
    obtain ⟨rfl, rfl⟩ := hl.of_pure
    exact ⟨.nil, rfl⟩
  | cons a args ih =>
    obtain ⟨⟨e, ss⟩, ss', ss'', hc, hr, rfl⟩ := hl.of_bind
    obtain ⟨he, rfl⟩ := hc.of_collect
    simp only at hr he
    split at hr
    · next hempty =>
      obtain rfl : ss = [] := by simpa using hempty
      obtain ⟨es', _, _, hes, hpure, rfl⟩ := hr.of_bind
      obtain ⟨rfl, rfl⟩ := hpure.of_pure
      obtain ⟨hall, rfl⟩ := ih (fun a' h' ↦ hp a' (List.mem_cons_of_mem a h')) hes
      have hsim := (hp a (by simp)).value he
      rw [Semantics.finish_nil] at hsim
      exact ⟨.cons hsim hall, rfl⟩
    · exact absurd hr not_lowers_throw

theorem sim_logic {o : BoolOp} (hn : Sim (Meaning.eval S F n) (S.finish stmts e)) (h : SimAll S F ns es) :
    Sim (Meaning.logic S F o (n :: ns)) (do S.execAll stmts; S.operands o (e :: es)) := by
  induction h generalizing n e stmts with
  | nil =>
    rw [Meaning.logic, Semantics.operands]
    exact hn
  | @cons n' e' ns es hn' hns ih =>
    have hsecond : Sim (Meaning.eval S F n') (S.finish [] e') := by rwa [Semantics.finish_nil]
    have hrest := ih hsecond
    have hhost : (do S.execAll stmts; S.operands o (e :: e' :: es)) = S.finish stmts e >>= fun v ↦
        S.holds v >>= fun b ↦ if b = o.goesOn then S.operands o (e' :: es) else return v := by
      simp [Semantics.operands, Semantics.finish]
    rw [hhost, Meaning.logic]
    · refine hn.bind fun v ↦ (sim_holds S v).bind fun b ↦ .ite ?_ (.pure v)
      simpa [Semantics.execAll] using hrest
    · simp

theorem sim_boolean {o : BoolOp} (hp : ∀ a ∈ args, Preserves S F lower a)
    (hl : Lowers (boolean lower head o args n) e stmts) :
    Sim (Meaning.logic S F o args) (S.finish stmts e) := by
  cases args with
  | nil =>
    cases o <;> obtain ⟨rfl, rfl⟩ := hl.of_pure <;> exact .pure _
  | cons a args =>
    obtain ⟨e₁, ss, _, he, hr, rfl⟩ := hl.of_bind
    obtain ⟨es, ss', ss'', hes, hm, rfl⟩ := hr.of_bind
    obtain ⟨hall, rfl⟩ := simAll_of_laterOperands (fun a' h' ↦ hp a' (List.mem_cons_of_mem a h')) hes
    have hsim := sim_logic (o := o) ((hp a (by simp)).value he) hall
    cases es with
    | nil =>
      obtain ⟨rfl, rfl⟩ := hm.of_pure
      simpa [Semantics.operands, Semantics.finish] using hsim
    | cons e' es =>
      obtain ⟨rfl, rfl⟩ := hm.of_pure
      simpa [Semantics.eval, Semantics.finish] using hsim

theorem sim_branch {id : String} (hid : NameSupply.isReserved id = true) (hx : Sim x (S.finish stmts e)) :
    Sim x (S.finish (stmts ++ [.assign [.name id .store] e]) (.load id)) := by
  rw [Semantics.finish_assign, Semantics.finish_nil, ← bind_pure x]
  exact hx.bind fun v ↦ sim_temporary S hid v

theorem sim_conditional {test body : Node} {orelse : Option Node} {y : Eval V ε V}
    (ht : Preserves S F lower test) (hb : Preserves S F lower body)
    (ho : ∀ e ss, Lowers (match orelse with | some n => value lower n | none => return .none) e ss →
      Sim y (S.finish ss e))
    (hl : Lowers (conditional lower test body orelse) e stmts) :
    Sim (Meaning.eval S F test >>= fun v ↦ S.holds v >>= fun b ↦ if b then Meaning.eval S F body else y)
      (S.finish stmts e) := by
  obtain ⟨t, ss, _, htest, h₁, rfl⟩ := hl.of_bind
  obtain ⟨⟨b, bs⟩, _, _, hbody, h₂, rfl⟩ := h₁.of_bind
  obtain ⟨⟨o, os⟩, _, _, helse, h₃, rfl⟩ := h₂.of_bind
  obtain ⟨hb', rfl⟩ := hbody.of_collect
  obtain ⟨ho', rfl⟩ := helse.of_collect
  have htest' := ht.value htest
  have hbody' := hb.value hb'
  have helse' := ho o os ho'
  simp only [List.nil_append] at h₃ ⊢
  split at h₃
  · next hempty =>
    simp only [Bool.and_eq_true, List.isEmpty_iff] at hempty
    obtain ⟨rfl, rfl⟩ := hempty
    obtain ⟨rfl, rfl⟩ := h₃.of_pure
    rw [Semantics.finish_nil] at hbody' helse'
    rw [List.append_nil, Semantics.finish_conditional]
    exact htest'.bind fun v ↦ (sim_holds S v).bind fun c ↦ .ite hbody' helse'
  · obtain ⟨id, _, _, hid, h₄, rfl⟩ := h₃.of_bind
    obtain ⟨hid', rfl⟩ := hid.of_freshName
    obtain ⟨_, ss', _, hemit, h₅, rfl⟩ := h₄.of_bind
    obtain rfl := hemit.of_emit
    obtain ⟨rfl, rfl⟩ := h₅.of_pure
    rw [List.nil_append, List.append_nil, Semantics.finish_ifElse]
    exact htest'.bind fun v ↦ (sim_holds S v).bind fun c ↦ .ite (sim_branch hid' hbody') (sim_branch hid' helse')

theorem sim_sequence {r : Option Expr} (hp : ∀ n ∈ ns, Preserves S F lower n)
    (hl : Lowers (sequence lower ns) r stmts) :
    Sim (Meaning.sequence S F ns) (S.finish stmts (r.getD .none)) := by
  induction ns generalizing r stmts with
  | nil =>
    obtain ⟨rfl, rfl⟩ := hl.of_pure
    exact .pure _
  | cons n ns ih =>
    cases ns with
    | nil =>
      rw [Meaning.sequence]
      exact hp n (by simp) r stmts hl
    | cons n' ns =>
      obtain ⟨r', ss, _, hn, hrest, rfl⟩ := hl.of_bind
      have hfirst := hp n (by simp) r' ss hn
      have htail : ∀ r stmts, Lowers (sequence lower (n' :: ns)) r stmts →
          Sim (Meaning.sequence S F (n' :: ns)) (S.finish stmts (r.getD .none)) := fun r stmts hl ↦
        ih (fun m hm ↦ hp m (List.mem_cons_of_mem n hm)) hl
      have heval : Meaning.sequence S F (n :: n' :: ns) =
          Meaning.eval S F n >>= fun _ ↦ Meaning.sequence S F (n' :: ns) := by
        simp [Meaning.sequence]
      rw [heval]
      cases r' with
      | none =>
        have hhost : ∀ ss', S.finish (ss ++ ss') (r.getD .none) =
            S.finish ss .none >>= fun _ ↦ S.finish ss' (r.getD .none) := by
          simp [Semantics.finish, Semantics.execAll_append, Semantics.eval, Expr.none]
        rw [hhost]
        exact hfirst.bind fun _ ↦ htail r _ hrest
      | some e =>
        obtain ⟨_, ss', ss'', hemit, hrest', rfl⟩ := hrest.of_bind
        obtain rfl := hemit.of_emit
        rw [List.singleton_append, Semantics.finish_expr]
        exact hfirst.bind fun _ ↦ htail r _ hrest'

theorem symbol_eq {name : String} {n : Node} (h : '.' ∉ name.toList) :
    symbol name n = .ok (match Meaning.constantOf? name with
      | some c => .constant c
      | none => .load (Name.mangle name)) := by
  unfold symbol constant? Meaning.constantOf?
  split
  · next he => split at he <;> cases he <;> rfl
  · next he =>
    split at he
    · cases he
    · cases he
    · cases he
    · simp [h]

theorem asTarget?_symbol {name : String} {n : Node} {e place : Expr} (h : '.' ∉ name.toList)
    (he : symbol name n = .ok e) (hp : e.asTarget? = some place) : place = .name (Name.mangle name) .store := by
  rw [symbol_eq h] at he
  cases he
  split at hp <;> cases hp
  rfl

theorem sim_assignments (hp : ∀ a ∈ args, Preserves S F lower a)
    (hdot : ∀ name s, .symbol name s ∈ args → '.' ∉ name.toList) {u : Unit}
    (hl : Lowers (assignments lower n args) u stmts) :
    Sim (Meaning.assignments S F args) (S.finish stmts .none) := by
  induction args using List.twoStepInduction generalizing stmts with
  | nil =>
    obtain ⟨-, rfl⟩ := hl.of_pure
    exact .pure _
  | singleton a =>
    obtain ⟨-, rfl⟩ := hl.of_pure
    rw [Meaning.assignments]
    · exact .pure _
    · simp
  | cons_cons target source rest ih _ =>
    cases target with
    | symbol name s =>
      obtain ⟨e, _, _, hsymbol, h₁, rfl⟩ := hl.of_bind
      obtain ⟨hsymbol', rfl⟩ := hsymbol.of_ofExcept
      cases hplace : e.asTarget? with
      | none =>
        rw [hplace] at h₁
        exact absurd h₁ not_lowers_throw
      | some place =>
        rw [hplace] at h₁
        obtain rfl := asTarget?_symbol (hdot name s (by simp)) hsymbol' hplace
        obtain ⟨v, ss, _, hv, h₂, rfl⟩ := h₁.of_bind
        obtain ⟨_, _, ss', hemit, hrest, rfl⟩ := h₂.of_bind
        obtain rfl := hemit.of_emit
        have hsource := (hp source (by simp)).value hv
        have htail := ih (fun a ha ↦ hp a (by simp [ha])) (fun name s h ↦ hdot name s (by simp [h])) hrest
        rw [List.nil_append, List.singleton_append, Semantics.finish_assign, Meaning.assignments]
        exact hsource.bind fun v ↦ (sim_assign (Name.mangle name) v).bind fun _ ↦ htail
    | literal l s => exact absurd hl not_lowers_throw
    | sequence d items s => exact absurd hl not_lowers_throw

theorem binaryOp?_of_special (h : special? head = some (.operator op)) : binaryOp? head = some op := by
  unfold special? at h
  split at h <;> cases h <;> rfl

def word? : Special → Option String
  | .operator _ => none
  | .invert => some "~"
  | .not => some "not"
  | .logic .and => some "and"
  | .logic .or => some "or"
  | .choice => some "if"
  | .sequence => some "do"
  | .assignment => some "setv"

theorem eq_of_special {sp : Special} {w : String} (h : special? head = some sp) (hw : word? sp = some w) : head = w := by
  unfold special? at h
  split at h <;> cases h <;> cases hw <;> rfl

theorem sim_choice {r : Option Expr} {n' : Node} (hp : ∀ a ∈ args, Preserves S F lower a)
    (hl : Lowers (form lower "if" args n) r stmts) :
    Sim (Meaning.choice S F n' args) (S.finish stmts (r.getD .none)) := by
  rcases args with _ | ⟨test, _ | ⟨body, _ | ⟨orelse, _ | ⟨_, _⟩⟩⟩⟩
  · exact absurd hl not_lowers_throw
  · exact absurd hl not_lowers_throw
  · obtain ⟨e, he, rfl⟩ := Lowers.of_map (p := conditional lower test body none) (g := some) hl
    rw [Meaning.choice]
    refine sim_conditional (hp test (by simp)) (hp body (by simp)) (fun e ss ho ↦ ?_) he
    obtain ⟨rfl, rfl⟩ := ho.of_pure
    rw [Semantics.finish_nil]
    exact .pure _
  · obtain ⟨e, he, rfl⟩ := Lowers.of_map (p := conditional lower test body (some orelse)) (g := some) hl
    rw [Meaning.choice]
    refine sim_conditional (hp test (by simp)) (hp body (by simp)) (fun e ss ho ↦ ?_) he
    exact (hp orelse (by simp)).value ho
  · exact absurd hl not_lowers_throw

theorem sim_form {sp : Special} {r : Option Expr} (hs : special? head = some sp)
    (hp : ∀ a ∈ args, Preserves S F lower a) (hn : ∀ op, sp = .operator op → ∀ a ∈ args.tail, HoistsNothing lower a)
    (hdot : ∀ name s, .symbol name s ∈ args → '.' ∉ name.toList) (hl : Lowers (form lower head args n) r stmts) :
    Sim (Meaning.eval S F (.sequence .paren (.symbol head s :: args) s')) (S.finish stmts (r.getD .none)) := by
  rw [Meaning.eval, hs]
  cases sp with
  | operator op =>
    have hform : form lower head args n = some <$> operator lower head op args n := by
      simp [form, binaryOp?_of_special hs]
    rw [hform] at hl
    obtain ⟨e, he, rfl⟩ := hl.of_map
    exact sim_operator hp (hn op rfl) he
  | invert =>
    obtain rfl := eq_of_special hs rfl
    exact sim_sole (fun _ ↦ rfl) hp hl
  | not =>
    obtain rfl := eq_of_special hs rfl
    exact sim_sole (fun _ ↦ rfl) hp hl
  | logic o =>
    cases o <;> obtain rfl := eq_of_special hs rfl <;> obtain ⟨e, he, rfl⟩ := hl.of_map <;> exact sim_boolean hp he
  | choice =>
    obtain rfl := eq_of_special hs rfl
    exact sim_choice hp hl
  | sequence =>
    obtain rfl := eq_of_special hs rfl
    exact sim_sequence hp hl
  | assignment =>
    obtain rfl := eq_of_special hs rfl
    by_cases hodd : args.length % 2 ≠ 0
    · have hform : form lower "setv" args n = refuse "setv" n .oddAssignment := by
        simp [form, binaryOp?, compareOp?, hodd]
      rw [hform] at hl
      exact absurd hl not_lowers_throw
    · have hform : form lower "setv" args n = (do assignments lower n args; return none) := by
        simp [form, binaryOp?, compareOp?, hodd]
      rw [hform] at hl
      obtain ⟨u, ss, _, hassign, hr, rfl⟩ := hl.of_bind
      obtain ⟨rfl, rfl⟩ := hr.of_pure
      rw [List.append_nil]
      exact sim_assignments hp hdot hassign

end Shapes

def lowerPlain (fuel : Nat) : Node → LowerM (Option Expr) := (Compiler.mk none).lower fuel true

/-- Forms made of literals, undotted symbols and special forms. No symbol stands for a temporary variable, and
of the operands of an operator only the first may need statements. -/
inductive Covered : Node → Prop
  | int (n : Int64) (s : Span) : Covered (.literal (.int n) s)
  | float (x : Binary64) (s : Span) : Covered (.literal (.float x) s)
  | string (t : String) (s : Span) : Covered (.literal (.string t) s)
  | symbol (name : String) (s : Span) : '.' ∉ name.toList → NameSupply.isReserved (Name.mangle name) = false →
    Covered (.symbol name s)
  | form {sp : Special} (head : String) (args : List Node) (s s' : Span) : special? head = some sp →
    (∀ a ∈ args, Covered a) → (∀ op, sp = .operator op → ∀ a ∈ args.tail, ∀ fuel, HoistsNothing (lowerPlain fuel) a) →
    Covered (.sequence .paren (.symbol head s :: args) s')

variable {S F} {n : Node} {r : Option Expr} {stmts : List Stmt}

theorem Covered.preserves (h : Covered n) (fuel : Nat) : Preserves S F (lowerPlain fuel) n := by
  -- The parts of a form are lowered with one step less than the form.
  induction fuel generalizing n with
  | zero =>
    rintro r stmts ⟨w, w', hl⟩
    cases hl
  | succ fuel ih =>
    intro r stmts hl
    obtain ⟨x, _, _, hexpand, hl', rfl⟩ := hl.of_bind
    obtain ⟨rfl, rfl⟩ := hexpand.of_pure
    rw [List.nil_append]
    cases h with
    | int k s =>
      obtain ⟨rfl, rfl⟩ := hl'.of_pure
      rw [Semantics.finish_nil, Meaning.eval]
      exact .pure _
    | float x s =>
      obtain ⟨rfl, rfl⟩ := hl'.of_pure
      rw [Semantics.finish_nil, Meaning.eval]
      exact .pure _
    | string t s =>
      obtain ⟨rfl, rfl⟩ := hl'.of_pure
      rw [Semantics.finish_nil, Meaning.eval]
      exact .pure _
    | symbol name s hdot hid =>
      obtain ⟨e, he, rfl⟩ := hl'.of_map
      obtain ⟨hsymbol, rfl⟩ := he.of_ofExcept
      rw [symbol_eq hdot] at hsymbol
      cases hsymbol
      rw [Semantics.finish_nil, Meaning.eval, Option.getD_some]
      cases Meaning.constantOf? name with
      | none => exact sim_load S hid
      | some c => exact .pure _
    | form head args s s' hs hargs hlater =>
      refine sim_form hs (fun a ha ↦ ih (hargs a ha)) (fun op hop a ha ↦ hlater op hop a ha fuel) ?_ hl'
      intro name s hmem
      cases hargs _ hmem with
      | symbol _ _ hdot _ => exact hdot

/-- Whatever values are and whatever the store holds, what a form is lowered to does what the form does: it
gives the same value, or fails alike, and leaves the same store but for temporary variables. -/
theorem lower_preserves_meaning (S : Semantics V ε) (F : Node → Eval V ε V) (h : Covered n) {fuel : Nat} {w w' : World}
    (hl : (Compiler.mk none).lower fuel true n w = some ⟨.ok r, stmts, w'⟩) (σ : Store V) :
    (Meaning.eval S F n σ).1 = (S.finish stmts (r.getD .none) σ).1 ∧
      ∀ id, NameSupply.isReserved id = false →
        (Meaning.eval S F n σ).2 id = (S.finish stmts (r.getD .none) σ).2 id :=
  h.preserves fuel r stmts ⟨w, w', hl⟩ σ σ (.refl σ)

theorem hoistsNothing_literal (l : Literal) (s : Span) (fuel : Nat) : HoistsNothing (lowerPlain fuel) (.literal l s) := by
  cases fuel with
  | zero =>
    rintro r stmts ⟨w, w', hl⟩
    cases hl
  | succ fuel =>
    intro r stmts hl
    obtain ⟨x, _, _, hexpand, hl', rfl⟩ := hl.of_bind
    obtain ⟨rfl, rfl⟩ := hexpand.of_pure
    obtain ⟨-, rfl⟩ := hl'.of_pure
    rfl

/-- Values that are integers, of which only zero does not hold. -/
def integers : Semantics ℤ String where
  constant
    | .int n => n.toInt
    | .bool true => 1
    | _ => 0
  binary op v w := if op = .add then .ok (v + w) else .error "unsupported operator"
  unary op v := if op = .minus then .ok (-v) else .error "unsupported operator"
  truth v := .ok (v != 0)
  unbound id := id
  other _ := throw "unsupported expression"
  assignOther _ _ := throw "unsupported target"
  imports _ := return ()

/-- The sum of three and a conditional, one branch of which assigns to a variable. -/
def sumOfConditional : Node :=
  .form [.symbol "+" .nowhere,
    .form [.symbol "if" .nowhere, .symbol "a" .nowhere,
      .form [.symbol "do" .nowhere,
        .form [.symbol "setv" .nowhere, .symbol "b" .nowhere, .literal (.int 1) .nowhere] .nowhere,
        .symbol "b" .nowhere] .nowhere,
      .literal (.int 2) .nowhere] .nowhere,
    .literal (.int 3) .nowhere] .nowhere

theorem covered_sumOfConditional : Covered sumOfConditional := by
  have ha : Covered (.symbol "a" .nowhere) := .symbol "a" .nowhere (by decide) (by decide)
  have hb : Covered (.symbol "b" .nowhere) := .symbol "b" .nowhere (by decide) (by decide)
  have hint : ∀ k, Covered (.literal (.int k) .nowhere) := fun k ↦ .int k .nowhere
  refine .form "+" _ _ _ rfl ?_ fun op _ a ha fuel ↦ ?_
  · simp only [List.mem_cons, List.not_mem_nil, or_false, forall_eq_or_imp, forall_eq]
    refine ⟨.form "if" _ _ _ rfl ?_ (by simp), hint 3⟩
    simp only [List.mem_cons, List.not_mem_nil, or_false, forall_eq_or_imp, forall_eq]
    refine ⟨ha, .form "do" _ _ _ rfl ?_ (by simp), hint 2⟩
    simp only [List.mem_cons, List.not_mem_nil, or_false, forall_eq_or_imp, forall_eq]
    refine ⟨.form "setv" _ _ _ rfl ?_ (by simp), hb⟩
    simpa using ⟨hb, hint 1⟩
  · simp only [List.tail_cons, List.mem_cons, List.not_mem_nil, or_false] at ha
    subst ha
    exact hoistsNothing_literal _ _ fuel

/-- The branches hand their values over in a temporary variable. -/
theorem sumOfConditional_is_preserved :
    Covered sumOfConditional ∧
      (Compiler.mk none).lower 5 true sumOfConditional ⟨.new Name.mangle, none⟩ =
        some ⟨.ok (some (.binary (.load "_hy_gensym_if_1") .add (.int 3))),
          [.ifElse (.load "a")
            [.assign [.name "b" .store] (.int 1), .assign [.name "_hy_gensym_if_1" .store] (.load "b")]
            [.assign [.name "_hy_gensym_if_1" .store] (.int 2)]], ⟨⟨Name.mangle, 1⟩, none⟩⟩ ∧
      (Meaning.eval integers (fun _ ↦ throw "unsupported form") sumOfConditional
        fun id ↦ if id = "a" then some 1 else none).1 = .ok 4 := by
  have hlower : (Compiler.mk none).lower 5 true sumOfConditional ⟨.new Name.mangle, none⟩ =
      some ⟨.ok (some (.binary (.load "_hy_gensym_if_1") .add (.int 3))),
        [.ifElse (.load "a")
          [.assign [.name "b" .store] (.int 1), .assign [.name "_hy_gensym_if_1" .store] (.load "b")]
          [.assign [.name "_hy_gensym_if_1" .store] (.int 2)]], ⟨⟨Name.mangle, 1⟩, none⟩⟩ := rfl
  refine ⟨covered_sumOfConditional, hlower, ?_⟩
  rw [(lower_preserves_meaning integers _ covered_sumOfConditional hlower _).1]
  rfl

end MacroLisp.Lowering
