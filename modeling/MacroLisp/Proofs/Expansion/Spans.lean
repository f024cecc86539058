import MacroLisp.Expansion.Core
import MacroLisp.Expansion.Template
import MacroLisp.Proofs.Expansion.Alike
import MacroLisp.Proofs.Expansion.Answers
import MacroLisp.Proofs.Expansion.Holes
import MacroLisp.Proofs.Expansion.Notes

namespace MacroLisp

open Node (AllAlike)

def Scope.Alike (scope scope' : Scope) : Prop := List.Forall₂ (fun p q ↦ p.1 = q.1 ∧ p.2.Alike q.2) scope scope'

variable {scope scope' : Scope}

theorem Scope.Alike.cons (h : scope.Alike scope') (name : String) (n : Node) :
    Scope.Alike ((name, n) :: scope) ((name, n) :: scope') :=
  List.Forall₂.cons ⟨rfl, .refl n⟩ h

theorem Scope.Alike.lookup (h : scope.Alike scope') (name : String) :
    Option.Rel Node.Alike (List.lookup name scope) (List.lookup name scope') := by
  induction h with
  | nil => exact .none
  | @cons p q _ _ hpq _ ih =>
    obtain ⟨key, n⟩ := p
    obtain ⟨key', m⟩ := q
    obtain ⟨rfl, hn⟩ := hpq
    simp only [List.lookup_cons]
    split
    · exact .some hn
    · exact ih

namespace Template

variable {n m : Node} {ns : List Node} {d : Delimiter} {s : Span} {level : ℕ}

theorem alike_bindFresh (h : scope.Alike scope') (names : List Node) :
    Action.Alike Scope.Alike (bindFresh scope names) (bindFresh scope' names) := by
  induction names generalizing scope scope' with
  | nil => exact .done h
  | cons n names ih =>
    cases n with
    | symbol name s => exact .fresh name fun n ↦ ih (h.cons name n)
    | literal value s => exact .refuse _
    | sequence d items s => exact .refuse _

theorem alike_splice (h : n.Alike m) : Action.Alike AllAlike (splice n) (splice m) := by
  unfold splice
  rw [h.text_eq]
  have hitems := h.items?
  generalize n.items? = x at hitems ⊢
  generalize m.items? = y at hitems ⊢
  cases hitems with
  | none => exact .refuse _
  | some h => exact .done h

def EvalAlike (n : Node) : Prop :=
  ∀ scope scope', Scope.Alike scope scope' → Action.Alike Node.Alike (eval scope n) (eval scope' n)

def FillAlike (n : Node) : Prop :=
  ∀ scope scope' level, Scope.Alike scope scope' → Action.Alike Node.Alike (fill scope level n) (fill scope' level n)

theorem evalAlike_symbol (name : String) (s : Span) : EvalAlike (.symbol name s) := by
  intro scope scope' h
  rw [eval, eval]
  have hlookup := h.lookup name
  generalize List.lookup name scope = x at hlookup ⊢
  generalize List.lookup name scope' = y at hlookup ⊢
  cases hlookup with
  | none => exact .refuse _
  | some h => exact .done h

theorem evalAlike_sequence (he : ∀ n ∈ ns, EvalAlike n) (hf : ∀ n ∈ ns, FillAlike n) : EvalAlike (.sequence d ns s) := by
  intro scope scope' hs
  unfold eval
  split
  · next h => cases h
  · exact .done (.refl _)
  · next h =>
    cases h
    exact hf _ (by simp) scope scope' 1 hs
  · next names body _ h =>
    cases h
    split
    · exact (alike_bindFresh hs _).bind fun scope scope' hs ↦ he body (by simp) scope scope' hs
    · exact .refuse _
  · exact .refuse _
  · exact .done (.refl _)

theorem alike_fillItems (hf : ∀ n ∈ ns, FillAlike n) (he : ∀ n ∈ ns, ∀ m ∈ n.items?.getD [], EvalAlike m)
    (hs : scope.Alike scope') (level : ℕ) :
    Action.Alike AllAlike (fillItems scope level ns) (fillItems scope' level ns) := by
  induction ns with
  | nil =>
    unfold fillItems
    exact .done .nil
  | cons n ns ih =>
    obtain ⟨hfn, hfns⟩ := List.forall_mem_cons.mp hf
    obtain ⟨hen, hens⟩ := List.forall_mem_cons.mp he
    have hrest := ih hfns hens
    unfold fillItems
    split
    · next h => cases h
    · exact .refuse _
    · next h =>
      cases h
      refine (hen _ (List.mem_cons_of_mem _ (List.mem_cons_self ..)) scope scope' hs).bind fun m m' hm ↦ ?_
      refine (alike_splice hm).bind fun items items' hitems ↦ ?_
      exact hrest.bind fun ms ms' hms ↦ .done (List.rel_append hitems hms)
    · next h =>
      cases h
      refine (hfn scope scope' _ hs).bind fun m m' hm ↦ ?_
      exact hrest.bind fun ms ms' hms ↦ .done (.cons hm hms)

theorem fillAlike_sequence (hf : ∀ n ∈ ns, FillAlike n) (he : ∀ n ∈ ns, EvalAlike n)
    (hitems : ∀ n ∈ ns, ∀ m ∈ n.items?.getD [], EvalAlike m) : FillAlike (.sequence d ns s) := by
  intro scope scope' level hs
  have hmark : ∀ head operand level', operand ∈ ns →
      Action.Alike Node.Alike (do return Node.form [head, ← fill scope level' operand] s)
        (do return Node.form [head, ← fill scope' level' operand] s) := by
    intro head operand level' hmem
    refine (hf operand hmem scope scope' level' hs).bind fun m m' hm ↦ .done ?_
    exact AllAlike.form (.cons (.refl head) (.cons hm .nil)) s s
  unfold fill
  split
  · split
    · exact he _ (by simp) scope scope' hs
    · exact hmark _ _ _ (by simp)
  · split
    · exact .refuse _
    · exact hmark _ _ _ (by simp)
  · exact hmark _ _ _ (by simp)
  · exact (alike_fillItems hf hitems hs level).bind fun ms ms' hms ↦ .done (hms.sequence _ s s)

theorem evalAlike_and_fillAlike (n : Node) : EvalAlike n ∧ FillAlike n := by
  refine induct_eval_fill evalAlike_symbol (fun value s scope scope' _ ↦ ?_) (fun n hn scope scope' level _ ↦ ?_)
    (fun _ _ _ ↦ evalAlike_sequence) (fun _ _ _ ↦ fillAlike_sequence) n
  · unfold eval
    exact .done (.refl _)
  · rw [fill_of_leaf hn, fill_of_leaf hn]
    exact .done (.refl _)

theorem alike_bind (p : Params) {args args' : List Node} (h : AllAlike args args') (s s' : Span) :
    Scope.Alike (p.bind args s) (p.bind args' s') := by
  refine List.rel_reverse (List.rel_append ?_ ?_)
  · generalize p.required = names
    induction h generalizing names with
    | nil => simp
    | cons h _ ih =>
      cases names with
      | nil => exact .nil
      | cons name names => exact .cons ⟨rfl, h⟩ (ih names)
  · rw [List.forall₂_map_left_iff, List.forall₂_map_right_iff]
    exact List.forall₂_same.mpr fun name _ ↦ ⟨rfl, AllAlike.form (List.forall₂_drop _ h) s s'⟩

end Template

inductive MacroOutput.Alike : MacroOutput → MacroOutput → Prop
  | form {n m : Node} (h : n.Alike m) : Alike (.form n) (.form m)
  | verbatim {n m : Node} (h : n.Alike m) : Alike (.verbatim n) (.verbatim m)

/-- The macro asks and answers alike when it is called alike. -/
def Expander.IgnoresSpans (e : Expander) : Prop :=
  ∀ module n m args args', n.Alike m → AllAlike args args' →
    Action.Alike MacroOutput.Alike (e ⟨module, n, args⟩) (e ⟨module, m, args'⟩)

theorem Template.ignoresSpans (t : Template) : t.expander.IgnoresSpans := by
  intro module n m args args' _ hargs
  unfold expander
  dsimp only
  rw [hargs.length_eq]
  split
  · have hbody := (evalAlike_and_fillAlike t.body).1 _ _ (alike_bind t.params hargs n.span m.span)
    exact hbody.bind fun a b hab ↦ .done (.form hab)
  · exact .refuse _

namespace Core

variable {n m value value' step step' : Node} {ns ms args args' : List Node} {s s' : Span} {renames renames' : Scope}

theorem alike_block (h : AllAlike ns ms) (s s' : Span) : (block ns s).Alike (block ms s') := by
  have hblock : ∀ {ns ms : List Node}, AllAlike ns ms →
      (Node.form (.symbol "do" s :: ns) s).Alike (.form (.symbol "do" s' :: ms) s') :=
    fun h ↦ AllAlike.form (.cons rfl h) s s'
  cases h with
  | nil => exact hblock .nil
  | cons h hrest =>
    cases hrest with
    | nil => exact h
    | cons h' hrest => exact hblock (.cons h (.cons h' hrest))

theorem alike_atLeastOne (name module : String) (n m : Node) (h : AllAlike args args') :
    Action.Alike (fun p q ↦ p.1.Alike q.1 ∧ AllAlike p.2 q.2) (atLeastOne name ⟨module, n, args⟩)
      (atLeastOne name ⟨module, m, args'⟩) := by
  cases h with
  | nil => exact .refuse _
  | cons h hrest => exact .done ⟨h, hrest⟩

theorem ignoresSpans_when : Expander.IgnoresSpans expandWhen := by
  intro module n m args args' _ hargs
  refine (alike_atLeastOne "when" module n m hargs).bind fun p q ⟨htest, hbody⟩ ↦ .done (.form ?_)
  exact AllAlike.form (.cons (Node.alike_symbol_symbol "if" _ _) (.cons htest (.cons (alike_block hbody _ _)
    (.cons (Node.alike_symbol_symbol "None" _ _) .nil)))) _ _

theorem ignoresSpans_unless : Expander.IgnoresSpans expandUnless := by
  intro module n m args args' _ hargs
  refine (alike_atLeastOne "unless" module n m hargs).bind fun p q ⟨htest, hbody⟩ ↦ .done (.form ?_)
  exact AllAlike.form (.cons (Node.alike_symbol_symbol "if" _ _) (.cons htest
    (.cons (Node.alike_symbol_symbol "None" _ _) (.cons (alike_block hbody _ _) .nil)))) _ _

theorem alike_foldl {thread : Node → Node → Node}
    (h : ∀ value value' step step', value.Alike value' → step.Alike step' → (thread value step).Alike (thread value' step'))
    (hvalue : value.Alike value') (hsteps : AllAlike ns ms) : (ns.foldl thread value).Alike (ms.foldl thread value') := by
  induction hsteps generalizing value value' with
  | nil => exact hvalue
  | cons hstep _ ih => exact ih (h _ _ _ _ hvalue hstep)

theorem ignoresSpans_thread {thread : Node → Node → Node} (name : String)
    (h : ∀ value value' step step', value.Alike value' → step.Alike step' →
      (thread value step).Alike (thread value' step')) :
    (expandThread name thread).IgnoresSpans := by
  intro module n m args args' _ hargs
  exact (alike_atLeastOne name module n m hargs).bind fun p q ⟨hvalue, hsteps⟩ ↦ .done (.form (alike_foldl h hvalue hsteps))

theorem alike_thread {thread : Node → Node → Node} {put : Node → List Node → List Node}
    (hcall : ∀ value head args s, thread value (.sequence .paren (head :: args) s) = .form (head :: put value args) s)
    (hother : ∀ value n, (∀ head args s, n ≠ .sequence .paren (head :: args) s) → thread value n = .form [n, value] n.span)
    (hput : ∀ value value' args args', value.Alike value' → AllAlike args args' →
      AllAlike (put value args) (put value' args'))
    (hv : value.Alike value') (hs : step.Alike step') : (thread value step).Alike (thread value' step') := by
  by_cases h : ∃ head args s, step = .sequence .paren (head :: args) s
  · obtain ⟨head, args, s, rfl⟩ := h
    obtain ⟨ms, s', rfl, hitems⟩ := Node.alike_sequence.mp hs
    cases hitems with
    | cons hhead hargs =>
      rw [hcall, hcall]
      exact AllAlike.form (.cons hhead (hput _ _ _ _ hv hargs)) s s'
  · have h' : ∀ head args s, step' ≠ .sequence .paren (head :: args) s := by
      rintro head args s rfl
      obtain ⟨ns, s', rfl, hitems⟩ := Node.alike_sequence.mp hs.symm
      cases hitems with
      | cons _ _ => exact h ⟨_, _, s', rfl⟩
    rw [hother _ _ fun head args s he ↦ h ⟨head, args, s, he⟩, hother _ _ h']
    exact AllAlike.form (.cons hs (.cons hv .nil)) _ _

theorem alike_threadFirst (hv : value.Alike value') (hs : step.Alike step') :
    (threadFirst value step).Alike (threadFirst value' step') := by
  have hother : ∀ value n, (∀ head args s, n ≠ .sequence .paren (head :: args) s) →
      threadFirst value n = .form [n, value] n.span := by
    intro value n hn
    rw [threadFirst]
    exact hn
  exact alike_thread (fun _ _ _ _ ↦ rfl) hother
    (fun _ _ _ _ hv hargs ↦ .cons hv hargs) hv hs

theorem alike_threadLast (hv : value.Alike value') (hs : step.Alike step') :
    (threadLast value step).Alike (threadLast value' step') := by
  have hother : ∀ value n, (∀ head args s, n ≠ .sequence .paren (head :: args) s) →
      threadLast value n = .form [n, value] n.span := by
    intro value n hn
    rw [threadLast]
    exact hn
  exact alike_thread (fun _ _ _ _ ↦ rfl) hother (fun _ _ _ _ hv hargs ↦ List.rel_append hargs (.cons hv .nil)) hv hs

theorem alike_rename (hr : renames.Alike renames') (h : n.Alike m) : (rename renames n).Alike (rename renames' m) := by
  induction h using Node.Alike.induct with
  | symbol name s s' =>
    unfold rename
    have hlookup := hr.lookup name
    generalize List.lookup name renames = x at hlookup ⊢
    generalize List.lookup name renames' = y at hlookup ⊢
    cases hlookup with
    | none => rfl
    | some h => exact h
  | literal l s s' => rfl
  | sequence d ns ms s s' h ih =>
    unfold rename
    rw [(h.sequence d s s').isCallTo_eq]
    split
    · exact h.sequence d s s'
    · rw [renameAll_eq_map, renameAll_eq_map]
      refine AllAlike.sequence ?_ d s s'
      rw [AllAlike, List.forall₂_map_left_iff, List.forall₂_map_right_iff]
      exact ih.imp fun _ _ ih ↦ ih.snd

theorem alike_freshNames (hr : renames.Alike renames') (h : AllAlike ns ms) :
    Action.Alike Scope.Alike (freshNames renames ns) (freshNames renames' ms) := by
  induction h generalizing renames renames' with
  | nil => exact .done hr
  | cons h _ ih =>
    induction h using Node.Alike.elim with
    | symbol name s s' => exact .fresh name fun n ↦ ih (hr.cons name n)
    | literal l s s' => exact .refuse _
    | sequence d ns ms s s' h =>
      simp only [freshNames, (h.sequence d s s').text_eq]
      exact .refuse _

theorem ignoresSpans_withGensyms : Expander.IgnoresSpans expandWithGensyms := by
  intro module n m args args' _ hargs
  refine (alike_atLeastOne "with-gensyms" module n m hargs).bind fun p q ⟨hnames, hbody⟩ ↦ ?_
  have hitems := hnames.itemsIn? .bracket
  dsimp only
  generalize p.1.itemsIn? .bracket = x at hitems ⊢
  generalize q.1.itemsIn? .bracket = y at hitems ⊢
  cases hitems with
  | none => exact .refuse _
  | some hitems =>
    refine (alike_freshNames .nil hitems).bind fun renames renames' hr ↦ .done (.form (alike_block ?_ _ _))
    rw [renameAll_eq_map, renameAll_eq_map, AllAlike, List.forall₂_map_left_iff, List.forall₂_map_right_iff]
    exact hbody.imp fun _ _ ↦ alike_rename hr

theorem ignoresSpans_of_table {name : String} {b : MacroBinding} (h : table.getMangled? name = some b) :
    b.expander.IgnoresSpans :=
  forall_table ignoresSpans_when ignoresSpans_unless (ignoresSpans_thread "->" fun _ _ _ _ ↦ alike_threadFirst)
    (ignoresSpans_thread "->>" fun _ _ _ _ ↦ alike_threadLast) ignoresSpans_withGensyms h

end Core

theorem AnyTemplateOrCore.ignoresSpans {e : Expander} (h : AnyTemplateOrCore e) : e.IgnoresSpans := by
  cases h with
  | template t => exact t.ignoresSpans
  | core hb => exact Core.ignoresSpans_of_table hb

structure Step.Alike (s s' : Step) : Prop where
  name : s.name = s'.name
  provenance : s.provenance = s'.provenance
  input : s.input.Alike s'.input
  output : s.output.Alike s'.output

structure Expanded.Alike (e e' : Expanded) : Prop where
  node : e.node.Alike e'.node
  verbatim : e.verbatim = e'.verbatim

abbrev ExpandAlike {α : Type} (R : α → α → Prop) (p q : ExpandM α) : Prop :=
  Process.Alike Step.Alike ExpansionError.Alike R p q

namespace Expansion

variable {x : Expansion} {n m : Node} {ns ms : List Node} {mode : Mode} {fuel steps level : ℕ}

theorem callee?_eq (x : Expansion) (h : n.Alike m) : x.callee? n = x.callee? m := by
  rw [callee?, callee?, h.head?_eq]

theorem blame_alike (b : MacroBinding) (h : n.Alike m) {why why' : Failure} (hwhy : why.Alike why') :
    (blame b n why).Alike (blame b m why') := by
  cases hwhy with
  | message text => exact ⟨rfl, rfl, rfl, h⟩
  | expansion he => exact he

theorem invoke_alike {b : MacroBinding} (hb : b.expander.IgnoresSpans) (h : n.Alike m)
    {nested nested' : Bool → Node → ExpandM Node}
    (hnested : ∀ once n m, n.Alike m → ExpandAlike Node.Alike (nested once n) (nested' once m)) :
    ExpandAlike MacroOutput.Alike (invoke nested b n) (invoke nested' b m) := by
  have hargs : AllAlike ((n.form?.getD []).drop 1) ((m.form?.getD []).drop 1) := by
    refine List.forall₂_drop 1 ?_
    have hitems := h.itemsIn? .paren
    unfold Node.form?
    generalize n.itemsIn? .paren = x at hitems ⊢
    generalize m.itemsIn? .paren = y at hitems ⊢
    cases hitems with
    | none => exact .nil
    | some h => exact h
  exact ((hb _ _ _ _ _ h hargs).run hnested).mapError fun _ _ ↦ blame_alike b h

theorem stepLimit_alike (limit : ℕ) (h : n.Alike m) :
    ExpansionError.Alike (.stepLimit limit n) (.stepLimit limit m) := by
  refine ⟨rfl, rfl, ?_, h⟩
  unfold ExpansionError.message
  dsimp only
  rw [h.text_eq]

section IgnoresSpans

variable (hx : ∀ name p b, x.lookup name = some (p, b) → b.expander.IgnoresSpans)

include hx

theorem head_alike (h : n.Alike m) : ExpandAlike Expanded.Alike (x.head fuel mode steps n) (x.head fuel mode steps m) := by
  induction fuel generalizing mode steps n m with
  | zero => exact .unfinished
  | succ fuel ih =>
    have hcallee := x.callee?_eq h
    rcases hn : x.callee? n with _ | ⟨provenance, b⟩
    · rw [head_of_callee_none hn, head_of_callee_none (hcallee ▸ hn)]
      exact .pure ⟨h, rfl⟩
    · have hb : b.expander.IgnoresSpans := by
        obtain ⟨head, -, hlookup⟩ := Option.bind_eq_some_iff.mp hn
        exact hx _ _ _ hlookup
      rw [head_of_callee hn, head_of_callee (hcallee ▸ hn)]
      split
      · exact .throw (stepLimit_alike _ h)
      · have hnested : ∀ once n m, n.Alike m → ExpandAlike Node.Alike (x.nested fuel once n) (x.nested fuel once m) :=
          fun once n m h ↦ (ih h).map fun _ _ ↦ Expanded.Alike.node
        refine (invoke_alike hb h hnested).bind fun out out' hout ↦ ?_
        cases hout with
        | form hout =>
          have hplaced := hout.placedAt n.span m.span
          refine (Process.Alike.record ⟨rfl, rfl, h, hplaced⟩).bind_eq fun _ ↦ ?_
          split
          · exact .pure ⟨hplaced, rfl⟩
          · exact ih hplaced
        | verbatim hvalue =>
          unfold proceed
          dsimp only
          split
          · exact .pure ⟨hvalue, rfl⟩
          · exact .pure ⟨h, rfl⟩

end IgnoresSpans

theorem exists_mark {P : Node → Node → Prop} {head : String} {hs : Span} {operand : Node}
    (h : List.Forall₂ (fun n m ↦ ∃ _ : n.Alike m, P n m) [.symbol head hs, operand] ms) :
    ∃ hs' operand', ms = [.symbol head hs', operand'] ∧ operand.Alike operand' ∧ P operand operand' := by
  cases h with
  | cons hhead hrest =>
    obtain ⟨hhead, -⟩ := hhead
    obtain ⟨hs', rfl⟩ := Node.alike_symbol.mp hhead
    cases hrest with
    | cons hoperand hrest =>
      obtain ⟨hoperand, hP⟩ := hoperand
      cases hrest
      exact ⟨hs', _, rfl, hoperand, hP⟩

theorem isMark_iff (h : AllAlike ns ms) (d : Delimiter) : Template.IsMark d ns ↔ Template.IsMark d ms := by
  have hto : ∀ {ns ms : List Node}, AllAlike ns ms → Template.IsMark d ns → Template.IsMark d ms := by
    rintro ns ms h ⟨head, hs, operand, rfl, rfl⟩
    obtain ⟨hs', operand', rfl, -, -⟩ := exists_mark (P := fun _ _ ↦ True) (h.imp fun _ _ h ↦ ⟨h, trivial⟩)
    exact ⟨head, hs', operand', rfl, rfl⟩
  exact ⟨hto h, hto h.symm⟩

theorem template_alike {expand expand' : Node → ExpandM Node}
    (hexpand : ∀ n m, n.Alike m → ExpandAlike Node.Alike (expand n) (expand' m)) (h : n.Alike m) :
    ExpandAlike Node.Alike (template expand level n) (template expand' level m) := by
  induction h using Node.Alike.induct generalizing level with
  | symbol name s s' =>
    unfold template
    exact .pure rfl
  | literal l s s' =>
    unfold template
    exact .pure rfl
  | sequence d ns ms s s' h ih =>
    by_cases hmark : Template.IsMark d ns
    · obtain ⟨head, hs, operand, rfl, rfl⟩ := hmark
      obtain ⟨hs', operand', rfl, hoperand, ihOperand⟩ :=
        exists_mark (P := fun n m ↦ ∀ level, ExpandAlike Node.Alike (template expand level n) (template expand' level m))
          (ih.imp fun _ _ ih ↦ ⟨ih.fst, fun _ ↦ ih.snd⟩)
      have hform : ∀ m m', m.Alike m' → (Node.form [.symbol head hs, m] s).Alike (.form [.symbol head hs', m'] s') :=
        fun m m' hm ↦ AllAlike.form (.cons (Node.alike_symbol_symbol head hs hs') (.cons hm .nil)) s s'
      simp only [template]
      split
      · split
        · exact (hexpand _ _ hoperand).bind fun m m' hm ↦ .pure (hform m m' hm)
        · exact (ihOperand _).bind fun m m' hm ↦ .pure (hform m m' hm)
      · split <;> exact (ihOperand _).bind fun m m' hm ↦ .pure (hform m m' hm)
    · have hno : ∀ head s operand, d = .paren → ns = [.symbol head s, operand] → False :=
        fun head s operand hd hns ↦ hmark ⟨head, s, operand, hd, hns⟩
      have hno' : ∀ head s operand, d = .paren → ms = [.symbol head s, operand] → False :=
        fun head s operand hd hms ↦ hmark ((isMark_iff h d).mpr ⟨head, s, operand, hd, hms⟩)
      rw [template, template]
      · rw [templateItems_eq_mapM, templateItems_eq_mapM]
        have hitems : ExpandAlike AllAlike (ns.mapM (template expand level)) (ms.mapM (template expand' level)) :=
          .mapM ih fun n m ih ↦ ih.snd
        exact hitems.bind fun ms ms' hms ↦ .pure (hms.sequence d s s')
      · exact hno'
      · exact hno

theorem all_alike (hx : ∀ name p b, x.lookup name = some (p, b) → b.expander.IgnoresSpans) (h : n.Alike m) :
    ExpandAlike Node.Alike (x.all fuel n) (x.all fuel m) := by
  induction fuel generalizing n m with
  | zero => exact .unfinished
  | succ fuel ih =>
    rw [all, all]
    refine (head_alike hx h).bind fun e e' he ↦ ?_
    obtain ⟨n, verbatim⟩ := e
    obtain ⟨m, verbatim'⟩ := e'
    obtain ⟨hnode, rfl⟩ := he
    dsimp only at hnode ⊢
    rw [hnode.isCallTo_eq, hnode.isCallTo_eq]
    split
    · exact .pure hnode
    split
    · exact template_alike (fun _ _ ↦ ih) hnode
    induction hnode using Node.Alike.elim with
    | symbol name s s' => exact .pure rfl
    | literal l s s' => exact .pure rfl
    | sequence d ns ms s s' h =>
      have hitems : ExpandAlike AllAlike (ns.mapM (x.all fuel)) (ms.mapM (x.all fuel)) := .mapM h fun _ _ ↦ ih
      exact hitems.bind fun ms ms' hms ↦ .pure (hms.sequence d s s')

end Expansion

end MacroLisp
