import MacroLisp.Expansion.Core
import MacroLisp.Expansion.Template
import MacroLisp.Name.Fresh
import MacroLisp.Proofs.Node.Bare
import MacroLisp.Proofs.Node.Subnodes
import Mathlib.Data.Set.Insert
import Std.Data.TreeMap.Lemmas

namespace MacroLisp

variable {D D' : Set String}

namespace Node

variable {n : Node} {ns : List Node} {d : Delimiter} {s : Span} {name : String}

/-- No generated name occurs in the node. -/
def Plain (n : Node) : Prop := ∀ name, n.Mentions name → NameSupply.isReserved name = false

/-- Every generated name in the node is one of `D`. -/
def Known (D : Set String) (n : Node) : Prop := ∀ name, n.Mentions name → NameSupply.isReserved name = true → name ∈ D

/-- Every name in the node is one of `D`. -/
def Within (D : Set String) (n : Node) : Prop := n.AllNames (· ∈ D)

theorem Known.mono (h : n.Known D) (hD : D ⊆ D') : n.Known D' := fun name hm hr ↦ hD (h name hm hr)

theorem Within.mono (h : n.Within D) (hD : D ⊆ D') : n.Within D' := AllNames.mono h fun _ hname ↦ hD hname

@[simp] theorem within_symbol : (symbol name s).Within D ↔ name ∈ D := allNames_symbol

@[simp] theorem within_sequence : (sequence d ns s).Within D ↔ ∀ n ∈ ns, n.Within D := allNames_sequence

@[simp] theorem within_form : (form ns s).Within D ↔ ∀ n ∈ ns, n.Within D := within_sequence

@[simp] theorem within_placedAt : (n.placedAt s).Within D ↔ n.Within D := allNames_placedAt

theorem Plain.known (h : n.Plain) : n.Known D := fun name hm hr ↦ by simp [h name hm] at hr

@[simp] theorem known_sequence : (sequence d ns s).Known D ↔ ∀ n ∈ ns, n.Known D := allNames_sequence

@[simp] theorem known_form : (form ns s).Known D ↔ ∀ n ∈ ns, n.Known D := known_sequence

@[simp] theorem known_placedAt : (n.placedAt s).Known D ↔ n.Known D := by
  simp [Known]

@[simp] theorem plain_symbol : (symbol name s).Plain ↔ NameSupply.isReserved name = false := by
  simp [Plain]

@[simp] theorem plain_literal {l : Literal} : (literal l s).Plain := fun _ hm ↦ absurd hm not_mentions_literal

@[simp] theorem plain_sequence : (sequence d ns s).Plain ↔ ∀ n ∈ ns, n.Plain := allNames_sequence

@[simp] theorem plain_form : (form ns s).Plain ↔ ∀ n ∈ ns, n.Plain := plain_sequence

end Node

namespace Action

variable {α β : Type} {Q : Set String → α → Prop} {R : Set String → β → Prop} {a : Action α} {f : α → Action β}

/-- The action asks for nothing but fresh symbols. Whatever names these get, it ends in `Q`, which may speak of
all names given out by then, or it gives up. -/
def Draws (Q : Set String → α → Prop) : Action α → Set String → Prop
  | done a, D => Q D a
  | fail _, _ => True
  | fresh _ next, D => ∀ name, (next (.symbol name .nowhere)).Draws Q (insert name D)
  | expand .., _ => False
  | resolve .., _ => False

theorem Draws.bind (h : a.Draws Q D) (hf : ∀ D' x, D ⊆ D' → Q D' x → (f x).Draws R D') : (a >>= f).Draws R D := by
  induction a generalizing D with
  | done x => exact hf D x subset_rfl h
  | fail why => trivial
  | fresh hint next ih =>
    intro name
    exact ih _ (h name) fun D' x hD ↦ hf D' x ((Set.subset_insert name D).trans hD)
  | expand once form next => exact h.elim
  | resolve query next => exact h.elim

theorem draws_refuse (text : String) : (refuse text : Action α).Draws Q D := trivial

end Action

def Scope.Within (D : Set String) (scope : Scope) : Prop := ∀ p ∈ scope, p.2.Within D

theorem Scope.Within.mono {scope : Scope} (h : scope.Within D) (hD : D ⊆ D') : Scope.Within D' scope :=
  fun p hp ↦ (h p hp).mono hD

theorem Scope.Within.cons_fresh {scope : Scope} (h : scope.Within D) (key name : String) :
    Scope.Within (insert name D) ((key, .symbol name .nowhere) :: scope) :=
  List.forall_mem_cons.mpr ⟨Node.within_symbol.mpr (Set.mem_insert name D), h.mono (Set.subset_insert name D)⟩

theorem Scope.Within.lookup {scope : Scope} {name : String} {n : Node} (h : scope.Within D)
    (hn : List.lookup name scope = some n) : n.Within D := by
  obtain ⟨before, after, rfl, -⟩ := List.lookup_eq_some_iff.mp hn
  exact h (name, n) (by simp)

namespace Template

variable {scope : Scope} {n m : Node} {ns : List Node} {d : Delimiter} {s : Span} {level : Nat}

theorem fill_of_leaf (h : n.items? = none) : fill scope level n = pure n := by
  cases n with
  | symbol | literal =>
    unfold fill
    rfl
  | sequence => cases h

/-- Evaluating and filling go down a body together. The operand of a splice is two levels below the sequence that
is filled. -/
theorem induct_eval_fill {E F : Node → Prop} (symbol : ∀ name s, E (.symbol name s))
    (literal : ∀ value s, E (.literal value s))
    (leaf : ∀ n, n.items? = none → F n)
    (eval : ∀ d ns s, (∀ n ∈ ns, E n) → (∀ n ∈ ns, F n) → E (.sequence d ns s))
    (fill : ∀ d ns s, (∀ n ∈ ns, F n) → (∀ n ∈ ns, E n) → (∀ n ∈ ns, ∀ m ∈ n.items?.getD [], E m) → F (.sequence d ns s))
    (n : Node) : E n ∧ F n := by
  have hall : E n ∧ F n ∧ ∀ m ∈ n.items?.getD [], E m := by
    induction n using Node.induct with
    | symbol name s => exact ⟨symbol name s, leaf _ rfl, by simp [Node.items?]⟩
    | literal value s => exact ⟨literal value s, leaf _ rfl, by simp [Node.items?]⟩
    | sequence d ns s ih =>
      refine ⟨eval d ns s (fun n hn ↦ (ih n hn).1) fun n hn ↦ (ih n hn).2.1,
        fill d ns s (fun n hn ↦ (ih n hn).2.1) (fun n hn ↦ (ih n hn).1) fun n hn ↦ (ih n hn).2.2, ?_⟩
      exact fun m hm ↦ (ih m hm).1
  exact ⟨hall.1, hall.2.1⟩

theorem draws_bindFresh (hs : scope.Within D) (names : List Node) :
    (bindFresh scope names).Draws (fun D scope ↦ Scope.Within D scope) D := by
  induction names generalizing scope D with
  | nil => exact hs
  | cons n names ih =>
    cases n with
    | symbol name s => exact fun fresh ↦ ih (hs.cons_fresh name fresh)
    | literal value s => exact Action.draws_refuse _
    | sequence d items s => exact Action.draws_refuse _

theorem draws_splice (h : n.Within D) : (splice n).Draws (fun D ns ↦ ∀ n ∈ ns, n.Within D) D := by
  cases n with
  | symbol name s => exact Action.draws_refuse _
  | literal value s => exact Action.draws_refuse _
  | sequence d items s => exact Node.within_sequence.mp h

def EvalWithin (n : Node) : Prop :=
  ∀ D scope, Scope.Within D scope → n.Within D → (eval scope n).Draws (fun D m ↦ m.Within D) D

def FillWithin (n : Node) : Prop :=
  ∀ D scope level, Scope.Within D scope → n.Within D → (fill scope level n).Draws (fun D m ↦ m.Within D) D

theorem evalWithin_symbol (name : String) (s : Span) : EvalWithin (.symbol name s) := by
  intro D scope hs _
  rw [eval]
  split
  · next m hm => exact hs.lookup hm
  · exact Action.draws_refuse _

theorem evalWithin_sequence (he : ∀ n ∈ ns, EvalWithin n) (hf : ∀ n ∈ ns, FillWithin n) :
    EvalWithin (.sequence d ns s) := by
  intro D scope hs hp
  have hwithin := Node.within_sequence.mp hp
  unfold eval
  split
  · next h => cases h
  · next h =>
    cases h
    exact hwithin _ (by simp)
  · next h =>
    cases h
    exact hf _ (by simp) D scope 1 hs (hwithin _ (by simp))
  · next names body _ h =>
    cases h
    split
    · refine (draws_bindFresh hs _).bind fun D' scope' hD hs' ↦ ?_
      exact he body (by simp) D' scope' hs' ((hwithin _ (by simp)).mono hD)
    · exact Action.draws_refuse _
  · exact Action.draws_refuse _
  · exact hp

theorem draws_fillItems (hf : ∀ n ∈ ns, FillWithin n) (he : ∀ n ∈ ns, ∀ m ∈ n.items?.getD [], EvalWithin m)
    {D : Set String} (hp : ∀ n ∈ ns, n.Within D) (hs : scope.Within D) (level : Nat) :
    (fillItems scope level ns).Draws (fun D ms ↦ ∀ m ∈ ms, m.Within D) D := by
  induction ns generalizing D with
  | nil =>
    unfold fillItems
    exact fun m hm ↦ absurd hm List.not_mem_nil
  | cons n ns ih =>
    obtain ⟨hfn, hfns⟩ := List.forall_mem_cons.mp hf
    obtain ⟨hen, hens⟩ := List.forall_mem_cons.mp he
    obtain ⟨hpn, hpns⟩ := List.forall_mem_cons.mp hp
    unfold fillItems
    split
    · next h => cases h
    · exact Action.draws_refuse _
    · next h =>
      cases h
      have hoperand := Node.within_sequence.mp hpn _ (List.mem_cons_of_mem _ (List.mem_cons_self ..))
      refine (hen _ (List.mem_cons_of_mem _ (List.mem_cons_self ..)) D scope hs hoperand).bind fun D' m hD hm ↦ ?_
      refine (draws_splice hm).bind fun D'' items hD' hitems ↦ ?_
      have hsub := hD.trans hD'
      refine (ih hfns hens (fun n hn ↦ (hpns n hn).mono hsub) (hs.mono hsub)).bind fun D₃ ms hD'' hms ↦ ?_
      exact List.forall_mem_append.mpr ⟨fun m hm ↦ (hitems m hm).mono hD'', hms⟩
    · next h =>
      cases h
      refine (hfn D scope _ hs hpn).bind fun D' m hD hm ↦ ?_
      refine (ih hfns hens (fun n hn ↦ (hpns n hn).mono hD) (hs.mono hD)).bind fun D'' ms hD' hms ↦ ?_
      exact List.forall_mem_cons.mpr ⟨hm.mono hD', hms⟩

theorem fillWithin_sequence (hf : ∀ n ∈ ns, FillWithin n) (he : ∀ n ∈ ns, EvalWithin n)
    (hitems : ∀ n ∈ ns, ∀ m ∈ n.items?.getD [], EvalWithin m) : FillWithin (.sequence d ns s) := by
  intro D scope level hs hp
  have hwithin := Node.within_sequence.mp hp
  have hmark : ∀ head hs' operand level', ns = [.symbol head hs', operand] →
      (do return Node.form [.symbol head hs', ← fill scope level' operand] s : Action Node).Draws
        (fun D m ↦ m.Within D) D := by
    rintro head hs' operand level' rfl
    refine (hf operand (by simp) D scope level' hs (hwithin _ (by simp))).bind fun D' m hD hm ↦ ?_
    have hhead : head ∈ D := Node.within_symbol.mp (hwithin (.symbol head hs') (by simp))
    exact Node.within_form.mpr (by simpa using ⟨hD hhead, hm⟩)
  unfold fill
  split
  · split
    · exact he _ (by simp) D scope hs (hwithin _ (by simp))
    · exact hmark _ _ _ _ rfl
  · split
    · exact Action.draws_refuse _
    · exact hmark _ _ _ _ rfl
  · exact hmark _ _ _ _ rfl
  · exact (draws_fillItems hf hitems hwithin hs level).bind fun D' ms _ hms ↦ Node.within_sequence.mpr hms

theorem evalWithin_and_fillWithin (n : Node) : EvalWithin n ∧ FillWithin n := by
  refine induct_eval_fill evalWithin_symbol (fun value s D scope _ hp ↦ ?_) (fun n hn D scope level _ hp ↦ ?_)
    (fun _ _ _ ↦ evalWithin_sequence) (fun _ _ _ ↦ fillWithin_sequence) n
  · unfold eval
    exact hp
  · rwa [fill_of_leaf hn]

end Template

def MacroOutput.Within (D : Set String) (out : MacroOutput) : Prop := ∃ n, out = .form n ∧ n.Within D

/-- A macro that draws nothing but symbols when it is called, and answers with a form. The names in it are those of
the arguments, of the symbols drawn, and of `T`. -/
def Expander.Brings (T : Set String) (e : Expander) : Prop :=
  ∀ D call, T ⊆ D → (∀ a ∈ call.args, a.Within D) → (e call).Draws (fun D out ↦ out.Within D) D

theorem Expander.Brings.mono {T T' : Set String} {e : Expander} (h : e.Brings T) (hT : T ⊆ T') : e.Brings T' :=
  fun D call hD ↦ h D call (hT.trans hD)

theorem Template.brings (t : Template) : t.expander.Brings {name | t.body.Mentions name} := by
  intro D call hbody hargs
  unfold expander
  split
  · have hscope : Scope.Within D (t.params.bind call.args call.form.span) := by
      intro p hp
      rcases List.mem_append.mp (List.mem_reverse.mp hp) with hp | hp
      · exact hargs p.2 (List.of_mem_zip hp).2
      · obtain ⟨name, -, rfl⟩ := List.mem_map.mp hp
        exact Node.within_form.mpr fun n hn ↦ hargs n (List.mem_of_mem_drop hn)
    have heval := (evalWithin_and_fillWithin t.body).1 D _ hscope fun name hm ↦ hbody hm
    exact heval.bind fun D' m _ hm ↦ ⟨m, rfl, hm⟩
  · exact Action.draws_refuse _

namespace Core

variable {n : Node} {ns : List Node} {s : Span} {renames : List (String × Node)}

def own : Set String := {"if", "do", "None"}

theorem mem_of_own_subset (h : own ⊆ D) : "if" ∈ D ∧ "do" ∈ D ∧ "None" ∈ D := by
  simpa [own, Set.insert_subset_iff] using h

theorem within_block (hown : own ⊆ D) (h : ∀ n ∈ ns, n.Within D) (s : Span) : (block ns s).Within D := by
  unfold block
  split
  · exact h _ (List.mem_singleton_self _)
  · exact Node.within_form.mpr (List.forall_mem_cons.mpr ⟨Node.within_symbol.mpr (mem_of_own_subset hown).2.1, h⟩)

theorem draws_atLeastOne {call : MacroCall} (h : ∀ a ∈ call.args, a.Within D) (name : String) :
    (atLeastOne name call).Draws (fun D p ↦ p.1.Within D ∧ ∀ n ∈ p.2, n.Within D) D := by
  unfold atLeastOne
  split
  · next hargs => exact List.forall_mem_cons.mp (hargs ▸ h)
  · exact Action.draws_refuse _

theorem brings_when : Expander.Brings own expandWhen := by
  intro D call hown hargs
  refine (draws_atLeastOne hargs "when").bind fun D' p hD ⟨htest, hbody⟩ ↦ ⟨_, rfl, ?_⟩
  obtain ⟨hif, -, hnone⟩ := mem_of_own_subset (hown.trans hD)
  simpa using ⟨hif, htest, within_block (hown.trans hD) hbody _, hnone⟩

theorem brings_unless : Expander.Brings own expandUnless := by
  intro D call hown hargs
  refine (draws_atLeastOne hargs "unless").bind fun D' p hD ⟨htest, hbody⟩ ↦ ⟨_, rfl, ?_⟩
  obtain ⟨hif, -, hnone⟩ := mem_of_own_subset (hown.trans hD)
  simpa using ⟨hif, htest, hnone, within_block (hown.trans hD) hbody _⟩

theorem brings_thread {thread : Node → Node → Node} (name : String)
    (h : ∀ D value step, value.Within D → step.Within D → (thread value step).Within D) :
    (expandThread name thread).Brings own := by
  intro D call _ hargs
  refine (draws_atLeastOne hargs name).bind fun D' p _ ⟨hvalue, hsteps⟩ ↦ ⟨_, rfl, ?_⟩
  exact List.foldlRecOn p.2 thread hvalue fun value hv step hs ↦ h D' value step hv (hsteps step hs)

theorem within_threadFirst {D : Set String} {value step : Node} (hv : value.Within D) (hs : step.Within D) :
    (threadFirst value step).Within D := by
  unfold threadFirst
  split
  · obtain ⟨hhead, hargs⟩ := List.forall_mem_cons.mp (Node.within_sequence.mp hs)
    exact Node.within_form.mpr (List.forall_mem_cons.mpr ⟨hhead, List.forall_mem_cons.mpr ⟨hv, hargs⟩⟩)
  · exact Node.within_form.mpr (by simpa using ⟨hs, hv⟩)

theorem within_threadLast {D : Set String} {value step : Node} (hv : value.Within D) (hs : step.Within D) :
    (threadLast value step).Within D := by
  unfold threadLast
  split
  · have hitems := Node.within_sequence.mp hs
    exact Node.within_form.mpr (List.forall_mem_append.mpr ⟨hitems, by simpa using hv⟩)
  · exact Node.within_form.mpr (by simpa using ⟨hs, hv⟩)

theorem within_rename (hr : Scope.Within D renames) (h : n.Within D) : (rename renames n).Within D := by
  induction n using Node.induct with
  | symbol name s =>
    unfold rename
    cases hl : renames.lookup name with
    | none => exact h
    | some m => exact hr.lookup hl
  | literal value s => exact h
  | sequence d items s ih =>
    unfold rename
    split
    · exact h
    · rw [renameAll_eq_map]
      have hitems := Node.within_sequence.mp h
      exact Node.within_sequence.mpr (List.forall_mem_map.mpr fun m hm ↦ ih m hm (hitems m hm))

theorem draws_freshNames {D : Set String} (hr : Scope.Within D renames) (names : List Node) :
    (freshNames renames names).Draws (fun D renames ↦ Scope.Within D renames) D := by
  induction names generalizing renames D with
  | nil => exact hr
  | cons n names ih =>
    cases n with
    | symbol name s => exact fun fresh ↦ ih (hr.cons_fresh name fresh)
    | literal value s => exact Action.draws_refuse _
    | sequence d items s => exact Action.draws_refuse _

theorem brings_withGensyms : Expander.Brings own expandWithGensyms := by
  intro D call hown hargs
  refine (draws_atLeastOne hargs "with-gensyms").bind fun D' p hD ⟨_, hbody⟩ ↦ ?_
  dsimp only
  split
  · refine (draws_freshNames (fun p hp ↦ absurd hp List.not_mem_nil) _).bind fun D'' renames hD' hr ↦ ⟨_, rfl, ?_⟩
    rw [renameAll_eq_map]
    refine within_block (hown.trans (hD.trans hD')) (List.forall_mem_map.mpr fun m hm ↦ ?_) _
    exact within_rename hr ((hbody m hm).mono hD')
  · exact Action.draws_refuse _

theorem forall_table {P : Expander → Prop} (hwhen : P expandWhen) (hunless : P expandUnless)
    (hfirst : P (expandThread "->" threadFirst)) (hlast : P (expandThread "->>" threadLast))
    (hgensyms : P expandWithGensyms)
    {name : String} {b : MacroBinding} (h : table.getMangled? name = some b) : P b.expander := by
  simp only [table, List.foldl, MacroTable.install, MacroTable.insert, MacroTable.binding, MacroTable.new,
    MacroTable.getMangled?, Std.TreeMap.getElem?_insert] at h
  split at h
  · cases h
    exact hgensyms
  split at h
  · cases h
    exact hlast
  split at h
  · cases h
    exact hfirst
  split at h
  · cases h
    exact hunless
  split at h
  · cases h
    exact hwhen
  · simp at h

theorem brings_of_table {name : String} {b : MacroBinding} (h : table.getMangled? name = some b) :
    b.expander.Brings own :=
  forall_table brings_when brings_unless (brings_thread "->" fun _ _ _ ↦ within_threadFirst)
    (brings_thread "->>" fun _ _ _ ↦ within_threadLast) brings_withGensyms h

end Core

def MacroOutput.Known (D : Set String) (out : MacroOutput) : Prop := ∃ n, out = .form n ∧ n.Known D

/-- A macro that draws nothing but symbols when it is called, and answers with a known form if the call is
known. -/
def Expander.DrawsKnown (e : Expander) : Prop :=
  ∀ D call, call.form.Known D → (∀ a ∈ call.args, a.Known D) → (e call).Draws (fun D out ↦ out.Known D) D

def knownNames (D : Set String) : Set String := {name | NameSupply.isReserved name = true → name ∈ D}

theorem insert_knownNames_subset (name : String) (D : Set String) :
    insert name (knownNames D) ⊆ knownNames (insert name D) := by
  rintro name' (rfl | h) hr
  · exact Set.mem_insert _ _
  · exact Set.mem_insert_of_mem _ (h hr)

theorem Action.Draws.known {α : Type} {Q : Set String → α → Prop} {a : Action α} {E : Set String}
    (hQ : ∀ D D' x, D ⊆ D' → Q D x → Q D' x) (h : a.Draws Q E) (hE : E ⊆ knownNames D) :
    a.Draws (fun D x ↦ Q (knownNames D) x) D := by
  induction a generalizing D E with
  | done x => exact hQ _ _ x hE h
  | fail why => trivial
  | fresh hint next ih =>
    exact fun name ↦ ih _ (h name) ((Set.insert_subset_insert hE).trans (insert_knownNames_subset name D))
  | expand once form next => exact h.elim
  | resolve query next => exact h.elim

theorem Expander.Brings.drawsKnown {T : Set String} {e : Expander} (h : e.Brings T)
    (hT : ∀ name ∈ T, NameSupply.isReserved name = false) : e.DrawsKnown := by
  intro D call _ hargs
  have hsub : T ⊆ knownNames D := fun name hname hr ↦ by simp [hT name hname] at hr
  exact (h (knownNames D) call hsub hargs).known (fun D D' out hD ⟨n, hout, hn⟩ ↦ ⟨n, hout, hn.mono hD⟩) subset_rfl

theorem Template.drawsKnown (t : Template) (h : t.body.Plain) : t.expander.DrawsKnown := t.brings.drawsKnown h

theorem Core.drawsKnown_of_table {name : String} {b : MacroBinding} (h : table.getMangled? name = some b) :
    b.expander.DrawsKnown := by
  refine (brings_of_table h).drawsKnown fun name hname ↦ ?_
  rcases hname with rfl | rfl | rfl <;> decide

end MacroLisp
