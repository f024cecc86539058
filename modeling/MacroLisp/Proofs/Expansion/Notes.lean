import MacroLisp.Proofs.Expansion.Draws
import MacroLisp.Proofs.Expansion.Fuel

namespace MacroLisp

inductive Event
  /-- A fresh symbol got its name while a macro answered the call. -/
  | drew (call : Node) (name : String)
  | stepped (s : Step)
  /-- A tree came out of a walk or of a whole expansion. -/
  | built (n : Node)

namespace Event

def name? : Event → Option String
  | drew _ name => some name
  | _ => none

def step? : Event → Option Step
  | stepped s => some s
  | _ => none

def tree? : Event → Option Node
  | stepped s => some s.output
  | built n => some n
  | drew .. => none

end Event

abbrev Noted (ε α : Type) := Process Event (Option ε) α

variable {ε ε' α β : Type}

def Outcome.forget (o : Outcome Event (Option ε) α) : Option (Outcome Step ε α) :=
  match o.result with
  | .ok a => some ⟨.ok a, o.log.filterMap Event.step?, o.world⟩
  | .error (some e) => some ⟨.error e, o.log.filterMap Event.step?, o.world⟩
  | .error none => none

/-- Up to the notes both processes do the same. -/
def Notes (p : Noted ε α) (q : Process Step ε α) : Prop := ∀ w, q w = (p w).bind Outcome.forget

namespace Notes

variable {p : Noted ε α} {q : Process Step ε α}

theorem pure (a : α) : Notes (Pure.pure a : Noted ε α) (Pure.pure a) := fun _ ↦ rfl

theorem throw (e : ε) : Notes (.throw (some e) : Noted ε α) (.throw e) := fun _ ↦ rfl

theorem unfinished : Notes (.throw none : Noted ε α) .unfinished := fun _ ↦ rfl

theorem freshName (hint : String) : Notes (.freshName hint : Noted ε String) (.freshName hint) := fun _ ↦ rfl

theorem stepped (s : Step) : Notes (.record (.stepped s) : Noted ε Unit) (.record s) := fun _ ↦ rfl

theorem bind (h : Notes p q) {f : α → Noted ε β} {g : α → Process Step ε β} (hf : ∀ a, Notes (f a) (g a)) :
    Notes (p >>= f) (q >>= g) := by
  intro w
  have hq := h w
  change Process.bind q g w = (Process.bind p f w).bind Outcome.forget
  rcases hp : p w with _ | ⟨(_ | e) | a, log, w'⟩ <;> rw [hp] at hq
  · simp [Process.bind, hp, show q w = none from hq]
  · simp [Process.bind, hp, show q w = none from hq, Outcome.forget]
  · simp [Process.bind, hp, show q w = some ⟨.error e, _, w'⟩ from hq, Outcome.forget]
  · simp only [Process.bind, hp, show q w = some ⟨.ok a, log.filterMap Event.step?, w'⟩ from hq, hf a w']
    rcases f a w' with _ | ⟨(_ | e) | b, log', w''⟩ <;> simp [Outcome.forget]

theorem record_bind {e : Event} (he : e.step? = none) (h : Notes p q) : Notes (.record e >>= fun _ ↦ p) q := by
  have hrecord : Notes (.record e : Noted ε Unit) (Pure.pure ()) := fun w ↦ by simp [Process.record, Outcome.forget, he]
  have hbind := hrecord.bind fun _ ↦ h
  rwa [pure_bind] at hbind

theorem mapError (h : Notes p q) (f : ε → ε') : Notes (p.mapError (Option.map f)) (q.mapError f) := by
  intro w
  simp only [Process.mapError, h w]
  rcases p w with _ | ⟨(_ | e) | a, log, w'⟩ <;> rfl

theorem mapM {f : α → Noted ε β} {g : α → Process Step ε β} (as : List α) (h : ∀ a ∈ as, Notes (f a) (g a)) :
    Notes (as.mapM f) (as.mapM g) := by
  induction as with
  | nil => exact .pure []
  | cons a as ih =>
    obtain ⟨ha, has⟩ := List.forall_mem_cons.mp h
    rw [List.mapM_cons, List.mapM_cons]
    exact ha.bind fun b ↦ (ih has).bind fun bs ↦ .pure (b :: bs)

end Notes

/-- Answers the questions for fresh symbols, and notes the names. There is no answer to other questions. -/
def Action.note (call : Node) : Action α → Noted Failure α
  | done a => pure a
  | fail why => .throw (some why)
  | fresh hint next => do
    let name ← .freshName hint
    .record (.drew call name)
    note call (next (.symbol name .nowhere))
  | expand .. => .throw none
  | resolve .. => .throw none

theorem Action.Draws.notes {a : Action α} {Q : Set String → α → Prop} {D : Set String} (h : a.Draws Q D) (call : Node)
    (nested : Bool → Node → ExpandM Node) : Notes (a.note call) (a.run nested) := by
  induction a generalizing D with
  | done a => exact .pure a
  | fail why => exact .throw why
  | fresh hint next ih =>
    have hrun : (fresh hint next).run nested =
        Process.freshName hint >>= fun name ↦ (next (.symbol name .nowhere)).run nested := by
      rw [Action.run, Process.gensym, bind_assoc]
      simp only [pure_bind]
    rw [hrun]
    exact (Notes.freshName hint).bind fun name ↦ .record_bind rfl (ih _ (h name))
  | expand once form next => exact h.elim
  | resolve query next => exact h.elim

namespace Expansion

variable (x : Expansion)

def noteInvoke (b : MacroBinding) (form : Node) : Noted ExpansionError MacroOutput :=
  ((b.expander ⟨b.module, form, (form.form?.getD []).drop 1⟩).note form).mapError (Option.map (blame b form))

def noteHead : Nat → Mode → Nat → Node → Noted ExpansionError Expanded
  | 0, _, _, _ => .throw none
  | fuel + 1, mode, steps, tree =>
    match x.callee? tree with
    | none => return ⟨tree, false⟩
    | some (provenance, b) =>
      match x.limit.filter (· ≤ steps) with
      | some limit => .throw (some (.stepLimit limit tree))
      | none => do
        match ← noteInvoke b tree with
        | .form output =>
          .record (.stepped ⟨b.name, provenance, tree, output.placedAt tree.span⟩)
          if mode.once then return ⟨output.placedAt tree.span, false⟩
          else noteHead fuel mode (steps + 1) (output.placedAt tree.span)
        | .verbatim value => if mode.keepsVerbatim then return ⟨value, true⟩ else return ⟨tree, false⟩

section Template

variable (expand : Node → Noted ExpansionError Node)

mutual

def noteTemplate : Nat → Node → Noted ExpansionError Node
  | level, .sequence .paren [.symbol h s, operand] span =>
    if h = "unquote" ∨ h = "unquote-splice" then
      if level = 1 then return .form [.symbol h s, ← expand operand] span
      else return .form [.symbol h s, ← noteTemplate (level - 1) operand] span
    else if h = "quasiquote" then return .form [.symbol h s, ← noteTemplate (level + 1) operand] span
    else return .form [.symbol h s, ← noteTemplate level operand] span
  | level, .sequence d items span => return .sequence d (← noteTemplateItems level items) span
  | _, n => return n

def noteTemplateItems : Nat → List Node → Noted ExpansionError (List Node)
  | _, [] => return []
  | level, n :: ns => return (← noteTemplate level n) :: (← noteTemplateItems level ns)

end

def noteParts (expanded : Expanded) : Noted ExpansionError Node :=
  if expanded.verbatim || expanded.node.isCallTo "quote" then return expanded.node
  else if expanded.node.isCallTo "quasiquote" then noteTemplate expand 0 expanded.node
  else match expanded.node with
    | .sequence d items span => do return .sequence d (← items.mapM expand) span
    | n => return n

end Template

def noteBuilt (n : Node) : Noted ExpansionError Node := do
  .record (.built n)
  return n

/-- The result for every node that the walk comes to is noted. -/
def noteAll : Nat → Node → Noted ExpansionError Node
  | 0, _ => .throw none
  | fuel + 1, n => do
    let expanded ← x.noteHead fuel .value 0 n
    let result ← noteParts (noteAll fuel) expanded
    noteBuilt result

def noteMacroexpand (fuel : Nat) (n : Node) : Noted ExpansionError Node := do
  let expanded ← x.noteHead fuel .full 0 n
  noteBuilt expanded.node

variable {x}

theorem notes_invoke {b : MacroBinding} (hb : b.expander.DrawsKnown) (form : Node)
    (nested : Bool → Node → ExpandM Node) : Notes (noteInvoke b form) (invoke nested b form) := by
  have huniv : ∀ n : Node, n.Known Set.univ := fun _ _ _ _ ↦ trivial
  exact ((hb Set.univ _ (huniv _) fun a _ ↦ huniv a).notes form nested).mapError _

theorem notes_head (hx : ∀ name p b, x.lookup name = some (p, b) → b.expander.DrawsKnown) (fuel : Nat) (mode : Mode)
    (steps : Nat) (tree : Node) : Notes (x.noteHead fuel mode steps tree) (x.head fuel mode steps tree) := by
  induction fuel generalizing steps tree with
  | zero => exact .unfinished
  | succ fuel ih =>
    rw [noteHead]
    rcases hc : x.callee? tree with _ | ⟨provenance, b⟩
    · rw [head_of_callee_none hc]
      exact .pure _
    · have hb : b.expander.DrawsKnown := by
        obtain ⟨head, -, hlookup⟩ := Option.bind_eq_some_iff.mp hc
        exact hx _ _ _ hlookup
      rw [head_of_callee hc]
      rcases x.limit.filter (· ≤ steps) with _ | limit
      · refine (notes_invoke hb tree _).bind fun out ↦ ?_
        cases out with
        | verbatim value =>
          unfold proceed
          dsimp only
          split <;> exact .pure _
        | form output =>
          refine (Notes.stepped _).bind fun _ ↦ ?_
          split
          · exact .pure _
          · exact ih _ _
      · exact .throw _

theorem noteTemplateItems_eq_mapM (expand : Node → Noted ExpansionError Node) (level : Nat) (ns : List Node) :
    noteTemplateItems expand level ns = ns.mapM (noteTemplate expand level) := by
  induction ns with
  | nil => rfl
  | cons n ns ih => rw [noteTemplateItems, List.mapM_cons, ih]

theorem templateItems_eq_mapM (expand : Node → ExpandM Node) (level : Nat) (ns : List Node) :
    templateItems expand level ns = ns.mapM (template expand level) := by
  induction ns with
  | nil => rfl
  | cons n ns ih => rw [templateItems, List.mapM_cons, ih]

theorem notes_template {expand : Node → Noted ExpansionError Node} {expand' : Node → ExpandM Node}
    (h : ∀ n, Notes (expand n) (expand' n)) (level : Nat) (n : Node) :
    Notes (noteTemplate expand level n) (template expand' level n) := by
  induction n using Node.induct generalizing level with
  | symbol name s =>
    unfold noteTemplate template
    exact .pure _
  | literal value s =>
    unfold noteTemplate template
    exact .pure _
  | sequence d items span ih =>
    by_cases hshape : ∃ head s operand, d = .paren ∧ items = [.symbol head s, operand]
    · obtain ⟨head, s, operand, rfl, rfl⟩ := hshape
      have hoperand := ih operand (by simp)
      simp only [noteTemplate, template]
      split
      · split
        · exact (h operand).bind fun m ↦ .pure _
        · exact (hoperand _).bind fun m ↦ .pure _
      · split <;> exact (hoperand _).bind fun m ↦ .pure _
    · have hno : ∀ head s operand, d = .paren → items = [.symbol head s, operand] → False :=
        fun head s operand hd hitems ↦ hshape ⟨head, s, operand, hd, hitems⟩
      rw [noteTemplate, template]
      · rw [noteTemplateItems_eq_mapM, templateItems_eq_mapM]
        exact (Notes.mapM items fun n hn ↦ ih n hn level).bind fun ms ↦ .pure _
      · exact hno
      · exact hno

theorem notes_built (n : Node) : Notes (noteBuilt n) (pure n) := .record_bind rfl (.pure n)

theorem notes_parts {expand : Node → Noted ExpansionError Node} {expand' : Node → ExpandM Node}
    (h : ∀ n, Notes (expand n) (expand' n)) (e : Expanded) :
    Notes (noteParts expand e)
      (if e.verbatim || e.node.isCallTo "quote" then return e.node
      else if e.node.isCallTo "quasiquote" then template expand' 0 e.node
      else match e.node with
        | .sequence d items span => do return .sequence d (← items.mapM expand') span
        | n => return n) := by
  unfold noteParts
  split
  · exact .pure _
  split
  · exact notes_template h 0 _
  split
  · exact (Notes.mapM _ fun n _ ↦ h n).bind fun ms ↦ .pure _
  · exact .pure _

theorem notes_all (hx : ∀ name p b, x.lookup name = some (p, b) → b.expander.DrawsKnown) (fuel : Nat) (n : Node) :
    Notes (x.noteAll fuel n) (x.all fuel n) := by
  induction fuel generalizing n with
  | zero => exact .unfinished
  | succ fuel ih =>
    rw [noteAll, all]
    refine (notes_head hx fuel .value 0 n).bind fun expanded ↦ ?_
    have hbind := (notes_parts ih expanded).bind notes_built
    rwa [bind_pure] at hbind

theorem notes_macroexpand (hx : ∀ name p b, x.lookup name = some (p, b) → b.expander.DrawsKnown) (fuel : Nat)
    (n : Node) : Notes (x.noteMacroexpand fuel n) (x.macroexpand fuel n) :=
  (notes_head hx fuel .full 0 n).bind fun expanded ↦ notes_built expanded.node

end Expansion

end MacroLisp
