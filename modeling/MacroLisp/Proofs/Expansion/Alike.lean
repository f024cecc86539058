import MacroLisp.Proofs.Expansion.Fuel
import MacroLisp.Proofs.Node.Alike

namespace MacroLisp

variable {ω ω' ε ε' α β : Type}

inductive Results (E : ε → ε → Prop) (R : α → α → Prop) : Except ε α → Except ε α → Prop
  | ok {a b : α} (h : R a b) : Results E R (.ok a) (.ok b)
  | error {e e' : ε} (h : E e e') : Results E R (.error e) (.error e')

structure Outcome.Alike (L : ω → ω → Prop) (E : ε → ε → Prop) (R : α → α → Prop) (o o' : Outcome ω ε α) : Prop where
  result : Results E R o.result o'.result
  log : List.Forall₂ L o.log o'.log
  world : o.world = o'.world

/-- From any world, both processes come to outcomes that correspond, or neither comes to one. -/
def Process.Alike (L : ω → ω → Prop) (E : ε → ε → Prop) (R : α → α → Prop) (p q : Process ω ε α) : Prop :=
  ∀ w, Option.Rel (Outcome.Alike L E R) (p w) (q w)

variable {L : ω → ω → Prop} {L' : ω' → ω' → Prop} {E : ε → ε → Prop} {E' : ε' → ε' → Prop} {R R' : α → α → Prop}
  {S : β → β → Prop}

theorem Results.map {r r' : Except ε α} (h : Results E R r r') {f g : α → β} (hf : ∀ a b, R a b → S (f a) (g b)) :
    Results E S (r.map f) (r'.map g) := by
  cases h with
  | ok h => exact .ok (hf _ _ h)
  | error h => exact .error h

theorem Results.mapError {r r' : Except ε α} (h : Results E R r r') {f g : ε → ε'}
    (hf : ∀ e e', E e e' → E' (f e) (g e')) : Results E' R (r.mapError f) (r'.mapError g) := by
  cases h with
  | ok h => exact .ok h
  | error h => exact .error (hf _ _ h)

namespace Process.Alike

variable {p q : Process ω ε α}

theorem pure {a b : α} (h : R a b) : Alike L E R (Pure.pure a) (Pure.pure b) :=
  fun _ ↦ .some ⟨.ok h, .nil, rfl⟩

theorem throw {e e' : ε} (h : E e e') : Alike L E R (.throw e) (.throw e') :=
  fun _ ↦ .some ⟨.error h, .nil, rfl⟩

theorem unfinished : Alike L E R .unfinished .unfinished := fun _ ↦ .none

theorem record {entry entry' : ω} (h : L entry entry') : Alike L E Eq (.record entry) (.record entry') :=
  fun _ ↦ .some ⟨.ok rfl, .cons h .nil, rfl⟩

theorem freshName (hint : String) : Alike L E Eq (.freshName hint) (.freshName hint) :=
  fun _ ↦ .some ⟨.ok rfl, .nil, rfl⟩

theorem resolve (query : Query) : Alike L E Eq (.resolve query) (.resolve query) := by
  intro w
  unfold Process.resolve
  split <;> exact .some ⟨.ok rfl, .nil, rfl⟩

theorem of_map (h : Alike L E R p q) {f g : Outcome ω ε α → Outcome ω' ε' β}
    (hf : ∀ o o', Outcome.Alike L E R o o' → Outcome.Alike L' E' S (f o) (g o')) :
    Alike L' E' S (fun w ↦ (p w).map f) (fun w ↦ (q w).map g) := by
  intro w
  have hw := h w
  dsimp only
  generalize p w = x at hw ⊢
  generalize q w = y at hw ⊢
  cases hw with
  | none => exact .none
  | some ho => exact .some (hf _ _ ho)

theorem bind (h : Alike L E R p q) {f g : α → Process ω ε β} (hf : ∀ a b, R a b → Alike L E S (f a) (g b)) :
    Alike L E S (p >>= f) (q >>= g) := by
  intro w
  change Option.Rel _ (Process.bind p f w) (Process.bind q g w)
  unfold Process.bind
  have hw := h w
  generalize p w = x at hw ⊢
  generalize q w = y at hw ⊢
  cases hw with
  | none => exact .none
  | @some o o' ho =>
    obtain ⟨r, log, s⟩ := o
    obtain ⟨r', log', s'⟩ := o'
    obtain ⟨hresult, hlog, rfl⟩ := ho
    cases hresult with
    | error he => exact .some ⟨.error he, hlog, rfl⟩
    | ok hab =>
      refine (hf _ _ hab).of_map (fun o o' ho ↦ ?_) s
      exact ⟨ho.result, List.rel_append hlog ho.log, ho.world⟩

theorem bind_eq (h : Alike L E Eq p q) {f g : α → Process ω ε β} (hf : ∀ a, Alike L E S (f a) (g a)) :
    Alike L E S (p >>= f) (q >>= g) := by
  refine h.bind fun a b hab ↦ ?_
  subst hab
  exact hf a

theorem map (h : Alike L E R p q) {f g : α → β} (hf : ∀ a b, R a b → S (f a) (g b)) : Alike L E S (f <$> p) (g <$> q) := by
  rw [map_eq_pure_bind, map_eq_pure_bind]
  exact h.bind fun a b hab ↦ .pure (hf a b hab)

theorem imp (h : Alike L E R p q) (hR : ∀ a b, R a b → R' a b) : Alike L E R' p q := by
  have hmap := h.map (f := id) (g := id) hR
  rwa [id_map, id_map] at hmap

theorem mapM {T : α → α → Prop} {f g : α → Process ω ε β} {as bs : List α} (has : List.Forall₂ T as bs)
    (h : ∀ a b, T a b → Alike L E S (f a) (g b)) : Alike L E (List.Forall₂ S) (as.mapM f) (bs.mapM g) := by
  induction has with
  | nil => exact .pure .nil
  | cons hab _ ih =>
    rw [List.mapM_cons, List.mapM_cons]
    exact (h _ _ hab).bind fun c d hcd ↦ ih.bind fun cs ds hcds ↦ .pure (.cons hcd hcds)

theorem mapError (h : Alike L E R p q) {f g : ε → ε'} (hf : ∀ e e', E e e' → E' (f e) (g e')) :
    Alike L E' R (p.mapError f) (q.mapError g) :=
  h.of_map fun _ _ ho ↦ ⟨ho.result.mapError hf, ho.log, ho.world⟩

theorem quietly (h : Alike L E R p q) : Alike L' E' (Results E R) p.quietly q.quietly :=
  h.of_map fun _ _ ho ↦ ⟨.ok ho.result, .nil, ho.world⟩

theorem collect (h : Alike L E R p q) :
    Alike L' E (fun a b ↦ R a.1 b.1 ∧ List.Forall₂ L a.2 b.2) p.collect q.collect := by
  refine h.of_map fun o o' ho ↦ ⟨?_, .nil, ho.world⟩
  exact ho.result.map fun _ _ hab ↦ ⟨hab, ho.log⟩

end Process.Alike

/-- Errors of one kind with one message, about trees that are the same. -/
structure ExpansionError.Alike (e e' : ExpansionError) : Prop where
  code : e.code = e'.code
  macroName : e.macroName? = e'.macroName?
  message : e.message = e'.message
  form : e.form.Alike e'.form

inductive Failure.Alike : Failure → Failure → Prop
  | message (text : String) : Alike (.message text) (.message text)
  | expansion {e e' : ExpansionError} (h : e.Alike e') : Alike (.expansion e) (.expansion e')

/-- Actions that ask the same, and go on alike when the answers are. -/
inductive Action.Alike (R : α → α → Prop) : Action α → Action α → Prop
  | done {a b : α} (h : R a b) : Alike R (.done a) (.done b)
  | fail {why why' : Failure} (h : why.Alike why') : Alike R (.fail why) (.fail why')
  | fresh (hint : String) {next next' : Node → Action α} (h : ∀ n, Alike R (next n) (next' n)) :
      Alike R (.fresh hint next) (.fresh hint next')
  | expand (once : Bool) {n m : Node} {next next' : Except ExpansionError Node → Action α} (hform : n.Alike m)
      (h : ∀ r r', Results ExpansionError.Alike Node.Alike r r' → Alike R (next r) (next' r')) :
      Alike R (.expand once n next) (.expand once m next')
  | resolve (query : Query) {next next' : Except String Value → Action α} (h : ∀ r, Alike R (next r) (next' r)) :
      Alike R (.resolve query next) (.resolve query next')

namespace Action.Alike

variable {a b : Action α}

theorem refuse (text : String) : Alike R (Action.refuse text) (Action.refuse text) := .fail (.message text)

theorem bind (h : Alike R a b) {f g : α → Action β} (hf : ∀ x y, R x y → Alike S (f x) (g y)) :
    Alike S (a >>= f) (b >>= g) := by
  induction h with
  | done h => exact hf _ _ h
  | fail h => exact .fail h
  | fresh hint _ ih => exact .fresh hint ih
  | expand once hform _ ih => exact .expand once hform ih
  | resolve query _ ih => exact .resolve query ih

theorem run (h : Alike R a b) {nested nested' : Bool → Node → Process ω ExpansionError Node}
    (hnested : ∀ once n m, n.Alike m → Process.Alike L ExpansionError.Alike Node.Alike (nested once n) (nested' once m)) :
    Process.Alike L Failure.Alike R (a.run nested) (b.run nested') := by
  induction h with
  | done h => exact .pure h
  | fail h => exact .throw h
  | fresh hint _ ih =>
    have hgensym : Process.Alike L Failure.Alike Eq (.gensym hint) (.gensym hint) :=
      (Process.Alike.freshName hint).bind_eq fun name ↦ .pure rfl
    exact hgensym.bind_eq ih
  | expand once hform _ ih => exact (hnested once _ _ hform).quietly.bind ih
  | resolve query _ ih => exact (Process.Alike.resolve query).bind_eq ih

end Action.Alike

end MacroLisp
