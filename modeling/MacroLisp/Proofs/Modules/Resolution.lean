import MacroLisp.Modules.Resolver
import MacroLisp.Proofs.Modules.Loading

namespace MacroLisp

open Relation (ReflTransGen)
open ModuleStore (Makes Sound Loadable MadeFrom)

variable {s s' t : ModuleStore} {path name : String} {c : String} {cs : List String} {current : Option Value}
  {definitions : Std.TreeMap String ModuleDef}

namespace Resolver

def longerPath (path c : String) : String := if path.isEmpty then c else path ++ "." ++ c

def attempt (longer : String) (current : Option Value) (r : Resolver) : Except NotFound Value × Resolver :=
  if current.all Value.isModule then r.load longer else (.error ⟨longer⟩, r)

def followAttribute (c : String) (cs : List String) (longer : String) (current : Option Value) (r : Resolver) :
    Except ResolveError Value × Resolver :=
  match current with
  | none => (.error ⟨.mangled longer⟩, r)
  | some v =>
    match r.getAttr v c with
    | .ok w => follow cs longer (some w) r
    | .error _ => (.error ⟨.mangled longer⟩, r)

theorem follow_cons (c : String) (cs : List String) (path : String) (current : Option Value) (r : Resolver) :
    follow (c :: cs) path current r =
      match attempt (longerPath path c) current r with
      | (.ok v, r) => follow cs (longerPath path c) (some v) r
      | (.error _, r) => followAttribute c cs (longerPath path c) current r := by
  rw [follow]
  unfold attempt longerPath
  generalize (if path.isEmpty then c else path ++ "." ++ c) = longer
  generalize (if current.all Value.isModule then r.load longer else (.error ⟨longer⟩, r)) = loaded
  rcases loaded with ⟨e | v, r⟩
  · unfold followAttribute
    cases current with
    | none => rfl
    | some v => cases r.getAttr v c <;> rfl
  · rfl

theorem load_eq (r : Resolver) (path : String) :
    r.load path = ((r.store.load path).1.map fun _ ↦ .module path, { r with store := (r.store.load path).2 }) := rfl

theorem attempt_makes (longer : String) (current : Option Value) (r : Resolver) :
    ReflTransGen Makes r.store (attempt longer current r).2.store := by
  unfold attempt
  split
  · exact (ModuleStore.load_makes r.store longer).1
  · exact .refl

theorem follow_makes (cs : List String) (path : String) (current : Option Value) (r : Resolver) :
    ReflTransGen Makes r.store (follow cs path current r).2.store := by
  induction cs generalizing path current r with
  | nil => cases current <;> exact .refl
  | cons c cs ih =>
    have hattempt := attempt_makes (longerPath path c) current r
    rw [follow_cons]
    rcases hresult : attempt (longerPath path c) current r with ⟨e | v, r'⟩
    all_goals rw [hresult] at hattempt
    · refine hattempt.trans ?_
      dsimp only
      unfold followAttribute
      split
      · exact .refl
      · split
        · exact ih ..
        · exact .refl
    · exact hattempt.trans (ih ..)

theorem resolveChain_makes (r : Resolver) (segments : List String) :
    ReflTransGen Makes r.store (r.resolveChain segments).2.store :=
  follow_makes (r.components segments) "" none r

theorem resolveLiteral_makes (r : Resolver) (path : String) :
    ReflTransGen Makes r.store (r.resolveLiteral path).2.store := by
  have hload := (ModuleStore.load_makes r.store path).1
  unfold resolveLiteral
  rw [load_eq]
  cases (r.store.load path).1 <;> exact hload

end Resolver

/-- What modules are asked for: to load one, to resolve a name, or to give an attribute. -/
inductive Request
  | load (path : String)
  | chain (segments : List String)
  | literal (path : String)
  | read (module name : String)
  | readOf (v : Value) (name : String)

def Request.run (mangle : String → String) (s : ModuleStore) : Request → ModuleStore
  | load path => (s.load path).2
  | chain segments => (Resolver.resolveChain ⟨mangle, s⟩ segments).2.store
  | literal path => (Resolver.resolveLiteral ⟨mangle, s⟩ path).2.store
  | read .. | readOf .. => s

theorem Request.run_makes (mangle : String → String) (s : ModuleStore) (q : Request) :
    ReflTransGen Makes s (q.run mangle s) := by
  cases q with
  | load path => exact (s.load_makes path).1
  | chain segments => exact Resolver.resolveChain_makes ⟨mangle, s⟩ segments
  | literal path => exact Resolver.resolveLiteral_makes ⟨mangle, s⟩ path
  | read | readOf => exact .refl

/-- A definition is added or replaced, or a resolver with some mangling makes a request. -/
inductive Operation
  | register (name : String) (d : ModuleDef)
  | ask (mangle : String → String) (q : Request)

def Operation.run (s : ModuleStore) : Operation → ModuleStore
  | register name d => s.register name d
  | ask mangle q => q.run mangle s

theorem Operation.sound_run (h : Sound (fun _ _ ↦ True) s) (op : Operation) : Sound (fun _ _ ↦ True) (op.run s) := by
  cases op with
  | register name d => exact h.register name d
  | ask mangle q => exact h.of_makes (fun _ _ _ ↦ trivial) (q.run_makes mangle s)

theorem Operation.sound_foldl (h : Sound (fun _ _ ↦ True) s) (ops : List Operation) :
    Sound (fun _ _ ↦ True) (ops.foldl run s) := by
  induction ops generalizing s with
  | nil => exact h
  | cons op ops ih => exact ih (op.sound_run h)

/-- After any operations, failed ones included, the loaded modules are those that were made, each once. They are
registered, all modules above them are loaded, and each is an attribute of the one directly above. -/
theorem loaded_modules_after_operations (ops : List Operation) :
    let s := ops.foldl Operation.run .empty
    (∀ path, s.timesCreated path = if s.isLoaded path then 1 else 0) ∧
    (∀ path, s.isLoaded path = true → s.definitions.contains path = true) ∧
    (∀ path rest, s.isLoaded (path ++ "." ++ rest) = true → s.isLoaded path = true) ∧
    ∀ parent child, '.' ∉ child.toList → s.isLoaded (parent ++ "." ++ child) = true →
      s.getAttr parent child = .ok (.module (parent ++ "." ++ child)) := by
  intro s
  have hsound : Sound (fun _ _ ↦ True) s := Operation.sound_foldl (ModuleStore.sound_of_nothing_loaded ∅) ops
  exact ⟨hsound.created, hsound.registered, fun _ _ ↦ hsound.isLoaded_above, fun _ _ ↦ hsound.getAttr_child⟩

namespace Resolver

theorem longerPath_of_ne (h : path ≠ "") (c : String) : longerPath path c = path ++ "." ++ c :=
  if_neg fun hempty ↦ h (String.isEmpty_iff.mp hempty)

theorem attempt_eq_ok (h : MadeFrom definitions s) (mangle : String → String)
    (hcurrent : current.all Value.isModule = true) (hl : Loadable definitions path) :
    ∃ t, MadeFrom definitions t ∧ t.isLoaded path = true ∧
      attempt path current ⟨mangle, s⟩ = (.ok (.module path), ⟨mangle, t⟩) := by
  obtain ⟨hmakes, hloaded⟩ := s.load_makes path
  have hok := (h.load_ok_iff path).mpr hl
  refine ⟨_, h.of_makes hmakes, hloaded hok, ?_⟩
  rw [attempt, if_pos hcurrent, load_eq, hok]
  rfl

theorem attempt_eq_error (h : MadeFrom definitions s) (mangle : String → String)
    (hno : ¬(current.all Value.isModule = true ∧ Loadable definitions path)) :
    ∃ t e, MadeFrom definitions t ∧ ReflTransGen Makes s t ∧
      attempt path current ⟨mangle, s⟩ = (.error e, ⟨mangle, t⟩) := by
  unfold attempt
  split
  · next hcurrent =>
    obtain ⟨hmakes, -⟩ := s.load_makes path
    obtain ⟨e, he⟩ := h.load_error fun hl ↦ hno ⟨hcurrent, hl⟩
    rw [load_eq, he]
    exact ⟨_, e, h.of_makes hmakes, hmakes, rfl⟩
  · exact ⟨s, ⟨path⟩, h, .refl, rfl⟩

/-- What is reached so far is the module at the path, loaded in both stores, or no module. -/
def ReachedInBoth (s s' : ModuleStore) (path : String) (current : Option Value) : Prop :=
  ∀ m, current = some (.module m) → m = path ∧ s.isLoaded path = true ∧ s'.isLoaded path = true

theorem follow_eq {mangle : String → String}
    (hd : ∀ (path : String) (d : ModuleDef), definitions[path]? = some d → ∀ (name m : String),
      d.create[name]? ≠ some (.module m))
    (h : MadeFrom definitions s) (h' : MadeFrom definitions s') (hcurrent : ReachedInBoth s s' path current) :
    (follow cs path current ⟨mangle, s⟩).1 = (follow cs path current ⟨mangle, s'⟩).1 := by
  induction cs generalizing path current s s' with
  | nil => cases current <;> rfl
  | cons c cs ih =>
    rw [follow_cons, follow_cons]
    by_cases hok : current.all Value.isModule = true ∧ Loadable definitions (longerPath path c)
    · obtain ⟨t, ht, hl, hattempt⟩ := attempt_eq_ok h mangle hok.1 hok.2
      obtain ⟨t', ht', hl', hattempt'⟩ := attempt_eq_ok h' mangle hok.1 hok.2
      rw [hattempt, hattempt']
      refine ih ht ht' fun m hm ↦ ?_
      cases hm
      exact ⟨rfl, hl, hl'⟩
    · obtain ⟨t, e, ht, hst, hattempt⟩ := attempt_eq_error h mangle hok
      obtain ⟨t', e', ht', hst', hattempt'⟩ := attempt_eq_error h' mangle hok
      rw [hattempt, hattempt']
      match current with
      | none => rfl
      | some (.module m) =>
        obtain ⟨rfl, hl, hl'⟩ := hcurrent m rfl
        rw [longerPath_of_ne (h.ne_empty hl)] at hok
        -- No module was loaded at the longer path, so both reads see what the definition says.
        have hno : ∀ {u}, MadeFrom definitions u → u.isLoaded (m ++ "." ++ c) = false :=
          fun hu ↦ by simpa using fun hloaded ↦ hok ⟨rfl, hu.loadable hloaded⟩
        have hget := ht.getAttr_eq (ModuleStore.isLoaded_of_makes hst hl) (hno ht)
        have hget' := ht'.getAttr_eq (ModuleStore.isLoaded_of_makes hst' hl') (hno ht')
        simp only [followAttribute, getAttr, hget, hget']
        cases hv : definitions[m]?.bind fun d ↦ d.create[c]? with
        | none => rfl
        | some v =>
          obtain ⟨d, hdef, hname⟩ := Option.bind_eq_some_iff.mp hv
          refine ih ht ht' fun m' hm' ↦ ?_
          cases hm'
          exact absurd hname (hd m d hdef c m')
      | some .none | some (.int _) | some (.float _) | some (.string _) | some (.function _) => rfl

theorem resolveLiteral_eq {mangle : String → String} (h : MadeFrom definitions s) (h' : MadeFrom definitions s')
    (path : String) : (resolveLiteral ⟨mangle, s⟩ path).1 = (resolveLiteral ⟨mangle, s'⟩ path).1 := by
  unfold resolveLiteral
  rw [load_eq, load_eq]
  by_cases hl : Loadable definitions path
  · rw [(h.load_ok_iff path).mpr hl, (h'.load_ok_iff path).mpr hl]
    rfl
  · obtain ⟨e, he⟩ := h.load_error hl
    obtain ⟨e', he'⟩ := h'.load_error hl
    rw [he, he']
    rfl

end Resolver

theorem ModuleStore.MadeFrom.of_requests (h : MadeFrom definitions s) (history : List ((String → String) × Request)) :
    MadeFrom definitions (history.foldl (fun s (mangle, q) ↦ q.run mangle s) s) := by
  induction history generalizing s with
  | nil => exact h
  | cons step history ih => exact ih (h.of_makes (step.2.run_makes step.1 s))

/-- Two stores that requests lead to from the same definitions, of which none holds a module, give the same answer to
every qualified name. -/
theorem resolution_ignores_history {definitions : Std.TreeMap String ModuleDef}
    (hd : ∀ (path : String) (d : ModuleDef), definitions[path]? = some d → ∀ (name m : String),
      d.create[name]? ≠ some (.module m))
    (history history' : List ((String → String) × Request)) (mangle : String → String) :
    let s := history.foldl (fun s (mangle, q) ↦ q.run mangle s) ⟨definitions, ∅, ∅⟩
    let s' := history'.foldl (fun s (mangle, q) ↦ q.run mangle s) ⟨definitions, ∅, ∅⟩
    (∀ segments, (Resolver.resolveChain ⟨mangle, s⟩ segments).1 = (Resolver.resolveChain ⟨mangle, s'⟩ segments).1) ∧
    ∀ path, (Resolver.resolveLiteral ⟨mangle, s⟩ path).1 = (Resolver.resolveLiteral ⟨mangle, s'⟩ path).1 := by
  intro s s'
  have hstart : MadeFrom definitions ⟨definitions, ∅, ∅⟩ := ⟨rfl, ModuleStore.sound_of_nothing_loaded definitions⟩
  have hs : MadeFrom definitions s := hstart.of_requests history
  have hs' : MadeFrom definitions s' := hstart.of_requests history'
  have hnone : Resolver.ReachedInBoth s s' "" none := by
    intro m hm
    cases hm
  exact ⟨fun segments ↦ Resolver.follow_eq hd hs hs' hnone, fun path ↦ Resolver.resolveLiteral_eq hs hs' path⟩

/-- A submodule hides an attribute of the same name, whether it was loaded before or not. -/
theorem resolution_ignores_history_of_submodule :
    let definitions := ((∅ : Std.TreeMap String ModuleDef).insert "a" (.ofList [("b", .int 1)])).insert "a.b" (.ofList [])
    let s := ModuleStore.mk definitions ∅ ∅
    let s' := [(id, .literal "a.b"), (id, .chain ["a", "b", "c"])].foldl (fun s (mangle, q) ↦ Request.run mangle s q) s
    (Resolver.resolveChain ⟨id, s⟩ ["a/b"]).1 = (Resolver.resolveChain ⟨id, s'⟩ ["a/b"]).1 ∧
      (Resolver.resolveChain ⟨id, s'⟩ ["a/b"]).1 = .ok (.module "a.b") := by
  intro definitions s s'
  have hd : ∀ (path : String) (d : ModuleDef), definitions[path]? = some d → ∀ (name m : String),
      d.create[name]? ≠ some (.module m) := by
    intro path d hd name m hm
    simp only [definitions, Std.TreeMap.getElem?_insert] at hd
    split at hd
    · cases hd
      simp [ModuleDef.create, ModuleDef.ofList] at hm
    split at hd
    · cases hd
      simp [ModuleDef.create, ModuleDef.ofList, Std.TreeMap.getElem?_insert] at hm
    · cases hd
  exact ⟨(resolution_ignores_history hd [] [(id, .literal "a.b"), (id, .chain ["a", "b", "c"])] id).1 ["a/b"],
    by decide +kernel⟩

end MacroLisp
