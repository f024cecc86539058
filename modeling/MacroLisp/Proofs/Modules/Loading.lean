import MacroLisp.Proofs.Modules.Path
import Mathlib.Data.List.Infix
import Mathlib.Logic.Relation
import Std.Data.TreeMap.Lemmas

namespace MacroLisp.ModuleStore

open Relation (ReflTransGen)

variable {s t : ModuleStore} {p path parent child name : String} {d : ModuleDef} {cs ps : List String}
  {origin : String → ModuleDef → Prop} {definitions : Std.TreeMap String ModuleDef}

def enter (child : String) (parents : List String) (d : ModuleDef) (s : ModuleStore) : ModuleStore :=
  let s := s.create (pathOf (child :: parents)) d
  if parents.isEmpty then s else s.bind (pathOf parents) child (pathOf (child :: parents))

theorem isLoaded_iff : s.isLoaded p = true ↔ ∃ ns, s.loaded[p]? = some ns := by
  rw [isLoaded, Std.TreeMap.contains_eq_isSome_getElem?, Option.isSome_iff_exists]

theorem loaded_create (s : ModuleStore) (path : String) (d : ModuleDef) (p : String) :
    (s.create path d).loaded[p]? = if path = p then some d.create else s.loaded[p]? := by
  simp only [create, Std.TreeMap.getElem?_insert, Std.compare_eq_iff_eq]

theorem timesCreated_create (s : ModuleStore) (path : String) (d : ModuleDef) (p : String) :
    (s.create path d).timesCreated p = if path = p then s.timesCreated path + 1 else s.timesCreated p := by
  simp only [create, timesCreated, Std.TreeMap.getD_insert, Std.compare_eq_iff_eq]

theorem loaded_bind (s : ModuleStore) (parent child path p : String) :
    (s.bind parent child path).loaded[p]? =
      if parent = p then (s.loaded[p]?).map (·.insert child (.module path)) else s.loaded[p]? := by
  unfold bind
  split
  · next ns hns =>
    simp only [Std.TreeMap.getElem?_insert, Std.compare_eq_iff_eq]
    split
    · next h => rw [← h, hns, Option.map_some]
    · rfl
  · next hns =>
    split
    · next h => rw [← h, hns, Option.map_none]
    · rfl

theorem timesCreated_bind (s : ModuleStore) (parent child path p : String) :
    (s.bind parent child path).timesCreated p = s.timesCreated p := by
  unfold bind
  split <;> rfl

theorem definitions_bind (s : ModuleStore) (parent child path : String) :
    (s.bind parent child path).definitions = s.definitions := by
  unfold bind
  split <;> rfl

theorem definitions_enter (child : String) (parents : List String) (d : ModuleDef) (s : ModuleStore) :
    (s.enter child parents d).definitions = s.definitions := by
  unfold enter
  split
  · rfl
  · exact definitions_bind ..

theorem timesCreated_enter (child : String) (parents : List String) (d : ModuleDef) (s : ModuleStore) (p : String) :
    (s.enter child parents d).timesCreated p =
      if pathOf (child :: parents) = p then s.timesCreated p + 1 else s.timesCreated p := by
  have hcreate := timesCreated_create s (pathOf (child :: parents)) d p
  have hcount : (s.enter child parents d).timesCreated p = (s.create (pathOf (child :: parents)) d).timesCreated p := by
    unfold enter
    split
    · rfl
    · exact timesCreated_bind ..
  rw [hcount, hcreate]
  split
  · next h => rw [h]
  · rfl

theorem loaded_enter (child : String) (parents : List String) (d : ModuleDef) (s : ModuleStore) (p : String) :
    (s.enter child parents d).loaded[p]? =
      if pathOf (child :: parents) = p then some d.create
      else if parents ≠ [] ∧ pathOf parents = p then
        (s.loaded[p]?).map (·.insert child (.module (pathOf (child :: parents))))
      else s.loaded[p]? := by
  unfold enter
  cases parents with
  | nil => simp [loaded_create]
  | cons c cs =>
    have hne : pathOf (c :: cs) ≠ pathOf (child :: c :: cs) := by
      rw [pathOf_cons (by simp) child]
      exact (dotted_ne_parent _ _).symm
    simp only [List.isEmpty_cons, Bool.false_eq_true, if_false, loaded_bind, loaded_create, ne_eq, reduceCtorEq,
      not_false_eq_true, true_and]
    by_cases hp : pathOf (c :: cs) = p
    · simp [← hp, hne.symm]
    · simp [hp]

theorem isLoaded_enter (child : String) (parents : List String) (d : ModuleDef) (s : ModuleStore) (p : String) :
    (s.enter child parents d).isLoaded p = true ↔ pathOf (child :: parents) = p ∨ s.isLoaded p = true := by
  simp only [isLoaded_iff, loaded_enter]
  split
  · next h => simp [h]
  · next h =>
    split
    · simp [h]
    · simp [h]

def Makes (s t : ModuleStore) : Prop :=
  ∃ child parents d, (∀ c ∈ child :: parents, c ≠ "" ∧ '.' ∉ c.toList) ∧
    s.isLoaded (pathOf (child :: parents)) = false ∧ (parents ≠ [] → s.isLoaded (pathOf parents) = true) ∧
    s.definitions[pathOf (child :: parents)]? = some d ∧ t = s.enter child parents d

theorem definitions_of_makes (h : ReflTransGen Makes s t) : t.definitions = s.definitions := by
  induction h with
  | refl => rfl
  | tail _ hstep ih =>
    obtain ⟨child, parents, d, -, -, -, -, rfl⟩ := hstep
    rw [definitions_enter, ih]

theorem isLoaded_of_makes (h : ReflTransGen Makes s t) (hp : s.isLoaded p = true) : t.isLoaded p = true := by
  induction h with
  | refl => exact hp
  | tail _ hstep ih =>
    obtain ⟨child, parents, d, -, -, -, -, rfl⟩ := hstep
    exact (isLoaded_enter ..).mpr (.inr ih)

theorem loadComponents_cons (child : String) (parents : List String) (s : ModuleStore) :
    loadComponents (child :: parents) s =
      if s.isLoaded (pathOf (child :: parents)) then (.ok (), s)
      else match loadComponents parents s with
        | (.error e, t) => (.error e, t)
        | (.ok (), t) =>
          match t.definitions[pathOf (child :: parents)]? with
          | none => (.error ⟨pathOf (child :: parents)⟩, t)
          | some d => (.ok (), t.enter child parents d) := rfl

theorem loadComponents_of_isLoaded (hl : s.isLoaded (pathOf cs) = true) : loadComponents cs s = (.ok (), s) := by
  cases cs with
  | nil => rfl
  | cons child parents => rw [loadComponents_cons, if_pos hl]

/-- Loading makes modules, only of the path and those above it, and all of them if it succeeds. -/
theorem loadComponents_makes (hcs : ∀ c ∈ cs, c ≠ "" ∧ '.' ∉ c.toList) :
    ReflTransGen Makes s (loadComponents cs s).2 ∧
    (∀ p, (loadComponents cs s).2.isLoaded p = true → s.isLoaded p = true ∨ ∃ ps, ps <:+ cs ∧ ps ≠ [] ∧ p = pathOf ps) ∧
    ((loadComponents cs s).1 = .ok () → cs ≠ [] → (loadComponents cs s).2.isLoaded (pathOf cs) = true) := by
  induction cs with
  | nil => exact ⟨.refl, fun p hp ↦ .inl hp, fun _ h ↦ absurd rfl h⟩
  | cons child parents ih =>
    obtain ⟨hmakes, hnew, hok⟩ := ih fun c hc ↦ hcs c (List.mem_cons_of_mem child hc)
    have hsuffix : ∀ p, (loadComponents parents s).2.isLoaded p = true →
        s.isLoaded p = true ∨ ∃ ps, ps <:+ child :: parents ∧ ps ≠ [] ∧ p = pathOf ps := by
      intro p hp
      rcases hnew p hp with hp | ⟨ps, hps, hne, rfl⟩
      · exact .inl hp
      · exact .inr ⟨ps, hps.trans (List.suffix_cons child parents), hne, rfl⟩
    rw [loadComponents_cons]
    split
    · next hl => exact ⟨.refl, fun p hp ↦ .inl hp, fun _ _ ↦ hl⟩
    · next hl =>
      rcases hload : loadComponents parents s with ⟨e | u, t⟩
      · rw [hload] at hmakes hsuffix
        exact ⟨hmakes, hsuffix, fun h ↦ by simp at h⟩
      · rw [hload] at hmakes hnew hok hsuffix
        dsimp only at hmakes hnew hok hsuffix ⊢
        split
        · exact ⟨hmakes, hsuffix, fun h ↦ by simp at h⟩
        · next d hd =>
          -- The modules above have shorter paths, so none of them is the one to be made.
          have hfresh : t.isLoaded (pathOf (child :: parents)) = false := by
            by_contra hloaded
            rcases hnew _ (by simpa using hloaded) with h | ⟨ps, hps, hne, he⟩
            · exact hl h
            · have hf := congrArg (Text.fields '.') he
              rw [fields_pathOf (by simp) fun c hc ↦ (hcs c hc).2,
                fields_pathOf hne fun c hc ↦ (hcs c (List.mem_cons_of_mem child (hps.subset hc))).2] at hf
              have hlen := hps.length_le
              rw [← List.reverse_inj.mp hf, List.length_cons] at hlen
              omega
          refine ⟨hmakes.tail ⟨child, parents, d, hcs, hfresh, fun h ↦ hok rfl h, hd, rfl⟩, fun p hp ↦ ?_, fun _ _ ↦ ?_⟩
          · rcases (isLoaded_enter ..).mp hp with rfl | hp
            · exact .inr ⟨_, List.suffix_rfl, by simp, rfl⟩
            · exact hsuffix p hp
          · exact (isLoaded_enter ..).mpr (.inl rfl)

theorem components_of_fields (h : ¬(Text.fields '.' path).any String.isEmpty = true) :
    ∀ c ∈ (Text.fields '.' path).reverse, c ≠ "" ∧ '.' ∉ c.toList := by
  intro c hc
  have hc := List.mem_reverse.mp hc
  refine ⟨?_, dot_not_mem_of_mem_fields hc⟩
  rintro rfl
  exact h (List.any_eq_true.mpr ⟨"", hc, rfl⟩)

theorem load_makes (s : ModuleStore) (path : String) :
    ReflTransGen Makes s (s.load path).2 ∧ ((s.load path).1 = .ok () → (s.load path).2.isLoaded path = true) := by
  unfold load
  dsimp only
  split
  · next hl => exact ⟨.refl, fun _ ↦ hl⟩
  split
  · exact ⟨.refl, fun h ↦ by simp at h⟩
  · next hempty =>
    obtain ⟨hmakes, -, hok⟩ := loadComponents_makes (s := s) (components_of_fields hempty)
    rw [pathOf_fields] at hok
    exact ⟨hmakes, fun h ↦ hok h (by simpa using fields_ne_nil path)⟩

/-- What holds in every store that loading leads to. The definition that a module was made from is one of `origin`. -/
structure Sound (origin : String → ModuleDef → Prop) (s : ModuleStore) : Prop where
  created : ∀ path, s.timesCreated path = if s.isLoaded path then 1 else 0
  registered : ∀ path, s.isLoaded path = true → s.definitions.contains path = true
  named : ∀ path, s.isLoaded path = true → ∀ c ∈ Text.fields '.' path, c ≠ ""
  under : ∀ parent child, '.' ∉ child.toList → s.isLoaded (parent ++ "." ++ child) = true → s.isLoaded parent = true
  /-- The modules directly below a module are its attributes. All others come from its definition. -/
  contents : ∀ path ns, s.loaded[path]? = some ns → ∃ d, origin path d ∧ ∀ name, ns[name]? =
    if '.' ∉ name.toList ∧ s.isLoaded (path ++ "." ++ name) = true then some (.module (path ++ "." ++ name))
    else d.create[name]?

theorem sound_of_nothing_loaded (definitions : Std.TreeMap String ModuleDef) : Sound origin ⟨definitions, ∅, ∅⟩ where
  created path := by simp [timesCreated, isLoaded]
  registered path h := by simp [isLoaded] at h
  named path h := by simp [isLoaded] at h
  under parent child _ h := by simp [isLoaded] at h
  contents path ns h := by simp at h

theorem Sound.register (h : Sound origin s) (name : String) (d : ModuleDef) : Sound origin (s.register name d) where
  created := h.created
  registered path hp := by
    rw [ModuleStore.register, Std.TreeMap.contains_insert, h.registered path hp, Bool.or_true]
  named := h.named
  under := h.under
  contents := h.contents

theorem Sound.enter (h : Sound origin s) {parents : List String} (hcs : ∀ c ∈ child :: parents, c ≠ "" ∧ '.' ∉ c.toList)
    (hfresh : s.isLoaded (pathOf (child :: parents)) = false)
    (hparent : parents ≠ [] → s.isLoaded (pathOf parents) = true)
    (hd : s.definitions[pathOf (child :: parents)]? = some d) (ho : origin (pathOf (child :: parents)) d) :
    Sound origin (s.enter child parents d) := by
  have hdot : '.' ∉ child.toList := (hcs child (List.mem_cons_self ..)).2
  constructor
  case created =>
    intro path
    have hc := h.created path
    simp only [timesCreated_enter, isLoaded_enter]
    split
    · next he =>
      subst he
      simp [hc, hfresh]
    · next he => simpa [he] using hc
  case registered =>
    intro path hp
    rw [definitions_enter]
    rcases (isLoaded_enter ..).mp hp with rfl | hp
    · rw [Std.TreeMap.contains_eq_isSome_getElem?, hd, Option.isSome_some]
    · exact h.registered path hp
  case named =>
    intro path hp
    rcases (isLoaded_enter ..).mp hp with rfl | hp
    · rw [fields_pathOf (by simp) fun c hc ↦ (hcs c hc).2]
      exact fun c hc ↦ (hcs c (List.mem_reverse.mp hc)).1
    · exact h.named path hp
  case under =>
    intro parent name hname hp
    rcases (isLoaded_enter ..).mp hp with he | hp
    · obtain ⟨hne, rfl, rfl⟩ := (pathOf_eq_dotted_iff hdot hname).mp he
      exact (isLoaded_enter ..).mpr (.inr (hparent hne))
    · exact (isLoaded_enter ..).mpr (.inr (h.under parent name hname hp))
  case contents =>
    have hbelow : ∀ parent name, '.' ∉ name.toList → ((s.enter child parents d).isLoaded (parent ++ "." ++ name) = true ↔
        (parents ≠ [] ∧ pathOf parents = parent ∧ child = name) ∨ s.isLoaded (parent ++ "." ++ name) = true) := by
      intro parent name hname
      rw [isLoaded_enter, pathOf_eq_dotted_iff hdot hname]
    intro path ns hns
    rw [loaded_enter] at hns
    split at hns
    · next he =>
      obtain rfl := Option.some.inj hns
      refine ⟨d, he ▸ ho, fun name ↦ (if_neg ?_).symm⟩
      rintro ⟨hname, hl⟩
      rcases (hbelow path name hname).mp hl with ⟨hne, rfl, -⟩ | hl
      · rw [pathOf_cons hne] at he
        exact dotted_ne_parent _ _ he
      · have hpath := h.under path name hname hl
        rw [← he, hfresh] at hpath
        cases hpath
    split at hns
    · next hpath =>
      obtain ⟨hne, rfl⟩ := hpath
      obtain ⟨old, hold, rfl⟩ := Option.map_eq_some_iff.mp hns
      obtain ⟨d', ho', hnames⟩ := h.contents _ old hold
      refine ⟨d', ho', fun name ↦ ?_⟩
      simp only [Std.TreeMap.getElem?_insert, Std.compare_eq_iff_eq]
      by_cases hchild : child = name
      · subst hchild
        rw [if_pos rfl, if_pos ⟨hdot, (hbelow _ _ hdot).mpr (.inl ⟨hne, rfl, rfl⟩)⟩, pathOf_cons hne]
      · rw [if_neg hchild, hnames name]
        refine if_congr (and_congr_right fun hname ↦ ?_) rfl rfl
        rw [hbelow _ name hname, or_iff_right fun h ↦ hchild h.2.2]
    · next hpath =>
      obtain ⟨d', ho', hnames⟩ := h.contents path ns hns
      refine ⟨d', ho', fun name ↦ ?_⟩
      rw [hnames name]
      refine if_congr (and_congr_right fun hname ↦ ?_) rfl rfl
      rw [hbelow path name hname, or_iff_right fun h ↦ hpath ⟨h.1, h.2.1⟩]

theorem Sound.of_makes (h : Sound origin s) (ho : ∀ path d, s.definitions[path]? = some d → origin path d)
    (hst : ReflTransGen Makes s t) : Sound origin t := by
  induction hst with
  | refl => exact h
  | tail hst hstep ih =>
    obtain ⟨child, parents, d, hcs, hfresh, hparent, hd, rfl⟩ := hstep
    exact ih.enter hcs hfresh hparent hd (ho _ d (by rwa [← definitions_of_makes hst]))

theorem Sound.isLoaded_suffix (h : Sound origin s) (hcs : ∀ c ∈ cs, '.' ∉ c.toList) (hne : ps ≠ [])
    (hl : s.isLoaded (pathOf (cs ++ ps)) = true) : s.isLoaded (pathOf ps) = true := by
  induction cs with
  | nil => exact hl
  | cons c cs ih =>
    obtain ⟨hc, hcs⟩ := List.forall_mem_cons.mp hcs
    rw [List.cons_append, pathOf_cons (by simp [hne])] at hl
    exact ih hcs (h.under _ c hc hl)

theorem Sound.isLoaded_above (h : Sound origin s) (hl : s.isLoaded (parent ++ "." ++ name) = true) :
    s.isLoaded parent = true := by
  rw [← pathOf_fields (parent ++ "." ++ name), fields_dotted, List.reverse_append] at hl
  have habove := h.isLoaded_suffix (fun c hc ↦ dot_not_mem_of_mem_fields (List.mem_reverse.mp hc))
    (by simpa using fields_ne_nil parent) hl
  rwa [pathOf_fields] at habove

theorem Sound.getAttr_child (h : Sound origin s) (hdot : '.' ∉ child.toList)
    (hl : s.isLoaded (parent ++ "." ++ child) = true) :
    s.getAttr parent child = .ok (.module (parent ++ "." ++ child)) := by
  obtain ⟨ns, hns⟩ := isLoaded_iff.mp (h.under parent child hdot hl)
  obtain ⟨d, -, hnames⟩ := h.contents parent ns hns
  have hchild := hnames child
  rw [if_pos ⟨hdot, hl⟩] at hchild
  rw [getAttr, hns, Option.bind_some, hchild]

theorem Sound.loadComponents_ok_iff (h : Sound origin s) (hcs : ∀ c ∈ cs, c ≠ "" ∧ '.' ∉ c.toList) :
    (loadComponents cs s).1 = .ok () ↔ ∀ ps, ps <:+ cs → ps ≠ [] → s.definitions.contains (pathOf ps) = true := by
  induction cs with
  | nil =>
    refine ⟨fun _ ps hps hne ↦ absurd (List.suffix_nil.mp hps) hne, fun _ ↦ rfl⟩
  | cons child parents ih =>
    have hparents : ∀ c ∈ parents, c ≠ "" ∧ '.' ∉ c.toList := fun c hc ↦ hcs c (List.mem_cons_of_mem child hc)
    have hmakes := (loadComponents_makes (s := s) hparents).1
    have hih := ih hparents
    have hall : (∀ ps, ps <:+ child :: parents → ps ≠ [] → s.definitions.contains (pathOf ps) = true) ↔
        s.definitions.contains (pathOf (child :: parents)) = true ∧
          ∀ ps, ps <:+ parents → ps ≠ [] → s.definitions.contains (pathOf ps) = true := by
      simp only [List.suffix_cons_iff, or_imp, forall_and, forall_eq, ne_eq, reduceCtorEq, not_false_eq_true,
        true_imp_iff]
    rw [hall, ← hih, loadComponents_cons]
    split
    · next hl =>
      refine ⟨fun _ ↦ ⟨h.registered _ hl, hih.mpr fun ps hps hne ↦ ?_⟩, fun _ ↦ rfl⟩
      obtain ⟨cs, rfl⟩ := hps
      refine h.registered _ (h.isLoaded_suffix (fun c (hc : c ∈ child :: cs) ↦ (hcs c ?_).2) hne hl)
      exact List.mem_append_left ps hc
    · rcases hload : loadComponents parents s with ⟨e | u, t⟩
      · simp
      · rw [hload] at hmakes
        dsimp only
        rw [definitions_of_makes (t := t) hmakes, Std.TreeMap.contains_eq_isSome_getElem?]
        cases s.definitions[pathOf (child :: parents)]? <;> simp

/-- Each component of the path is a name, and the module there and those above it are defined. -/
def Loadable (definitions : Std.TreeMap String ModuleDef) (path : String) : Prop :=
  (∀ c ∈ Text.fields '.' path, c ≠ "") ∧
    ∀ ps, ps <:+ (Text.fields '.' path).reverse → ps ≠ [] → definitions.contains (pathOf ps) = true

/-- Whether a module can be loaded depends on the definitions alone. -/
theorem Sound.load_ok_iff (h : Sound origin s) (path : String) :
    (s.load path).1 = .ok () ↔ Loadable s.definitions path := by
  have hdots : ∀ c ∈ (Text.fields '.' path).reverse, '.' ∉ c.toList :=
    fun c hc ↦ dot_not_mem_of_mem_fields (List.mem_reverse.mp hc)
  have hcs : (∀ c ∈ Text.fields '.' path, c ≠ "") →
      ∀ c ∈ (Text.fields '.' path).reverse, c ≠ "" ∧ '.' ∉ c.toList :=
    fun hne c hc ↦ ⟨hne c (List.mem_reverse.mp hc), hdots c hc⟩
  unfold load Loadable
  dsimp only
  split
  · next hl =>
    have hne := h.named path hl
    rw [← h.loadComponents_ok_iff (hcs hne), loadComponents_of_isLoaded (by rwa [pathOf_fields])]
    exact ⟨fun _ ↦ ⟨hne, rfl⟩, fun _ ↦ rfl⟩
  split
  · next hany =>
    obtain ⟨c, hc, hempty⟩ := List.any_eq_true.mp hany
    refine ⟨fun he ↦ by simp at he, fun hne ↦ absurd (String.isEmpty_iff.mp hempty) (hne.1 c hc)⟩
  · next hany =>
    have hne : ∀ c ∈ Text.fields '.' path, c ≠ "" :=
      fun c hc ↦ (components_of_fields hany c (List.mem_reverse.mpr hc)).1
    rw [h.loadComponents_ok_iff (hcs hne)]
    exact ⟨fun hall ↦ ⟨hne, hall⟩, fun hall ↦ hall.2⟩

theorem Sound.loadable (h : Sound origin s) (hl : s.isLoaded path = true) : Loadable s.definitions path := by
  rw [← h.load_ok_iff, load, if_pos hl]

def MadeFrom (definitions : Std.TreeMap String ModuleDef) (s : ModuleStore) : Prop :=
  s.definitions = definitions ∧ Sound (fun path d ↦ definitions[path]? = some d) s

namespace MadeFrom

theorem of_makes (h : MadeFrom definitions s) (hst : ReflTransGen Makes s t) : MadeFrom definitions t := by
  obtain ⟨rfl, hsound⟩ := h
  exact ⟨definitions_of_makes hst, hsound.of_makes (fun _ _ hd ↦ hd) hst⟩

theorem loadable (h : MadeFrom definitions s) (hl : s.isLoaded path = true) : Loadable definitions path :=
  h.1 ▸ h.2.loadable hl

theorem load_ok_iff (h : MadeFrom definitions s) (path : String) :
    (s.load path).1 = .ok () ↔ Loadable definitions path := by
  rw [h.2.load_ok_iff, h.1]

theorem load_error (h : MadeFrom definitions s) (hno : ¬Loadable definitions path) : ∃ e, (s.load path).1 = .error e := by
  cases hresult : (s.load path).1 with
  | ok u => exact absurd ((h.load_ok_iff path).mp hresult) hno
  | error e => exact ⟨e, rfl⟩

theorem ne_empty (h : MadeFrom definitions s) (hl : s.isLoaded path = true) : path ≠ "" := by
  rintro rfl
  exact h.2.named "" hl "" (by decide) rfl

theorem getAttr_eq (h : MadeFrom definitions s) (hl : s.isLoaded path = true)
    (hlonger : s.isLoaded (path ++ "." ++ name) = false) :
    s.getAttr path name =
      (definitions[path]?.bind fun d ↦ d.create[name]?).elim (.error ⟨path ++ "." ++ name⟩) .ok := by
  obtain ⟨ns, hns⟩ := isLoaded_iff.mp hl
  obtain ⟨d, hd, hnames⟩ := h.2.contents path ns hns
  have hname := hnames name
  rw [if_neg (by simp [hlonger])] at hname
  rw [getAttr, hns, hd, Option.bind_some, Option.bind_some, hname]
  cases d.create[name]? <;> rfl

end MadeFrom

end MacroLisp.ModuleStore
