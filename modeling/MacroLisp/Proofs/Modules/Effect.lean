import MacroLisp.Proofs.Modules.Resolution

namespace MacroLisp

namespace ModuleStore

variable {s t u : ModuleStore} {p path child name : String} {cs parents ps : List String} {ns : Namespace}
  {origin : String → ModuleDef → Prop}

/-- The paths of the modules above the one with these components, which are given innermost first, and its own path. The
outermost module comes first. -/
def lineage : List String → List String
  | [] => []
  | child :: parents => lineage parents ++ [pathOf (child :: parents)]

theorem exists_dotted_of_mem_lineage (h : p ∈ lineage parents) (child : String) :
    ∃ rest, pathOf (child :: parents) = p ++ "." ++ rest := by
  induction parents generalizing child with
  | nil => cases h
  | cons c cs ih =>
    rw [pathOf_cons (by simp)]
    rcases List.mem_append.mp h with h | h
    · obtain ⟨rest, hrest⟩ := ih h c
      exact ⟨rest ++ "." ++ child, by simp only [hrest, String.append_assoc]⟩
    · obtain rfl := List.mem_singleton.mp h
      exact ⟨child, rfl⟩

theorem not_mem_lineage (child : String) (parents : List String) : pathOf (child :: parents) ∉ lineage parents := by
  intro h
  obtain ⟨rest, hrest⟩ := exists_dotted_of_mem_lineage h child
  exact dotted_ne_parent _ _ hrest.symm

theorem pairwise_lineage (cs : List String) : (lineage cs).Pairwise fun p p' ↦ ∃ rest, p' = p ++ "." ++ rest := by
  induction cs with
  | nil => exact .nil
  | cons child parents ih =>
    refine List.pairwise_append.mpr ⟨ih, List.pairwise_singleton _ _, fun p hp p' hp' ↦ ?_⟩
    obtain rfl := List.mem_singleton.mp hp'
    exact exists_dotted_of_mem_lineage hp child

/-- The module at the path is made from its definition when the one above it is loaded, and becomes an attribute of that
one. -/
def MakesAt (path : String) (s t : ModuleStore) : Prop :=
  ∃ child parents d, path = pathOf (child :: parents) ∧ (∀ c ∈ child :: parents, c ≠ "" ∧ '.' ∉ c.toList) ∧
    s.isLoaded path = false ∧ (parents ≠ [] → s.isLoaded (pathOf parents) = true) ∧
    s.definitions[path]? = some d ∧ t = s.enter child parents d

def MakesInTurn : List String → ModuleStore → ModuleStore → Prop
  | [], s, t => t = s
  | p :: ps, s, t => ∃ u, MakesAt p s u ∧ MakesInTurn ps u t

theorem MakesAt.isLoaded_iff (h : MakesAt path s t) : t.isLoaded p = true ↔ s.isLoaded p = true ∨ p = path := by
  obtain ⟨child, parents, d, rfl, -, -, -, -, rfl⟩ := h
  rw [isLoaded_enter, or_comm, @eq_comm _ p]

theorem MakesAt.definitions_eq (h : MakesAt path s t) : t.definitions = s.definitions := by
  obtain ⟨child, parents, d, -, -, -, -, -, rfl⟩ := h
  exact definitions_enter ..

theorem MakesAt.frame (h : MakesAt path s t) (hns : s.loaded[p]? = some ns) : ∃ ns', t.loaded[p]? = some ns' ∧
    ∀ name, ns'[name]? = if '.' ∉ name.toList ∧ path = p ++ "." ++ name then some (.module path) else ns[name]? := by
  obtain ⟨child, parents, d, rfl, hcs, hfresh, -, -, rfl⟩ := h
  have hdot : '.' ∉ child.toList := (hcs child (List.mem_cons_self ..)).2
  have hne : pathOf (child :: parents) ≠ p := by
    rintro rfl
    rw [ModuleStore.isLoaded_iff.mpr ⟨ns, hns⟩] at hfresh
    cases hfresh
  have hbelow : ∀ name, '.' ∉ name.toList ∧ pathOf (child :: parents) = p ++ "." ++ name ↔
      (parents ≠ [] ∧ pathOf parents = p) ∧ child = name := by
    intro name
    constructor
    · rintro ⟨hname, he⟩
      obtain ⟨hparents, hp, hchild⟩ := (pathOf_eq_dotted_iff hdot hname).mp he
      exact ⟨⟨hparents, hp⟩, hchild⟩
    · rintro ⟨⟨hparents, rfl⟩, rfl⟩
      exact ⟨hdot, pathOf_cons hparents child⟩
  simp only [loaded_enter, if_neg hne, hns, hbelow]
  split
  · next hp =>
    refine ⟨_, rfl, fun name ↦ ?_⟩
    simp only [Std.TreeMap.getElem?_insert, Std.compare_eq_iff_eq, and_iff_right hp]
  · next hp => exact ⟨ns, rfl, fun name ↦ by simp [hp]⟩

theorem MakesInTurn.isLoaded_iff (h : MakesInTurn ps s t) : t.isLoaded p = true ↔ s.isLoaded p = true ∨ p ∈ ps := by
  induction ps generalizing s with
  | nil =>
    obtain rfl : t = s := h
    simp
  | cons p' ps ih =>
    obtain ⟨u, hmakes, hrest⟩ := h
    rw [ih hrest, hmakes.isLoaded_iff, List.mem_cons, or_assoc]

theorem MakesInTurn.definitions_eq (h : MakesInTurn ps s t) : t.definitions = s.definitions := by
  induction ps generalizing s with
  | nil =>
    obtain rfl : t = s := h
    rfl
  | cons p' ps ih =>
    obtain ⟨u, hmakes, hrest⟩ := h
    rw [ih hrest, hmakes.definitions_eq]

theorem MakesInTurn.concat (h : MakesInTurn ps s t) (ht : MakesAt p t u) : MakesInTurn (ps ++ [p]) s u := by
  induction ps generalizing s with
  | nil =>
    obtain rfl : t = s := h
    exact ⟨u, ht, rfl⟩
  | cons p' ps ih =>
    obtain ⟨v, hmakes, hrest⟩ := h
    exact ⟨v, hmakes, ih hrest⟩

/-- A module that was there before has those of the new ones that are directly below it as attributes, and besides what it
had. -/
theorem MakesInTurn.frame (h : MakesInTurn ps s t) (hns : s.loaded[p]? = some ns) : ∃ ns', t.loaded[p]? = some ns' ∧
    ∀ name, ns'[name]? =
      if '.' ∉ name.toList ∧ p ++ "." ++ name ∈ ps then some (.module (p ++ "." ++ name)) else ns[name]? := by
  induction ps generalizing s ns with
  | nil =>
    obtain rfl : t = s := h
    exact ⟨ns, hns, fun name ↦ (if_neg (by simp)).symm⟩
  | cons p' ps ih =>
    obtain ⟨u, hmakes, hrest⟩ := h
    obtain ⟨ns', hns', hnames'⟩ := hmakes.frame hns
    obtain ⟨ns'', hns'', hnames''⟩ := ih hrest hns'
    refine ⟨ns'', hns'', fun name ↦ ?_⟩
    rw [hnames'', hnames']
    by_cases hname : '.' ∉ name.toList
    · by_cases hp' : p' = p ++ "." ++ name
      · simp [hname, ← hp']
      · simp [hname, hp', Ne.symm hp']
    · simp [hname]

def Known (s : ModuleStore) (path : String) : Prop := s.definitions.contains path = true ∨ s.isLoaded path = true

/-- The paths among these at which no module is loaded yet. -/
def missing (s : ModuleStore) (ps : List String) : List String := ps.filter fun p ↦ !s.isLoaded p

theorem missing_append (s : ModuleStore) (ps qs : List String) :
    s.missing (ps ++ qs) = s.missing ps ++ s.missing qs := List.filter_append ..

theorem missing_eq_nil (h : ∀ p ∈ ps, s.isLoaded p = true) : s.missing ps = [] :=
  List.filter_eq_nil_iff.mpr fun p hp ↦ by simp [h p hp]

theorem mem_missing : p ∈ s.missing ps ↔ p ∈ ps ∧ s.isLoaded p = false := by
  simp [missing]

theorem MakesInTurn.isLoaded_of_mem (h : MakesInTurn (s.missing ps) s t) (hp : p ∈ ps) : t.isLoaded p = true := by
  rw [h.isLoaded_iff, mem_missing]
  cases s.isLoaded p <;> simp [hp]

theorem mem_lineage_self (child : String) (parents : List String) :
    pathOf (child :: parents) ∈ lineage (child :: parents) := by
  simp [lineage]

theorem Sound.isLoaded_of_mem_lineage (h : Sound origin s) (hl : s.isLoaded (pathOf cs) = true) (hp : p ∈ lineage cs) :
    s.isLoaded p = true := by
  cases cs with
  | nil => cases hp
  | cons child parents =>
    rcases List.mem_append.mp hp with hp | hp
    · obtain ⟨rest, hrest⟩ := exists_dotted_of_mem_lineage hp child
      exact h.isLoaded_above (hrest ▸ hl)
    · exact List.mem_singleton.mp hp ▸ hl

theorem MakesInTurn.enter {d : ModuleDef} (h : MakesInTurn (s.missing (lineage parents)) s t)
    (hcs : ∀ c ∈ child :: parents, c ≠ "" ∧ '.' ∉ c.toList) (hl : s.isLoaded (pathOf (child :: parents)) = false)
    (hd : t.definitions[pathOf (child :: parents)]? = some d) :
    MakesInTurn (s.missing (lineage (child :: parents))) s (t.enter child parents d) := by
  have hfresh : t.isLoaded (pathOf (child :: parents)) = false := by
    rw [Bool.eq_false_iff, ne_eq, h.isLoaded_iff, hl, mem_missing]
    exact fun h ↦ h.elim nofun fun h ↦ not_mem_lineage child parents h.1
  have hparent : parents ≠ [] → t.isLoaded (pathOf parents) = true := by
    intro hne
    obtain ⟨c, cs, rfl⟩ := List.exists_cons_of_ne_nil hne
    exact h.isLoaded_of_mem (mem_lineage_self c cs)
  have hlast : s.missing [pathOf (child :: parents)] = [pathOf (child :: parents)] := by
    simp [missing, hl]
  rw [lineage, missing_append, hlast]
  exact h.concat ⟨child, parents, d, rfl, hcs, hfresh, hparent, hd, rfl⟩

theorem Sound.loadComponents_effect (h : Sound origin s) (hcs : ∀ c ∈ cs, c ≠ "" ∧ '.' ∉ c.toList) :
    ((loadComponents cs s).1 = .ok () ∧ (∀ p ∈ lineage cs, s.Known p) ∧
      MakesInTurn (s.missing (lineage cs)) s (loadComponents cs s).2) ∨
    ∃ above p below, lineage cs = above ++ p :: below ∧ (∀ p' ∈ above, s.Known p') ∧ ¬s.Known p ∧
      (loadComponents cs s).1 = .error ⟨p⟩ ∧ MakesInTurn (s.missing above) s (loadComponents cs s).2 := by
  induction cs with
  | nil => exact .inl ⟨rfl, by simp [lineage], rfl⟩
  | cons child parents ih =>
    by_cases hl : s.isLoaded (pathOf (child :: parents)) = true
    · have hall : ∀ p ∈ lineage (child :: parents), s.isLoaded p = true := fun p ↦ h.isLoaded_of_mem_lineage hl
      rw [loadComponents_of_isLoaded hl, missing_eq_nil hall]
      exact .inl ⟨rfl, fun p hp ↦ .inr (hall p hp), rfl⟩
    rw [loadComponents_cons, if_neg hl]
    obtain ⟨hok, hknown, hmakes⟩ | ⟨above, p, below, hline, habove, hp, herror, hmakes⟩ :=
      ih fun c hc ↦ hcs c (List.mem_cons_of_mem child hc)
    · rcases hload : loadComponents parents s with ⟨r, t⟩
      rw [hload] at hok hmakes
      obtain rfl : r = .ok () := hok
      dsimp only at hmakes ⊢
      have hdefinitions := hmakes.definitions_eq
      split
      · next hnone =>
        refine .inr ⟨lineage parents, _, [], rfl, hknown, ?_, rfl, hmakes⟩
        rw [hdefinitions] at hnone
        simp [Known, hl, Std.TreeMap.contains_eq_isSome_getElem?, hnone]
      · next d hd =>
        refine .inl ⟨rfl, List.forall_mem_append.mpr ⟨hknown, List.forall_mem_singleton.mpr (.inl ?_)⟩, ?_⟩
        · rw [Std.TreeMap.contains_eq_isSome_getElem?, ← hdefinitions, hd, Option.isSome_some]
        · exact hmakes.enter hcs (Bool.eq_false_iff.mpr hl) hd
    · refine .inr ⟨above, p, below ++ [pathOf (child :: parents)], by simp [lineage, hline], habove, hp, ?_⟩
      rcases hload : loadComponents parents s with ⟨r, t⟩
      rw [hload] at herror hmakes
      obtain rfl : r = .error ⟨p⟩ := herror
      exact ⟨rfl, hmakes⟩

theorem Sound.known_iff (h : Sound origin s) : s.Known p ↔ s.definitions.contains p = true :=
  ⟨fun hp ↦ hp.elim id (h.registered p), .inl⟩

theorem Sound.isLoaded_iff_mem_above (h : Sound origin s) {above below : List String}
    (hline : lineage cs = above ++ p :: below) (hp : ¬s.Known p) (hmakes : MakesInTurn (s.missing above) s t) {p' : String}
    (hp' : p' ∈ lineage cs) : t.isLoaded p' = true ↔ p' ∈ above := by
  refine ⟨fun hl ↦ ?_, hmakes.isLoaded_of_mem⟩
  rcases hmakes.isLoaded_iff.mp hl with hl | hmissing
  · -- A module that was loaded before does not come after one that was not.
    have hpairwise := pairwise_lineage cs
    rw [hline] at hpairwise hp'
    have hbelow := (List.pairwise_cons.mp (List.pairwise_append.mp hpairwise).2.1).1
    rcases List.mem_append.mp hp' with habove | hrest
    · exact habove
    rcases List.mem_cons.mp hrest with rfl | hrest
    · exact absurd (.inr hl) hp
    · obtain ⟨rest, rfl⟩ := hbelow p' hrest
      exact absurd (.inr (h.isLoaded_above hl)) hp
  · exact (mem_missing.mp hmissing).1

theorem MakesInTurn.frame_of_missing (h : MakesInTurn (s.missing ps) s t) (hns : s.loaded[p]? = some ns) :
    ∃ ns', t.loaded[p]? = some ns' ∧ ∀ name, ns'[name]? =
      if '.' ∉ name.toList ∧ s.isLoaded (p ++ "." ++ name) = false ∧ t.isLoaded (p ++ "." ++ name) = true then
        some (.module (p ++ "." ++ name))
      else ns[name]? := by
  obtain ⟨ns', hns', hnames⟩ := h.frame hns
  refine ⟨ns', hns', fun name ↦ (hnames name).trans (if_congr (and_congr_right fun _ ↦ ?_) rfl rfl)⟩
  rw [h.isLoaded_iff, mem_missing]
  cases s.isLoaded (p ++ "." ++ name) <;> simp

theorem any_isEmpty_iff : (Text.fields '.' path).any String.isEmpty = true ↔ ¬∀ c ∈ Text.fields '.' path, c ≠ "" := by
  simp

theorem load_eq_of_named (h : ∀ c ∈ Text.fields '.' path, c ≠ "") :
    s.load path = loadComponents (Text.fields '.' path).reverse s := by
  by_cases hl : s.isLoaded path = true
  · rw [load, if_pos hl, loadComponents_of_isLoaded (by rwa [pathOf_fields])]
  · rw [load, if_neg hl]
    exact if_neg (any_isEmpty_iff.not.mpr (not_not_intro h))

theorem Sound.load_eq_of_not_named (h : Sound origin s) (hnamed : ¬∀ c ∈ Text.fields '.' path, c ≠ "") :
    s.load path = (.error ⟨path⟩, s) := by
  rw [load, if_neg fun hl ↦ hnamed (h.named path hl)]
  exact if_pos (any_isEmpty_iff.mpr hnamed)

theorem Sound.load_effect (h : Sound origin s) (hnamed : ∀ c ∈ Text.fields '.' path, c ≠ "") :
    ((s.load path).1 = .ok () ∧ (∀ p ∈ lineage (Text.fields '.' path).reverse, s.Known p) ∧
      MakesInTurn (s.missing (lineage (Text.fields '.' path).reverse)) s (s.load path).2) ∨
    ∃ above p below, lineage (Text.fields '.' path).reverse = above ++ p :: below ∧ (∀ p' ∈ above, s.Known p') ∧
      ¬s.Known p ∧ (s.load path).1 = .error ⟨p⟩ ∧ MakesInTurn (s.missing above) s (s.load path).2 := by
  rw [load_eq_of_named hnamed]
  refine h.loadComponents_effect fun c hc ↦ ?_
  have hc := List.mem_reverse.mp hc
  exact ⟨hnamed c hc, dot_not_mem_of_mem_fields hc⟩

theorem Sound.load_frame (h : Sound origin s) (path : String) (hns : s.loaded[p]? = some ns) :
    ∃ ns', (s.load path).2.loaded[p]? = some ns' ∧ ∀ name, ns'[name]? =
      if '.' ∉ name.toList ∧ s.isLoaded (p ++ "." ++ name) = false ∧ (s.load path).2.isLoaded (p ++ "." ++ name) = true then
        some (.module (p ++ "." ++ name))
      else ns[name]? := by
  have hmakes : ∃ ps, MakesInTurn (s.missing ps) s (s.load path).2 := by
    by_cases hnamed : ∀ c ∈ Text.fields '.' path, c ≠ ""
    · rcases h.load_effect hnamed with ⟨-, -, hmakes⟩ | ⟨above, -, -, -, -, -, -, hmakes⟩
      · exact ⟨_, hmakes⟩
      · exact ⟨above, hmakes⟩
    · rw [h.load_eq_of_not_named hnamed]
      exact ⟨[], rfl⟩
  obtain ⟨ps, hmakes⟩ := hmakes
  exact hmakes.frame_of_missing hns

end ModuleStore

open ModuleStore

/-- After any operations, a path is loaded if and only if its components are names and each module on the way to it, and
it itself, has a definition or is loaded. Then the ones that are not loaded are made, from the outside in. If a component
is empty, the whole path is reported and nothing is changed; else the outermost module without a definition is reported,
and those above it are made. The modules that were loaded before have the new ones directly below them as attributes, and
besides what they had. -/
theorem load_after_operations (ops : List Operation) (path : String) :
    let s := ops.foldl Operation.run .empty
    let t := (s.load path).2
    let named := ∀ c ∈ Text.fields '.' path, c ≠ ""
    let way := lineage (Text.fields '.' path).reverse
    ((s.load path).1 = .ok () ↔ named ∧ ∀ p ∈ way, s.Known p) ∧
    ((s.load path).1 = .ok () → MakesInTurn (s.missing way) s t) ∧
    (¬named → s.load path = (.error ⟨path⟩, s)) ∧
    (named → ∀ e, (s.load path).1 = .error e → ∃ above p below, way = above ++ p :: below ∧ e = ⟨p⟩ ∧
      s.definitions.contains p = false ∧ (∀ p' ∈ above, s.definitions.contains p' = true) ∧
      MakesInTurn (s.missing above) s t ∧ ∀ p' ∈ way, t.isLoaded p' = true ↔ p' ∈ above) ∧
    ∀ m ns, s.loaded[m]? = some ns → ∃ ns', t.loaded[m]? = some ns' ∧ ∀ name, ns'[name]? =
      if '.' ∉ name.toList ∧ s.isLoaded (m ++ "." ++ name) = false ∧ t.isLoaded (m ++ "." ++ name) = true then
        some (.module (m ++ "." ++ name))
      else ns[name]? := by
  intro s t named way
  have h : Sound (fun _ _ ↦ True) s := Operation.sound_foldl (ModuleStore.sound_of_nothing_loaded ∅) ops
  have hframe : ∀ m ns, s.loaded[m]? = some ns → _ := fun m ns ↦ h.load_frame path
  by_cases hnamed : named
  · rcases h.load_effect hnamed with ⟨hok, hknown, hmakes⟩ | ⟨above, p, below, hway, habove, hp, herror, hmakes⟩
    · refine ⟨iff_of_true hok ⟨hnamed, hknown⟩, fun _ ↦ hmakes, fun hno ↦ absurd hnamed hno, fun _ e he ↦ ?_, hframe⟩
      rw [hok] at he
      cases he
    · have hmem : p ∈ way := (congrArg (p ∈ ·) hway).mpr (by simp)
      refine ⟨iff_of_false (by simp [herror]) fun hall ↦ hp (hall.2 p hmem), fun hok ↦ by simp [herror] at hok,
        fun hno ↦ absurd hnamed hno, fun _ e he ↦ ?_, hframe⟩
      rw [herror] at he
      refine ⟨above, p, below, hway, (Except.error.inj he).symm, ?_, fun p' hp' ↦ h.known_iff.mp (habove p' hp'), hmakes,
        fun p' ↦ h.isLoaded_iff_mem_above hway hp hmakes⟩
      rwa [h.known_iff, Bool.not_eq_true] at hp
  · have hload := h.load_eq_of_not_named hnamed
    exact ⟨iff_of_false (by simp [hload]) fun hall ↦ hnamed hall.1, fun hok ↦ by simp [hload] at hok, fun _ ↦ hload,
      fun hall ↦ absurd hall hnamed, hframe⟩

end MacroLisp
