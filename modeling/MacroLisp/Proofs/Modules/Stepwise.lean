import MacroLisp.Name.Mangle
import MacroLisp.Proofs.Modules.Effect

namespace MacroLisp

namespace ModuleStore

variable {s : ModuleStore} {c : String} {cs ps : List String} {origin : String → ModuleDef → Prop}

theorem lineage_subset_append (cs ps : List String) : lineage ps ⊆ lineage (cs ++ ps) := by
  induction cs with
  | nil => exact List.Subset.refl _
  | cons c cs ih => exact List.Subset.trans ih (List.subset_append_left ..)

theorem pathOf_not_mem_lineage (c : String) (cs ps : List String) : pathOf (c :: (cs ++ ps)) ∉ lineage ps :=
  fun h ↦ not_mem_lineage c (cs ++ ps) (lineage_subset_append cs ps h)

theorem Sound.makesInTurn_of_ok (h : Sound origin s) (hps : ∀ c ∈ ps, c ≠ "" ∧ '.' ∉ c.toList)
    (hok : (loadComponents ps s).1 = .ok ()) : MakesInTurn (s.missing (lineage ps)) s (loadComponents ps s).2 := by
  rcases h.loadComponents_effect hps with ⟨-, -, hmakes⟩ | ⟨above, p, below, -, -, -, herror, -⟩
  · exact hmakes
  · rw [hok] at herror
    cases herror

theorem Sound.loadComponents_append (h : Sound origin s) (hps : ∀ c ∈ ps, c ≠ "" ∧ '.' ∉ c.toList)
    (hok : (loadComponents ps s).1 = .ok ()) (cs : List String) :
    loadComponents (cs ++ ps) (loadComponents ps s).2 = loadComponents (cs ++ ps) s := by
  have hmakes := h.makesInTurn_of_ok hps hok
  generalize ht : (loadComponents ps s).2 = t at hmakes
  have hload : loadComponents ps s = (.ok (), t) := Prod.ext hok ht
  induction cs with
  | nil =>
    cases ps with
    | nil =>
      obtain rfl : s = t := ht
      rfl
    | cons c ps =>
      have hl : t.isLoaded (pathOf (c :: ps)) = true := hmakes.isLoaded_of_mem (mem_lineage_self c ps)
      exact (loadComponents_of_isLoaded hl).trans hload.symm
  | cons c cs ih =>
    by_cases hl : s.isLoaded (pathOf (c :: (cs ++ ps))) = true
    · have hall : ∀ p ∈ lineage ps, s.isLoaded p = true := fun p hp ↦
        h.isLoaded_of_mem_lineage hl (lineage_subset_append (c :: cs) ps hp)
      rw [missing_eq_nil hall] at hmakes
      obtain rfl : t = s := hmakes
      rfl
    · have hl' : ¬t.isLoaded (pathOf (c :: (cs ++ ps))) = true := by
        rw [hmakes.isLoaded_iff, mem_missing]
        exact fun hor ↦ hor.elim hl fun hmem ↦ pathOf_not_mem_lineage c cs ps hmem.1
      rw [List.cons_append, loadComponents_cons, loadComponents_cons, if_neg hl, if_neg hl', ih]

theorem Sound.loadComponents_ok_of_append (h : Sound origin s) (hcs : ∀ c ∈ cs ++ ps, c ≠ "" ∧ '.' ∉ c.toList)
    (hok : (loadComponents (cs ++ ps) s).1 = .ok ()) : (loadComponents ps s).1 = .ok () := by
  have hall := (h.loadComponents_ok_iff hcs).mp hok
  refine (h.loadComponents_ok_iff fun c hc ↦ hcs c (List.mem_append_right cs hc)).mpr fun qs hqs ↦ ?_
  exact hall qs (hqs.trans (List.suffix_append cs ps))

theorem pathOf_ne_empty (hc : c ≠ "") (cs : List String) : pathOf (c :: cs) ≠ "" := by
  intro he
  by_cases hcs : cs = []
  · subst hcs
    rw [pathOf_singleton] at he
    exact hc he
  · rw [pathOf_cons hcs] at he
    exact dotted_ne (by simp) _ _ he

theorem load_pathOf (hcs : ∀ c ∈ cs, c ≠ "" ∧ '.' ∉ c.toList) (hne : cs ≠ []) :
    s.load (pathOf cs) = loadComponents cs s := by
  have hfields : Text.fields '.' (pathOf cs) = cs.reverse := fields_pathOf hne fun c hc ↦ (hcs c hc).2
  rw [load_eq_of_named, hfields, List.reverse_reverse]
  rw [hfields]
  exact fun c hc ↦ (hcs c (List.mem_reverse.mp hc)).1

end ModuleStore

namespace Resolver

open ModuleStore

variable {s : ModuleStore} {mangle : String → String} {c : String} {cs ps : List String}

/-- What is reached when these components, innermost first, have all been found as modules. -/
def reached : List String → Option Value
  | [] => none
  | c :: cs => some (.module (pathOf (c :: cs)))

theorem all_isModule_reached (ps : List String) : (reached ps).all Value.isModule = true := by
  cases ps <;> rfl

theorem longerPath_pathOf (hps : ∀ c ∈ ps, c ≠ "") (c : String) : longerPath (pathOf ps) c = pathOf (c :: ps) := by
  cases ps with
  | nil => exact (pathOf_singleton c).symm
  | cons c' ps =>
    rw [longerPath_of_ne (pathOf_ne_empty (hps c' List.mem_cons_self) ps), pathOf_cons (List.cons_ne_nil c' ps)]

theorem attempt_reached (hcs : ∀ c' ∈ c :: ps, c' ≠ "" ∧ '.' ∉ c'.toList) (hok : (loadComponents (c :: ps) s).1 = .ok ()) :
    attempt (pathOf (c :: ps)) (reached ps) ⟨mangle, s⟩ =
      (.ok (.module (pathOf (c :: ps))), ⟨mangle, (loadComponents (c :: ps) s).2⟩) := by
  rw [attempt, if_pos (all_isModule_reached ps), load_eq, load_pathOf hcs (List.cons_ne_nil c ps), hok]
  rfl

theorem follow_reached (h : Sound (fun _ _ ↦ True) s) (hcs : ∀ c ∈ cs.reverse ++ ps, c ≠ "" ∧ '.' ∉ c.toList)
    (hne : cs.reverse ++ ps ≠ []) (hps : loadComponents ps s = (.ok (), s))
    (hok : (loadComponents (cs.reverse ++ ps) s).1 = .ok ()) :
    follow cs (pathOf ps) (reached ps) ⟨mangle, s⟩ =
      (.ok (.module (pathOf (cs.reverse ++ ps))), ⟨mangle, (loadComponents (cs.reverse ++ ps) s).2⟩) := by
  induction cs generalizing ps s with
  | nil =>
    obtain ⟨c, ps, rfl⟩ := List.exists_cons_of_ne_nil hne
    rw [List.reverse_nil, List.nil_append, hps]
    rfl
  | cons c cs ih =>
    rw [List.reverse_cons, List.append_assoc, List.singleton_append] at hcs hne hok ⊢
    have hcs' : ∀ c' ∈ c :: ps, c' ≠ "" ∧ '.' ∉ c'.toList := fun c' hc' ↦ hcs c' (List.mem_append_right _ hc')
    have hok' : (loadComponents (c :: ps) s).1 = .ok () := h.loadComponents_ok_of_append hcs hok
    have hsound := h.of_makes (fun _ _ _ ↦ trivial) (loadComponents_makes hcs').1
    have hload := h.loadComponents_append hcs' hok'
    rw [follow_cons, longerPath_pathOf (fun c' hc' ↦ (hcs' c' (List.mem_cons_of_mem c hc')).1), attempt_reached hcs' hok']
    dsimp only
    -- From here the whole path is loaded in the new store, which has the modules above already.
    rw [← hload cs.reverse] at hok ⊢
    exact ih hsound hcs hne ((hload []).trans (Prod.ext hok' rfl)) hok

theorem resolveChain_of_load {path : String} {segments : List String} (h : Sound (fun _ _ ↦ True) s)
    (hnamed : ∀ c ∈ Text.fields '.' path, c ≠ "") (hok : (s.load path).1 = .ok ())
    (hcomponents : components ⟨mangle, s⟩ segments = Text.fields '.' path) :
    resolveChain ⟨mangle, s⟩ segments = (.ok (.module path), ⟨mangle, (s.load path).2⟩) := by
  have hload : s.load path = loadComponents (Text.fields '.' path).reverse s := load_eq_of_named hnamed
  have hcs : ∀ c ∈ (Text.fields '.' path).reverse ++ [], c ≠ "" ∧ '.' ∉ c.toList := by
    intro c hc
    rw [List.append_nil, List.mem_reverse] at hc
    exact ⟨hnamed c hc, dot_not_mem_of_mem_fields hc⟩
  have hne : (Text.fields '.' path).reverse ++ [] ≠ [] := by simpa using fields_ne_nil path
  have hfollow : follow (Text.fields '.' path) "" none ⟨mangle, s⟩ = _ :=
    follow_reached h hcs hne rfl (by rwa [List.append_nil, ← hload])
  rw [List.append_nil, pathOf_fields, ← hload] at hfollow
  rw [resolveChain, hcomponents]
  exact hfollow

theorem components_of_groups {groups : List (List String)} (hgroups : [] ∉ groups)
    (hcs : ∀ c ∈ groups.flatten, '/' ∉ c.toList ∧ mangle c = c) :
    components ⟨mangle, s⟩ (groups.map ("/".intercalate ·)) = groups.flatten := by
  have hfields : ∀ group ∈ groups, Text.fields '/' ("/".intercalate group) = group := fun group hgroup ↦
    Text.fields_intercalate (ne_of_mem_of_not_mem hgroup hgroups) fun c hc ↦
      (hcs c (List.mem_flatten_of_mem hgroup hc)).1
  rw [components, List.flatMap_map, List.flatMap_congr hfields, List.flatMap_id']
  exact (List.map_congr_left fun c hc ↦ (hcs c hc).2).trans (List.map_id' _)

theorem resolveLiteral_eq_ok_iff {path : String} {v : Value} {r : Resolver} :
    resolveLiteral ⟨mangle, s⟩ path = (.ok v, r) ↔
      (s.load path).1 = .ok () ∧ v = .module path ∧ r = ⟨mangle, (s.load path).2⟩ := by
  unfold resolveLiteral
  rw [load_eq]
  cases (s.load path).1 with
  | ok u => simp [Except.map, eq_comm]
  | error e => simp [Except.map]

end Resolver

/-- After any operations, a module whose dotted path can be resolved as it is written is reached by the chain of its
components as well, however they are put into segments, and both leave the same modules behind. No component may hold a
slash or be changed by the mangling. -/
theorem chain_reaches_module (ops : List Operation) {mangle : String → String} {path : String}
    {groups : List (List String)} {v : Value} {r : Resolver}
    (hnames : ∀ c ∈ Text.fields '.' path, c ≠ "" ∧ '/' ∉ c.toList ∧ mangle c = c)
    (hgroups : groups.flatten = Text.fields '.' path ∧ [] ∉ groups)
    (hliteral : Resolver.resolveLiteral ⟨mangle, ops.foldl Operation.run .empty⟩ path = (.ok v, r)) :
    v = .module path ∧
      Resolver.resolveChain ⟨mangle, ops.foldl Operation.run .empty⟩ (groups.map ("/".intercalate ·)) = (.ok v, r) := by
  generalize hs : ops.foldl Operation.run .empty = s at hliteral ⊢
  have h : ModuleStore.Sound (fun _ _ ↦ True) s := hs ▸ Operation.sound_foldl (ModuleStore.sound_of_nothing_loaded ∅) ops
  obtain ⟨hok, rfl, rfl⟩ := Resolver.resolveLiteral_eq_ok_iff.mp hliteral
  refine ⟨rfl, Resolver.resolveChain_of_load h (fun c hc ↦ (hnames c hc).1) hok ?_⟩
  rw [Resolver.components_of_groups hgroups.2 (hgroups.1 ▸ fun c hc ↦ (hnames c hc).2), hgroups.1]

/-- The outermost module is loaded, and it has an attribute of the next name that is another module. -/
theorem chain_reaches_module_past_attribute :
    let ops := [Operation.register "a" (.ofList [("b_c", .module "z")]), .register "a.b_c" (.ofList []),
      .register "a.b_c.d" ⟨∅, fun ns ↦ ns.insert "x" .none⟩, .register "z" (.ofList []), .ask id (.load "a")]
    let s := ops.foldl Operation.run .empty
    let r := (Resolver.resolveLiteral ⟨Name.mangle, s⟩ "a.b_c.d").2
    (Resolver.resolveLiteral ⟨Name.mangle, s⟩ "a.b_c.d").1 = .ok (.module "a.b_c.d") ∧
      s.getAttr "a" "b_c" = .ok (.module "z") ∧
      Resolver.resolveChain ⟨Name.mangle, s⟩ ["a/b_c", "d"] = (.ok (.module "a.b_c.d"), r) := by
  intro ops s r
  have hliteral : (Resolver.resolveLiteral ⟨Name.mangle, s⟩ "a.b_c.d").1 = .ok (.module "a.b_c.d") := by decide +kernel
  have hnames : ∀ c ∈ Text.fields '.' "a.b_c.d", c ≠ "" ∧ '/' ∉ c.toList ∧ Name.mangle c = c := by decide +kernel
  have hgroups : [["a", "b_c"], ["d"]].flatten = Text.fields '.' "a.b_c.d" ∧ [] ∉ [["a", "b_c"], ["d"]] := by
    decide +kernel
  exact ⟨hliteral, by decide +kernel, (chain_reaches_module ops hnames hgroups (Prod.ext hliteral rfl)).2⟩

end MacroLisp
