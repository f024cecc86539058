import MacroLisp.Proofs.Name.Qualified

namespace MacroLisp.Name

variable {cs : List Char} {name : String}

/-- A name of one component: it has no dots, or is made of nothing else. -/
def IsSingle (name : String) : Prop := '.' ∉ name.toList ∨ ∀ c ∈ name.toList, c = '.'

structure IsWhole (name : String) : Prop where
  ne_empty : name ≠ ""
  isSingle : IsSingle name

theorem IsSingle.components_eq (h : IsSingle name) : components name.toList = [name.toList] := by
  rcases h with hdot | hdots
  · unfold components
    split
    · rfl
    · exact Text.split_of_not_mem hdot
  · exact components_of_dots (by simpa using hdots)

theorem IsSingle.toList_mangle (h : IsSingle name) : (mangle name).toList = mangleComponent name.toList := by
  rw [mangle, String.toList_ofList, mangleChars_eq_join_components, h.components_eq]
  rfl

theorem IsSingle.fields_mangle (h : IsSingle name) : Text.fields '.' (mangle name) = [mangle name] := by
  rw [Text.fields, h.toList_mangle, Text.split_of_not_mem (dot_not_mem_mangleComponent _), ← h.toList_mangle,
    List.map_singleton, String.ofList_toList]

theorem isSingle_of_dot_not_mem_mangle (h : '.' ∉ (mangle name).toList) : IsSingle name := by
  by_cases hdots : name.toList.all (· = '.') = true
  · exact .inr (by simpa using hdots)
  · left
    rw [mangle, String.toList_ofList] at h
    have hsplit : Text.split '.' (mangleChars name.toList) = (Text.split '.' name.toList).map mangleComponent := by
      rw [split_mangleChars, components, if_neg hdots]
    rw [Text.split_of_not_mem h] at hsplit
    obtain ⟨field, hfield, -⟩ := List.map_eq_singleton_iff.mp hsplit.symm
    exact Text.not_mem_of_split_eq_singleton hfield

theorem isIdentifier_mangle_iff : isIdentifier (mangle name) = true ↔ IsWhole name := by
  constructor
  · intro h
    refine ⟨?_, isSingle_of_dot_not_mem_mangle (dot_not_mem_of_isIdentifierChars h)⟩
    rintro rfl
    cases h
  · rintro ⟨hne, hsingle⟩
    rw [isIdentifier, hsingle.toList_mangle]
    exact isIdentifierChars_mangleComponent fun hnil ↦ hne (String.toList_eq_nil_iff.mp hnil)

theorem mangle_of_isIdentifier (h : isIdentifier name = true) : mangle name = name := by
  have hsingle : IsSingle name := .inl (dot_not_mem_of_isIdentifierChars h)
  rw [← String.toList_inj, hsingle.toList_mangle]
  exact mangleComponent_of_isIdentifierChars h

theorem isWhole_of_isIdentifier (h : isIdentifier name = true) : IsWhole name :=
  isIdentifier_mangle_iff.mp (by rwa [mangle_of_isIdentifier h])

theorem isSingle_of_mem_fields {field : String} (h : field ∈ Text.fields '.' name) : IsSingle field := by
  obtain ⟨cs, hcs, rfl⟩ := List.mem_map.mp h
  refine .inl ?_
  rw [String.toList_ofList]
  exact Text.not_mem_of_mem_split hcs

theorem fields_mangle (h : ∃ c ∈ name.toList, c ≠ '.') :
    Text.fields '.' (mangle name) = (Text.fields '.' name).map mangle := by
  have hdots : ¬name.toList.all (· = '.') = true := by simpa using h
  rw [Text.fields, mangle, String.toList_ofList, split_mangleChars, components, if_neg hdots, Text.fields,
    List.map_map, List.map_map]
  refine List.map_congr_left fun cs hcs ↦ ?_
  have hsingle : IsSingle (String.ofList cs) := isSingle_of_mem_fields (List.mem_map_of_mem hcs)
  rw [Function.comp_apply, Function.comp_apply, ← String.toList_inj, hsingle.toList_mangle, String.toList_ofList,
    String.toList_ofList]

theorem mangle_eq_empty : mangle name = "" ↔ name = "" := by
  constructor
  · intro h
    by_contra hne
    have hmangled : mangleChars name.toList = [] := by
      rw [← String.toList_ofList (l := mangleChars name.toList), ← mangle, h]
      rfl
    exact mangleChars_ne_nil (fun hnil ↦ hne (String.toList_eq_nil_iff.mp hnil)) hmangled
  · rintro rfl
    rfl

/-- Mangling always comes to identifiers, and to the same ones when it is done again. The empty name stays empty, and a
name of dots becomes one identifier. Any other keeps its components: the empty ones stay empty, and the others become
identifiers. -/
theorem mangle_makes_identifiers (name : String) :
    mangle (mangle name) = mangle name ∧
      (name = "" → mangle name = "") ∧
      (name ≠ "" → (∀ c ∈ name.toList, c = '.') → isIdentifier (mangle name) = true) ∧
      ((∃ c ∈ name.toList, c ≠ '.') →
        List.Forall₂ (fun component mangled ↦ (mangled = "" ↔ component = "") ∧
            (mangled ≠ "" → isIdentifier mangled = true))
          (Text.fields '.' name) (Text.fields '.' (mangle name))) := by
  refine ⟨mangle_mangle name, mangle_eq_empty.mpr, fun hne hdots ↦ ?_, fun hdot ↦ ?_⟩
  · exact isIdentifier_mangle_iff.mpr ⟨hne, .inr hdots⟩
  · rw [fields_mangle hdot, List.forall₂_map_right_iff, List.forall₂_same]
    intro component hm
    refine ⟨mangle_eq_empty, fun hne ↦ isIdentifier_mangle_iff.mpr ⟨mt mangle_eq_empty.mpr hne, ?_⟩⟩
    exact isSingle_of_mem_fields hm

example : mangle ".a-b..9?" = ".a_b..hyx_9Xquestion_markX" := by decide

end MacroLisp.Name
