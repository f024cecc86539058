import MacroLisp.Modules.Store
import MacroLisp.Proofs.Text.Fields

namespace MacroLisp

namespace Text

variable {sep : Char} {p q s t : List Char} {fields : List (List Char)}

theorem intercalate_eq_join (sep : Char) (fields : List (List Char)) : [sep].intercalate fields = join sep fields := by
  induction fields with
  | nil => simp [join]
  | cons f fields ih =>
    cases fields with
    | nil => simp [join]
    | cons g fields => rw [List.intercalate_cons_cons, ih, join_cons_of_ne_nil sep f (by simp)]; simp

theorem join_concat (h : fields ≠ []) (field : List Char) :
    join sep (fields ++ [field]) = join sep fields ++ sep :: field := by
  induction fields with
  | nil => exact absurd rfl h
  | cons f fields ih =>
    cases fields with
    | nil => rfl
    | cons g fields =>
      rw [List.cons_append, join_cons_of_ne_nil sep f (by simp), ih (by simp), join_cons_of_ne_nil sep f (by simp)]
      simp

theorem split_append_sep_append (sep : Char) (p q : List Char) :
    split sep (p ++ sep :: q) = split sep p ++ split sep q := by
  induction p with
  | nil => simp [split]
  | cons c p ih =>
    by_cases hc : c = sep
    · subst hc
      rw [List.cons_append, split_sep_cons, split_sep_cons, ih, List.cons_append]
    · obtain ⟨field, fields, hs⟩ := List.exists_cons_of_ne_nil (split_ne_nil sep p)
      rw [hs] at ih
      rw [List.cons_append, split_cons_of_ne hc ih, split_cons_of_ne hc hs]
      rfl

theorem append_sep_inj_right (hs : sep ∉ s) (ht : sep ∉ t) (h : p ++ sep :: s = q ++ sep :: t) : p = q ∧ s = t := by
  have hr := congrArg List.reverse h
  simp only [List.reverse_append, List.reverse_cons, List.append_assoc, List.singleton_append] at hr
  obtain ⟨hst, hpq⟩ := append_sep_inj (by simpa using hs) (by simpa using ht) hr
  exact ⟨List.reverse_inj.mp hpq, List.reverse_inj.mp hst⟩

theorem fields_intercalate {parts : List String} (h : parts ≠ []) (hparts : ∀ part ∈ parts, sep ∉ part.toList) :
    Text.fields sep ((String.singleton sep).intercalate parts) = parts := by
  have hid : String.ofList ∘ String.toList = id := funext fun s ↦ String.ofList_toList
  rw [Text.fields, String.toList_intercalate, String.toList_singleton, intercalate_eq_join,
    split_join (by simpa using h) (List.forall_mem_map.mpr hparts), List.map_map, hid, List.map_id]

end Text

namespace ModuleStore

variable {path parent parent' child child' : String} {cs : List String}

theorem toList_dotted (parent child : String) :
    (parent ++ "." ++ child).toList = parent.toList ++ '.' :: child.toList := by
  simp

theorem dotted_inj (h : '.' ∉ child.toList) (h' : '.' ∉ child'.toList)
    (he : parent ++ "." ++ child = parent' ++ "." ++ child') : parent = parent' ∧ child = child' := by
  have hl := congrArg String.toList he
  rw [toList_dotted, toList_dotted] at hl
  obtain ⟨hp, hc⟩ := Text.append_sep_inj_right h h' hl
  exact ⟨String.toList_injective hp, String.toList_injective hc⟩

theorem dotted_ne (h : '.' ∉ child.toList) (parent rest : String) : parent ++ "." ++ rest ≠ child := by
  intro he
  rw [← he, toList_dotted] at h
  simp at h

theorem dotted_ne_parent (parent rest : String) : parent ++ "." ++ rest ≠ parent := by
  intro h
  have hl := congrArg (fun s ↦ s.toList.length) h
  simp at hl

theorem toList_pathOf (cs : List String) : (pathOf cs).toList = Text.join '.' (cs.reverse.map String.toList) := by
  rw [pathOf, String.toList_intercalate, ← Text.intercalate_eq_join]
  rfl

theorem pathOf_singleton (child : String) : pathOf [child] = child := by
  apply String.toList_injective
  rw [toList_pathOf]
  rfl

theorem pathOf_cons (h : cs ≠ []) (child : String) : pathOf (child :: cs) = pathOf cs ++ "." ++ child := by
  apply String.toList_injective
  rw [toList_dotted, toList_pathOf, toList_pathOf, List.reverse_cons, List.map_append]
  exact Text.join_concat (by simpa using h) child.toList

theorem pathOf_eq_dotted_iff (h : '.' ∉ child.toList) (h' : '.' ∉ child'.toList) :
    pathOf (child :: cs) = parent ++ "." ++ child' ↔ cs ≠ [] ∧ pathOf cs = parent ∧ child = child' := by
  constructor
  · intro he
    by_cases hne : cs = []
    · subst hne
      rw [pathOf_singleton] at he
      exact absurd he.symm (dotted_ne h parent child')
    · rw [pathOf_cons hne] at he
      exact ⟨hne, dotted_inj h h' he⟩
  · rintro ⟨hne, rfl, rfl⟩
    exact pathOf_cons hne child

theorem fields_dotted (parent rest : String) :
    Text.fields '.' (parent ++ "." ++ rest) = Text.fields '.' parent ++ Text.fields '.' rest := by
  rw [Text.fields, toList_dotted, Text.split_append_sep_append, List.map_append]
  rfl

theorem fields_ne_nil (path : String) : Text.fields '.' path ≠ [] := by
  simp [Text.fields, Text.split_ne_nil]

theorem dot_not_mem_of_mem_fields (h : child ∈ Text.fields '.' path) : '.' ∉ child.toList := by
  obtain ⟨field, hf, rfl⟩ := List.mem_map.mp h
  rw [String.toList_ofList]
  exact Text.not_mem_of_mem_split hf

theorem pathOf_fields (path : String) : pathOf (Text.fields '.' path).reverse = path := by
  apply String.toList_injective
  rw [toList_pathOf, List.reverse_reverse, Text.fields, List.map_map]
  have hid : String.toList ∘ String.ofList = id := funext fun cs ↦ String.toList_ofList
  rw [hid, List.map_id, Text.join_split]

theorem fields_pathOf (h : cs ≠ []) (hdot : ∀ c ∈ cs, '.' ∉ c.toList) : Text.fields '.' (pathOf cs) = cs.reverse :=
  Text.fields_intercalate (by simpa using h) fun c hc ↦ hdot c (List.mem_reverse.mp hc)

end ModuleStore

end MacroLisp
