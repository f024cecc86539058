import MacroLisp.Proofs.Modules.Path
import MacroLisp.Proofs.Name.Collision

namespace MacroLisp.Name

variable {c : Char} {cs p k x : List Char}

theorem isIdentifierPart_of_isIdentifierStart (h : isIdentifierStart c = true) : isIdentifierPart c = true := by
  simp only [isIdentifierPart, isIdentifierStart] at h ⊢
  rw [h, Bool.true_or]

theorem isIdentifierPart_of_mem (h : isIdentifierChars cs = true) (hc : c ∈ cs) : isIdentifierPart c = true := by
  cases cs with
  | nil => cases hc
  | cons d cs =>
    simp only [isIdentifierChars, Bool.and_eq_true, List.all_eq_true] at h
    rcases List.mem_cons.mp hc with rfl | hc
    · exact isIdentifierPart_of_isIdentifierStart h.1
    · exact h.2 c hc

theorem mangleComponent_of_isIdentifierChars (h : isIdentifierChars cs = true) : mangleComponent cs = cs := by
  have hne : cs ≠ [] := by
    rintro rfl
    cases h
  have hhyphen : '-' ∉ body cs := by
    intro hm
    have hpart := isIdentifierPart_of_mem h ((List.dropWhile_suffix _).subset hm)
    exact absurd hpart (by decide)
  have hsame : underscoredComponent cs = cs := by
    rw [underscoredComponent, convertHyphens_of_not_mem hhyphen]
    exact List.takeWhile_append_dropWhile
  rw [mangleComponent_eq_mangledBody hne, mangledBody, hsame, if_pos h]
  exact hsame

theorem isIdentifierPart_hexDigit {n : Nat} (h : c ∈ Nat.toDigits 16 n) : isIdentifierPart c = true := by
  have hall : ∀ k < 16, isIdentifierPart k.digitChar = true := by decide
  obtain ⟨k, hk, rfl⟩ := exists_of_mem_toDigits_hex h
  exact hall k hk

theorem isIdentifierPart_of_mem_spelling {d : Char} (h : c ∈ (spelling d).toList) : isIdentifierPart c = true := by
  by_cases hd : d ∈ named
  · have hall : named.all fun d ↦ (spelling d).toList.all isIdentifierPart := by decide
    exact List.all_eq_true.mp (List.all_eq_true.mp hall d hd) c h
  · rw [spelling_of_not_mem hd, String.toList_append] at h
    rcases List.mem_append.mp h with h | h
    · obtain rfl : c = 'U' := by simpa using h
      decide
    · rw [String.toList_ofList] at h
      exact isIdentifierPart_hexDigit h

theorem isIdentifierPart_of_mem_escapeChar {d : Char} (h : c ∈ escapeChar d) : isIdentifierPart c = true := by
  unfold escapeChar at h
  split at h
  · next hd =>
    obtain rfl := List.mem_singleton.mp h
    exact hd.2
  · have hX : isIdentifierPart escapeDelimiter = true := by decide
    simp only [List.cons_append, List.mem_cons, List.mem_append, List.not_mem_nil, or_false] at h
    rcases h with rfl | h | rfl
    · exact hX
    · exact isIdentifierPart_of_mem_spelling h
    · exact hX

theorem isIdentifierChars_append_underscores {us : List Char} (hu : ∀ c ∈ us, c = '_')
    (h : isIdentifierChars cs = true) : isIdentifierChars (us ++ cs) = true := by
  cases us with
  | nil => exact h
  | cons u us =>
    have hpart : isIdentifierPart '_' = true := by decide
    simp only [List.cons_append, isIdentifierChars, Bool.and_eq_true, List.all_eq_true]
    refine ⟨?_, fun c hc ↦ ?_⟩
    · rw [hu u (by simp)]
      decide
    · rcases List.mem_append.mp hc with hc | hc
      · rw [hu c (by simp [hc]), hpart]
      · exact isIdentifierPart_of_mem h hc

theorem isIdentifierChars_mangleComponent (h : cs ≠ []) : isIdentifierChars (mangleComponent cs) = true := by
  rw [mangleComponent_eq_mangledBody h]
  unfold mangledBody
  split
  · next hid => exact hid
  · refine isIdentifierChars_append_underscores (leading_underscores cs) ?_
    have hstart : isIdentifierStart 'h' = true := by decide
    have hmark : "yx_".toList.all isIdentifierPart = true := by decide
    have hmarked : escapeMark = 'h' :: "yx_".toList := rfl
    simp only [hmarked, List.cons_append, isIdentifierChars, hstart, Bool.true_and, List.all_eq_true]
    intro c hc
    rcases List.mem_append.mp hc with hc | hc
    · exact List.all_eq_true.mp hmark c hc
    · obtain ⟨d, -, hd⟩ := List.mem_flatMap.mp hc
      exact isIdentifierPart_of_mem_escapeChar hd

theorem mangleComponent_mangleComponent (cs : List Char) : mangleComponent (mangleComponent cs) = mangleComponent cs := by
  by_cases h : cs = []
  · rw [h]
    rfl
  · exact mangleComponent_of_isIdentifierChars (isIdentifierChars_mangleComponent h)

theorem components_of_dots (h : cs.all (· = '.') = true) : components cs = [cs] := if_pos h

theorem eq_nil_of_mem_split {field : List Char} (h : ∀ c ∈ cs, c = '.') (hf : field ∈ Text.split '.' cs) : field = [] := by
  refine List.eq_nil_iff_forall_not_mem.mpr fun c hc ↦ ?_
  have hmem : c ∈ cs := by
    rw [← Text.join_split '.' cs]
    exact Text.mem_join hf hc
  exact Text.not_mem_of_mem_split hf (h c hmem ▸ hc)

theorem eq_nil_of_mangleChars_dots (h : ∀ c ∈ mangleChars cs, c = '.') : cs = [] := by
  by_cases hcs : cs.all (· = '.') = true
  · have hm : mangleChars cs = mangleComponent cs := by
      rw [mangleChars_eq_join_components, components_of_dots hcs]
      rfl
    rw [hm] at h
    refine mangleComponent_eq_nil.mp (List.eq_nil_iff_forall_not_mem.mpr fun c hc ↦ ?_)
    exact dot_not_mem_mangleComponent cs (h c hc ▸ hc)
  · have hsplit := split_mangleChars cs
    have hcomponents : components cs = Text.split '.' cs := if_neg hcs
    have hsame : ∀ component ∈ Text.split '.' cs, mangleComponent component = component := by
      intro component hm
      have hnil : mangleComponent component = [] := by
        refine eq_nil_of_mem_split h ?_
        rw [hsplit, hcomponents]
        exact List.mem_map_of_mem hm
      rw [hnil, mangleComponent_eq_nil.mp hnil]
    have hm : mangleChars cs = cs := by
      rw [mangleChars_eq_join_components, hcomponents, List.map_congr_left hsame, List.map_id', Text.join_split]
    rw [hm] at h
    exact absurd (by simpa using h) hcs

theorem mangleChars_ne_nil (h : cs ≠ []) : mangleChars cs ≠ [] := by
  intro hm
  exact h (eq_nil_of_mangleChars_dots (by simp [hm]))

theorem isIdentifierPart_or_dot_of_mem_mangleChars (h : c ∈ mangleChars cs) : isIdentifierPart c = true ∨ c = '.' := by
  rw [mangleChars_eq_join_components] at h
  rcases Text.eq_or_mem_of_mem_join h with hdot | ⟨field, hf, hc⟩
  · exact .inr hdot
  · obtain ⟨component, -, rfl⟩ := List.mem_map.mp hf
    by_cases hne : component = []
    · subst hne
      cases hc
    · exact .inl (isIdentifierPart_of_mem (isIdentifierChars_mangleComponent hne) hc)

/-- The text is empty, or not all of it is dots. -/
def IsProper (cs : List Char) : Prop := cs = [] ∨ ∃ c ∈ cs, c ≠ '.'

theorem isProper_mangleChars (cs : List Char) : IsProper (mangleChars cs) := by
  by_cases h : ∀ c ∈ mangleChars cs, c = '.'
  · left
    rw [eq_nil_of_mangleChars_dots h]
    rfl
  · right
    push Not at h
    exact h

theorem IsProper.components_eq (h : IsProper cs) : components cs = Text.split '.' cs := by
  rcases h with rfl | ⟨c, hc, hdot⟩
  · rfl
  · rw [components, if_neg]
    simp only [List.all_eq_true, decide_eq_true_eq]
    exact fun hall ↦ hdot (hall c hc)

theorem mangleChars_mangleChars (cs : List Char) : mangleChars (mangleChars cs) = mangleChars cs := by
  rw [mangleChars_eq_join_components (mangleChars cs), (isProper_mangleChars cs).components_eq, split_mangleChars,
    List.map_map, mangleChars_eq_join_components cs]
  simp only [Function.comp_def, mangleComponent_mangleComponent]

theorem mangle_mangle (name : String) : mangle (mangle name) = mangle name := by
  simp only [mangle, String.toList_ofList, mangleChars_mangleChars]

theorem components_qualified (h : ¬(p ++ '.' :: cs).all (· = '.') = true) :
    components (p ++ '.' :: cs) = Text.split '.' p ++ Text.split '.' cs := by
  rw [components, if_neg h, Text.split_append_sep_append]

theorem not_dots_qualified (h : ∃ c ∈ cs, c ≠ '.') : ¬(p ++ '.' :: cs).all (· = '.') = true := by
  obtain ⟨c, hc, hdot⟩ := h
  simp only [List.all_eq_true, decide_eq_true_eq]
  exact fun hall ↦ hdot (hall c (List.mem_append_right p (List.mem_cons_of_mem '.' hc)))

theorem mangleChars_qualified_mangleChars (hx : IsProper x) :
    mangleChars (p ++ '.' :: mangleChars x) = mangleChars (p ++ '.' :: x) := by
  rcases hx with rfl | hx
  · rfl
  · have hm : ∃ c ∈ mangleChars x, c ≠ '.' := by
      by_contra hall
      push Not at hall
      rw [eq_nil_of_mangleChars_dots hall] at hx
      simp at hx
    have hfields : components x = Text.split '.' x := IsProper.components_eq (.inr hx)
    rw [mangleChars_eq_join_components (p ++ _), mangleChars_eq_join_components (p ++ _),
      components_qualified (not_dots_qualified hm), components_qualified (not_dots_qualified hx), split_mangleChars,
      hfields, List.map_append, List.map_append, List.map_map]
    simp only [Function.comp_def, mangleComponent_mangleComponent]

theorem isUnmarked_of_dots (h : cs.all (· = '.') = true) : IsUnmarked cs := by
  have hh : 'h' ∉ body cs := by
    rw [(body_of_dots h).1]
    intro hm
    simpa using List.all_eq_true.mp h _ hm
  exact ⟨fun hp ↦ hh (hp.subset (by decide)), fun hp ↦ hh (hp.subset (by decide))⟩

theorem eq_of_mangleComponent_dots (hk : k.all (· = '.') = true) (hx : x.all (· = '.') = true)
    (h : mangleComponent k = mangleComponent x) : k = x := by
  have hsame := underscoredComponent_inj (isUnmarked_of_dots hk) (isUnmarked_of_dots hx) h
  rwa [(body_of_dots hk).2, (body_of_dots hx).2] at hsame

theorem eq_of_map_split_dots (hk : ∀ c ∈ k, c = '.')
    (h : (Text.split '.' k).map mangleComponent = (Text.split '.' x).map mangleComponent) : k = x := by
  have hkfields : ∀ field ∈ Text.split '.' k, mangleComponent field = field := by
    intro field hf
    rw [eq_nil_of_mem_split hk hf]
    rfl
  have hxfields : ∀ field ∈ Text.split '.' x, mangleComponent field = field := by
    intro field hf
    have hm : mangleComponent field ∈ (Text.split '.' k).map mangleComponent := by
      rw [h]
      exact List.mem_map_of_mem hf
    obtain ⟨g, hg, hgf⟩ := List.mem_map.mp hm
    rw [eq_nil_of_mem_split hk hg] at hgf
    rw [mangleComponent_eq_nil.mp hgf.symm]
    rfl
  rw [List.map_congr_left hkfields, List.map_congr_left hxfields, List.map_id', List.map_id'] at h
  rw [← Text.join_split '.' k, h, Text.join_split]

theorem mangleChars_eq_of_qualified_eq (hx : IsProper x)
    (h : mangleChars (p ++ '.' :: k) = mangleChars (p ++ '.' :: x)) : mangleChars k = mangleChars x := by
  have hmap : (components (p ++ '.' :: k)).map mangleComponent = (components (p ++ '.' :: x)).map mangleComponent := by
    rw [← split_mangleChars, h, split_mangleChars]
  -- A text of dots is one component, and any other qualified text has two at least.
  have hlong : ∀ ds : List Char, (Text.split '.' p ++ Text.split '.' ds).length ≠ 1 := by
    intro ds hlength
    have hp := List.length_pos_iff.mpr (Text.split_ne_nil '.' p)
    have hds := List.length_pos_iff.mpr (Text.split_ne_nil '.' ds)
    rw [List.length_append] at hlength
    omega
  have hlength := congrArg List.length hmap
  rw [List.length_map, List.length_map] at hlength
  by_cases hkdots : (p ++ '.' :: k).all (· = '.') = true <;> by_cases hxdots : (p ++ '.' :: x).all (· = '.') = true
  · rw [components_of_dots hkdots, components_of_dots hxdots] at hmap
    have hsame := eq_of_mangleComponent_dots hkdots hxdots (List.singleton_inj.mp hmap)
    rw [(List.cons.inj (List.append_cancel_left hsame)).2]
  · rw [components_of_dots hkdots, components_qualified hxdots] at hlength
    exact absurd hlength.symm (hlong x)
  · rw [components_of_dots hxdots, components_qualified hkdots] at hlength
    exact absurd hlength (hlong k)
  · rw [components_qualified hkdots, components_qualified hxdots, List.map_append, List.map_append] at hmap
    have hfields := List.append_cancel_left hmap
    by_cases hk : IsProper k
    · rw [mangleChars_eq_join_components, mangleChars_eq_join_components, hk.components_eq, hx.components_eq, hfields]
    · simp only [IsProper, not_or, not_exists, not_and, not_not] at hk
      rw [eq_of_map_split_dots hk.2 hfields]

end MacroLisp.Name
