import MacroLisp.Text.Fields

namespace MacroLisp.Text

variable {sep c : Char} {cs p s : List Char}

@[simp] theorem split_sep_cons : split sep (sep :: cs) = [] :: split sep cs := by
  simp [split]

theorem split_cons_of_ne (h : c ≠ sep) {field : List Char} {fields : List (List Char)}
    (hs : split sep cs = field :: fields) : split sep (c :: cs) = (c :: field) :: fields := by
  simp [split, h, hs]

theorem split_of_not_mem (h : sep ∉ cs) : split sep cs = [cs] := by
  induction cs with
  | nil => rfl
  | cons c cs ih =>
    simp only [List.mem_cons, not_or] at h
    exact split_cons_of_ne (Ne.symm h.1) (ih h.2)

theorem split_append_left (h : sep ∉ p) (cs : List Char) :
    ∃ field fields, split sep cs = field :: fields ∧ split sep (p ++ cs) = (p ++ field) :: fields := by
  induction p with
  | nil =>
    obtain ⟨field, fields, hs⟩ := List.exists_cons_of_ne_nil (split_ne_nil sep cs)
    exact ⟨field, fields, hs, hs⟩
  | cons c p ih =>
    simp only [List.mem_cons, not_or] at h
    obtain ⟨field, fields, hs, hp⟩ := ih h.2
    exact ⟨field, fields, hs, split_cons_of_ne (Ne.symm h.1) hp⟩

theorem split_append_right (h : sep ∉ s) (cs : List Char) :
    ∃ fields field, split sep cs = fields ++ [field] ∧ split sep (cs ++ s) = fields ++ [field ++ s] := by
  induction cs with
  | nil => exact ⟨[], [], rfl, split_of_not_mem h⟩
  | cons c cs ih =>
    obtain ⟨fields, field, hcs, hs⟩ := ih
    by_cases hc : c = sep
    · subst hc
      exact ⟨[] :: fields, field, by simp [hcs], by simp [hs]⟩
    · cases fields with
      | nil => exact ⟨[], c :: field, split_cons_of_ne hc hcs, split_cons_of_ne hc hs⟩
      | cons f fields => exact ⟨(c :: f) :: fields, field, split_cons_of_ne hc hcs, split_cons_of_ne hc hs⟩

theorem exists_join_append (sep : Char) (fields : List (List Char)) (field : List Char) :
    ∃ p, ∀ s, join sep (fields ++ [field ++ s]) = p ++ s := by
  induction fields with
  | nil => exact ⟨field, fun s ↦ rfl⟩
  | cons f fields ih =>
    obtain ⟨p, hp⟩ := ih
    refine ⟨f ++ sep :: p, fun s ↦ ?_⟩
    rw [List.cons_append, join_cons_of_ne_nil sep f (by simp), hp s]
    simp

theorem exists_join_cons (sep : Char) (fields : List (List Char)) :
    ∃ r, r.head?.all (· == sep) ∧ ∀ field, join sep (field :: fields) = field ++ r := by
  cases fields with
  | nil => exact ⟨[], rfl, fun field ↦ (List.append_nil field).symm⟩
  | cons f fields => exact ⟨sep :: join sep (f :: fields), by simp, fun field ↦ rfl⟩

theorem mem_head?_of_split {field : List Char} {fields : List (List Char)} (hs : split sep cs = field :: fields)
    (hc : c ∈ field.head?) : c ∈ cs.head? := by
  obtain ⟨r, -, hr⟩ := exists_join_cons sep fields
  have hcs : cs = field ++ r := by rw [← hr, ← hs, join_split]
  cases field with
  | nil => simp at hc
  | cons d field => simpa [hcs] using hc

theorem split_append_sep (h : sep ∉ p) (cs : List Char) : split sep (p ++ sep :: cs) = p :: split sep cs := by
  obtain ⟨field, fields, hs, hp⟩ := split_append_left h (sep :: cs)
  rw [split_sep_cons] at hs
  obtain ⟨rfl, rfl⟩ := List.cons.inj hs
  rw [hp, List.append_nil]

theorem append_sep_inj {q ds : List Char} (hp : sep ∉ p) (hq : sep ∉ q) (h : p ++ sep :: cs = q ++ sep :: ds) :
    p = q ∧ cs = ds := by
  have hs := congrArg (split sep) h
  rw [split_append_sep hp, split_append_sep hq] at hs
  obtain ⟨hpq, hcs⟩ := List.cons.inj hs
  exact ⟨hpq, by rw [← join_split sep cs, hcs, join_split]⟩

theorem split_join {fields : List (List Char)} (hne : fields ≠ []) (h : ∀ field ∈ fields, sep ∉ field) :
    split sep (join sep fields) = fields := by
  induction fields with
  | nil => exact absurd rfl hne
  | cons f fields ih =>
    cases fields with
    | nil => exact split_of_not_mem (h f (by simp))
    | cons g fields =>
      rw [join_cons_of_ne_nil sep f (by simp), split_append_sep (h f (by simp)),
        ih (by simp) fun field hf ↦ h field (List.mem_cons_of_mem f hf)]

theorem not_mem_of_mem_split {field : List Char} (h : field ∈ split sep cs) : sep ∉ field := by
  induction cs generalizing field with
  | nil =>
    obtain rfl := List.mem_singleton.mp h
    simp
  | cons c cs ih =>
    by_cases hc : c = sep
    · subst hc
      rw [split_sep_cons] at h
      rcases List.mem_cons.mp h with rfl | h
      · simp
      · exact ih h
    · obtain ⟨f, fields, hs⟩ := List.exists_cons_of_ne_nil (split_ne_nil sep cs)
      rw [split_cons_of_ne hc hs] at h
      rcases List.mem_cons.mp h with rfl | h
      · have hf : sep ∉ f := ih (by simp [hs])
        simp [Ne.symm hc, hf]
      · exact ih (by simp [hs, h])

theorem not_mem_of_split_eq_singleton {field : List Char} (h : split sep cs = [field]) : sep ∉ cs := by
  have hself : cs = field := by
    rw [← join_split sep cs, h]
    rfl
  have hmem : cs ∈ split sep cs := by
    rw [h, hself]
    exact List.mem_singleton_self field
  exact not_mem_of_mem_split hmem

theorem mem_join {fields : List (List Char)} {field : List Char} (hf : field ∈ fields) (hc : c ∈ field) :
    c ∈ join sep fields := by
  induction fields with
  | nil => simp at hf
  | cons f fields ih =>
    obtain ⟨r, -, hr⟩ := exists_join_cons sep fields
    rcases List.mem_cons.mp hf with rfl | hf
    · rw [hr]
      exact List.mem_append_left r hc
    · rw [join_cons_of_ne_nil sep f (List.ne_nil_of_mem hf)]
      exact List.mem_append_right f (List.mem_cons_of_mem sep (ih hf))

theorem eq_or_mem_of_mem_join {fields : List (List Char)} (h : c ∈ join sep fields) :
    c = sep ∨ ∃ field ∈ fields, c ∈ field := by
  induction fields with
  | nil => cases h
  | cons f fields ih =>
    cases fields with
    | nil => exact .inr ⟨f, by simp, h⟩
    | cons g fields =>
      rw [join_cons_of_ne_nil sep f (by simp), List.mem_append, List.mem_cons] at h
      rcases h with h | h | h
      · exact .inr ⟨f, by simp, h⟩
      · exact .inl h
      · rcases ih h with hc | ⟨field, hf, hc⟩
        · exact .inl hc
        · exact .inr ⟨field, List.mem_cons_of_mem f hf, hc⟩

end MacroLisp.Text
