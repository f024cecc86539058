import MacroLisp.Proofs.Name.Mangle
import MacroLisp.Proofs.Text.Runs
import Mathlib.Data.List.Nodup

namespace MacroLisp.Name

variable {c d : Char} {cs ds s t : List Char}

theorem exists_of_mem_toDigits_hex {n : Nat} (h : c ∈ Nat.toDigits 16 n) : ∃ k < 16, c = k.digitChar := by
  induction n using Nat.strong_induction_on with
  | _ n ih =>
    rw [Nat.toDigits_eq_if (by decide)] at h
    split at h
    · next hn => exact ⟨n, hn, List.mem_singleton.mp h⟩
    · next hn =>
      rcases List.mem_append.mp h with h | h
      · exact ih (n / 16) (by omega) h
      · exact ⟨n % 16, Nat.mod_lt n (by decide), List.mem_singleton.mp h⟩

theorem digitChar_inj {i j : Nat} (hi : i < 16) (hj : j < 16) (h : i.digitChar = j.digitChar) : i = j := by
  have hall : ∀ i < 16, ∀ j < 16, i.digitChar = j.digitChar → i = j := by decide
  exact hall i hi j hj h

theorem toDigits_hex_injective : Function.Injective (Nat.toDigits 16) := by
  intro m n h
  induction m using Nat.strong_induction_on generalizing n with
  | _ m ih =>
    rw [Nat.toDigits_eq_if (n := m) (by decide), Nat.toDigits_eq_if (n := n) (by decide)] at h
    have hlong : ∀ k x y, [x] ≠ Nat.toDigits 16 k ++ [y] := by
      intro k x y he
      have hlen := congrArg List.length he
      have hpos := Nat.length_toDigits_pos (b := 16) (n := k)
      simp only [List.length_append, List.length_singleton] at hlen
      omega
    split at h <;> split at h
    · next hm hn => exact digitChar_inj hm hn (List.singleton_inj.mp h)
    · exact absurd h (hlong _ _ _)
    · exact absurd h.symm (hlong _ _ _)
    · obtain ⟨hq, hr⟩ := List.append_inj' h rfl
      have := ih (m / 16) (by omega) hq
      have := digitChar_inj (Nat.mod_lt m (by decide)) (Nat.mod_lt n (by decide)) (List.singleton_inj.mp hr)
      omega

def named : List Char := " !\"#$%&'()*+,-./:;<=>?@[\\]^\x60\x7b|\x7d~X".toList

theorem spelling_of_not_mem (h : c ∉ named) : spelling c = "U" ++ String.ofList (Nat.toDigits 16 c.toNat) := by
  unfold spelling
  split <;> first | rfl | exact absurd (by decide) h

theorem nodup_spelling_named : (named.map spelling).Nodup := by decide

theorem letters_of_named : ∀ c ∈ named, 'X' ∉ (spelling c).toList ∧ '.' ∉ (spelling c).toList ∧
    (spelling c).toList.head? ≠ some 'U' := by
  have h : named.all fun c ↦ 'X' ∉ (spelling c).toList ∧ '.' ∉ (spelling c).toList ∧
      (spelling c).toList.head? ≠ some 'U' := by decide
  simpa only [List.all_eq_true, decide_eq_true_eq] using h

theorem not_mem_spelling (hd : d = 'X' ∨ d = '.') : d ∉ (spelling c).toList := by
  by_cases hc : c ∈ named
  · obtain ⟨hX, hdot, -⟩ := letters_of_named c hc
    rcases hd with rfl | rfl <;> assumption
  · intro hm
    rw [spelling_of_not_mem hc, String.toList_append, String.toList_ofList] at hm
    have hdigit : ∀ k < 16, k.digitChar ≠ 'X' ∧ k.digitChar ≠ '.' := by decide
    rcases List.mem_append.mp hm with hm | hm
    · rcases hd with rfl | rfl <;> simp at hm
    · rw [String.toList_ofList] at hm
      obtain ⟨k, hk, rfl⟩ := exists_of_mem_toDigits_hex hm
      rcases hd with hd | hd
      · exact (hdigit k hk).1 hd
      · exact (hdigit k hk).2 hd

theorem spelling_injective : Function.Injective spelling := by
  intro c d h
  have hU : ∀ {a b}, a ∈ named → b ∉ named → spelling a ≠ spelling b := by
    intro a b ha hb he
    refine (letters_of_named a ha).2.2 ?_
    rw [he, spelling_of_not_mem hb, String.toList_append]
    rfl
  by_cases hc : c ∈ named <;> by_cases hd : d ∈ named
  · exact List.inj_on_of_nodup_map nodup_spelling_named hc hd h
  · exact absurd h (hU hc hd)
  · exact absurd h.symm (hU hd hc)
  · rw [spelling_of_not_mem hc, spelling_of_not_mem hd, String.append_right_inj, String.ofList_inj] at h
    exact Char.toNat_inj.mp (toDigits_hex_injective h)

theorem escapeChar_append_inj (h : escapeChar c ++ s = escapeChar d ++ t) : c = d ∧ s = t := by
  unfold escapeChar at h
  split at h <;> split at h
  · simpa using h
  · next hc _ => exact absurd (List.cons.inj h).1 hc.1
  · next _ hd => exact absurd (List.cons.inj h).1.symm hd.1
  · simp only [List.cons_append, List.append_assoc, List.cons.injEq, true_and, List.nil_append] at h
    have hX : ∀ c, escapeDelimiter ∉ (spelling c).toList := fun c ↦ not_mem_spelling (.inl rfl)
    obtain ⟨hs, hst⟩ := Text.append_sep_inj (hX c) (hX d) h
    exact ⟨spelling_injective (String.toList_inj.mp hs), hst⟩

theorem escapeChar_ne_nil (c : Char) : escapeChar c ≠ [] := by
  unfold escapeChar
  split <;> simp

theorem flatMap_escapeChar_injective : Function.Injective (List.flatMap escapeChar) := by
  intro s t h
  induction s generalizing t with
  | nil => cases t <;> simp_all [escapeChar_ne_nil]
  | cons c s ih =>
    cases t with
    | nil => simp [escapeChar_ne_nil] at h
    | cons d t =>
      obtain ⟨rfl, hst⟩ := escapeChar_append_inj h
      rw [ih hst]

def body (cs : List Char) : List Char := cs.dropWhile (· = '_')

/-- A component with underscores for the hyphens after the first character of its body. -/
def underscoredComponent (cs : List Char) : List Char := cs.takeWhile (· = '_') ++ convertHyphens (body cs)

/-- A component that does not begin like an escaped one, read with or without its hyphens. -/
def IsUnmarked (cs : List Char) : Prop := ¬"hyx_".toList <+: body cs ∧ ¬"hyx-".toList <+: body cs

instance : DecidablePred IsUnmarked := fun cs ↦
  inferInstanceAs (Decidable (¬"hyx_".toList <+: body cs ∧ ¬"hyx-".toList <+: body cs))

theorem head?_body (cs : List Char) : (body cs).head? ≠ some '_' := by
  have h := List.head?_dropWhile_not (fun c : Char ↦ decide (c = '_')) cs
  intro he
  rw [body] at he
  simp [he] at h

theorem convertHyphens_convertHyphens (cs : List Char) : convertHyphens (convertHyphens cs) = convertHyphens cs := by
  cases cs with
  | nil => rfl
  | cons c cs =>
    have hidem : ∀ d, convertHyphen (convertHyphen d) = convertHyphen d := by
      intro d
      unfold convertHyphen
      split <;> simp_all
    simp [convertHyphens_cons, hidem]

theorem span_underscores (h : ∀ c ∈ s, c = '_') (ht : t.head? ≠ some '_') :
    (s ++ t).takeWhile (· = '_') = s ∧ (s ++ t).dropWhile (· = '_') = t := by
  refine Text.span_append (by simpa using h) ?_
  cases t <;> simp_all

theorem leading_underscores (cs : List Char) : ∀ c ∈ cs.takeWhile (· = '_'), c = '_' := by
  intro c hc
  simpa using List.mem_takeWhile_imp hc

theorem span_underscoredComponent (cs : List Char) :
    (underscoredComponent cs).takeWhile (· = '_') = cs.takeWhile (· = '_') ∧
      body (underscoredComponent cs) = convertHyphens (body cs) := by
  refine span_underscores (leading_underscores cs) ?_
  have h := head?_body cs
  cases hb : body cs <;> simp_all [convertHyphens]

theorem underscoredComponent_eq_nil : underscoredComponent cs = [] ↔ cs = [] := by
  constructor
  · intro h
    obtain ⟨ht, hb⟩ := List.append_eq_nil_iff.mp h
    have hb' : body cs = [] := by cases hb' : body cs <;> simp_all [convertHyphens]
    rw [← List.takeWhile_append_dropWhile (p := (· = '_')) (l := cs), ht]
    exact hb'
  · rintro rfl
    rfl

theorem underscoredComponent_underscoredComponent (cs : List Char) :
    underscoredComponent (underscoredComponent cs) = underscoredComponent cs := by
  obtain ⟨ht, hb⟩ := span_underscoredComponent cs
  rw [underscoredComponent, ht, hb, convertHyphens_convertHyphens, ← underscoredComponent]

def mangledBody (cs : List Char) : List Char :=
  if isIdentifierChars (underscoredComponent cs) then convertHyphens (body cs)
  else escapeMark ++ (convertHyphens (body cs)).flatMap escapeChar

theorem mangleComponent_eq_mangledBody (h : cs ≠ []) :
    mangleComponent cs = cs.takeWhile (· = '_') ++ mangledBody cs := mangleComponent_eq h

theorem head?_mangledBody (cs : List Char) : (mangledBody cs).head? ≠ some '_' := by
  unfold mangledBody
  split
  · have h := head?_body cs
    cases hb : body cs <;> simp_all [convertHyphens]
  · simp [escapeMark]

theorem mangleComponent_eq_nil : mangleComponent cs = [] ↔ cs = [] := by
  constructor
  · intro h
    by_contra hne
    rw [mangleComponent_eq_mangledBody hne] at h
    obtain ⟨ht, hb⟩ := List.append_eq_nil_iff.mp h
    unfold mangledBody at hb
    split at hb
    · exact hne (underscoredComponent_eq_nil.mp (by rw [underscoredComponent, ht, hb]; rfl))
    · simp [escapeMark] at hb
  · rintro rfl
    rfl

theorem mangleComponent_underscoredComponent (cs : List Char) :
    mangleComponent (underscoredComponent cs) = mangleComponent cs := by
  by_cases h : cs = []
  · rw [underscoredComponent_eq_nil.mpr h, h]
  · obtain ⟨ht, hb⟩ := span_underscoredComponent cs
    rw [mangleComponent_eq_mangledBody h, mangleComponent_eq_mangledBody (mt underscoredComponent_eq_nil.mp h), ht]
    simp only [mangledBody, hb, underscoredComponent_underscoredComponent, convertHyphens_convertHyphens]

theorem eq_of_convertHyphen (h : convertHyphen c = d) (hd : d ≠ '_') : c = d := by
  unfold convertHyphen at h
  split at h
  · exact absurd h.symm hd
  · exact h

theorem IsUnmarked.not_mark (h : IsUnmarked cs) : ¬escapeMark <+: convertHyphens (body cs) := by
  rintro ⟨r, hr⟩
  obtain ⟨h₁, h₂⟩ := h
  rcases hb : body cs with _ | ⟨a, _ | ⟨b, _ | ⟨c, _ | ⟨d, t⟩⟩⟩⟩ <;> rw [hb] at hr h₁ h₂ <;>
    simp only [escapeMark, convertHyphens_cons, List.map_cons, List.map_nil] at hr
  · simp [convertHyphens] at hr
  · simp at hr
  · simp at hr
  · simp at hr
  · -- Only the fourth character can have been a hyphen: from the others comes no underscore.
    obtain ⟨rfl, hb', hc, hd, -⟩ : 'h' = a ∧ 'y' = convertHyphen b ∧ 'x' = convertHyphen c ∧ '_' = convertHyphen d ∧
      r = t.map convertHyphen := by simpa using hr
    obtain rfl : b = 'y' := eq_of_convertHyphen hb'.symm (by decide)
    obtain rfl : c = 'x' := eq_of_convertHyphen hc.symm (by decide)
    by_cases hd' : d = '-'
    · exact h₂ ⟨t, by rw [hd']; rfl⟩
    · rw [convertHyphen_of_ne hd'] at hd
      exact h₁ ⟨t, by rw [← hd]; rfl⟩

theorem mangledBody_inj (hs : IsUnmarked s) (ht : IsUnmarked t) (h : mangledBody s = mangledBody t) :
    convertHyphens (body s) = convertHyphens (body t) := by
  unfold mangledBody at h
  split at h <;> split at h
  · exact h
  · exact absurd (h ▸ List.prefix_append _ _) hs.not_mark
  · exact absurd (h ▸ List.prefix_append _ _) ht.not_mark
  · exact flatMap_escapeChar_injective (List.append_cancel_left h)

theorem underscoredComponent_inj (hs : IsUnmarked s) (ht : IsUnmarked t)
    (h : mangleComponent s = mangleComponent t) : underscoredComponent s = underscoredComponent t := by
  by_cases hn : s = []
  · subst hn
    rw [mangleComponent_eq_nil.mp h.symm]
  have hn' : t ≠ [] := fun hn' ↦ hn (mangleComponent_eq_nil.mp (h.trans (mangleComponent_eq_nil.mpr hn')))
  rw [mangleComponent_eq_mangledBody hn, mangleComponent_eq_mangledBody hn'] at h
  obtain ⟨hu, hb⟩ := span_underscores (leading_underscores s) (head?_mangledBody s)
  obtain ⟨hu', hb'⟩ := span_underscores (leading_underscores t) (head?_mangledBody t)
  rw [h] at hu hb
  rw [underscoredComponent, underscoredComponent, ← hu, hu', mangledBody_inj hs ht (hb.symm.trans hb')]

theorem dot_not_mem_escapeChar (c : Char) : '.' ∉ escapeChar c := by
  have hpart : isIdentifierPart '.' = false := by decide
  unfold escapeChar
  split
  · next h =>
    intro hm
    obtain rfl := List.mem_singleton.mp hm
    simp [hpart] at h
  · simp [escapeDelimiter, not_mem_spelling]

theorem dot_not_mem_of_isIdentifierChars (h : isIdentifierChars cs = true) : '.' ∉ cs := by
  have hstart : isIdentifierStart '.' = false := by decide
  have hpart : isIdentifierPart '.' = false := by decide
  cases cs with
  | nil => simp
  | cons c cs =>
    simp only [isIdentifierChars, Bool.and_eq_true, List.all_eq_true] at h
    intro hm
    rcases List.mem_cons.mp hm with rfl | hm
    · simp [hstart] at h
    · simpa [hpart] using h.2 _ hm

theorem dot_not_mem_underscores (cs : List Char) : '.' ∉ cs.takeWhile (· = '_') := fun hm ↦ by
  simpa using leading_underscores cs _ hm

theorem dot_not_mem_mangleComponent (cs : List Char) : '.' ∉ mangleComponent cs := by
  by_cases h : cs = []
  · simp [mangleComponent_eq_nil.mpr h]
  rw [mangleComponent_eq_mangledBody h]
  unfold mangledBody
  split
  · next hi => exact dot_not_mem_of_isIdentifierChars hi
  · simp [dot_not_mem_underscores, escapeMark, dot_not_mem_escapeChar]

theorem dot_not_mem_underscoredComponent (h : '.' ∉ cs) : '.' ∉ underscoredComponent cs := by
  have hb : '.' ∉ body cs := fun hm ↦ h ((List.dropWhile_suffix _).subset hm)
  have hc : '.' ∉ convertHyphens (body cs) := by
    cases hbody : body cs with
    | nil => simp [convertHyphens]
    | cons c bs =>
      rw [hbody] at hb
      rw [convertHyphens_cons]
      intro hm
      rcases List.mem_cons.mp hm with rfl | hm
      · simp at hb
      · obtain ⟨d, hd, hdot⟩ := List.mem_map.mp hm
        obtain rfl := eq_of_convertHyphen hdot (by decide)
        simp [hd] at hb
  simp [underscoredComponent, dot_not_mem_underscores, hc]

def components (cs : List Char) : List (List Char) := if cs.all (· = '.') then [cs] else Text.split '.' cs

def underscoredChars (cs : List Char) : List Char :=
  if cs.all (· = '.') then cs else Text.join '.' ((Text.split '.' cs).map underscoredComponent)

/-- A name with underscores for hyphens, in each component after the first character of its body. -/
def underscored (name : String) : String := String.ofList (underscoredChars name.toList)

theorem mangleChars_eq_join_components (cs : List Char) :
    mangleChars cs = Text.join '.' ((components cs).map mangleComponent) := by
  unfold components
  split
  · next h => simp [mangleChars, h, Text.join]
  · next h => exact mangleChars_eq_join (by simpa using h)

theorem split_mangleChars (cs : List Char) : Text.split '.' (mangleChars cs) = (components cs).map mangleComponent := by
  rw [mangleChars_eq_join_components]
  refine Text.split_join ?_ ?_
  · unfold components
    split <;> simp [Text.split_ne_nil]
  · intro field hf
    obtain ⟨c, -, rfl⟩ := List.mem_map.mp hf
    exact dot_not_mem_mangleComponent c

theorem body_of_dots (h : cs.all (· = '.') = true) : body cs = cs ∧ underscoredComponent cs = cs := by
  have hne : ∀ c ∈ cs, c = '.' := by simpa using h
  have hu : '_' ∉ cs := fun hm ↦ by simpa using hne _ hm
  have hh : '-' ∉ cs := fun hm ↦ by simpa using hne _ hm
  have hb : body cs = cs := dropWhile_underscore hu
  refine ⟨hb, ?_⟩
  rw [underscoredComponent, hb, takeWhile_underscore hu, convertHyphens_of_not_mem hh, List.nil_append]

theorem underscoredChars_eq_join_components (cs : List Char) :
    underscoredChars cs = Text.join '.' ((components cs).map underscoredComponent) := by
  unfold underscoredChars components
  split
  · next h => simp [Text.join, (body_of_dots h).2]
  · rfl

theorem dot_not_mem_of_mem_split {field : List Char} (h : field ∈ (Text.split '.' cs).map underscoredComponent) :
    '.' ∉ field := by
  obtain ⟨component, hm, rfl⟩ := List.mem_map.mp h
  exact dot_not_mem_underscoredComponent (Text.not_mem_of_mem_split hm)

theorem underscoredChars_all_dots (h : (underscoredChars cs).all (· = '.') = true) : cs.all (· = '.') = true := by
  by_contra hne
  rw [underscoredChars, if_neg hne] at h
  have hempty : ∀ component ∈ Text.split '.' cs, underscoredComponent component = component := by
    intro component hm
    have hmap := List.mem_map_of_mem (f := underscoredComponent) hm
    have hnil : underscoredComponent component = [] := by
      refine List.eq_nil_iff_forall_not_mem.mpr fun c hc ↦ ?_
      have hdot : c = '.' := by simpa using List.all_eq_true.mp h c (Text.mem_join hmap hc)
      exact dot_not_mem_of_mem_split hmap (hdot ▸ hc)
    rw [underscoredComponent_eq_nil.mp hnil]
    rfl
  rw [List.map_congr_left hempty, List.map_id', Text.join_split] at h
  exact hne h

theorem components_underscoredChars (cs : List Char) :
    components (underscoredChars cs) = (components cs).map underscoredComponent := by
  by_cases h : cs.all (· = '.') = true
  · have hu : underscoredChars cs = cs := if_pos h
    rw [hu, components, if_pos h, List.map_singleton, (body_of_dots h).2]
  · rw [components, if_neg (mt underscoredChars_all_dots h), components, if_neg h, underscoredChars, if_neg h]
    exact Text.split_join (by simp [Text.split_ne_nil]) fun field hf ↦ dot_not_mem_of_mem_split hf

theorem mangleChars_underscoredChars (cs : List Char) : mangleChars (underscoredChars cs) = mangleChars cs := by
  rw [mangleChars_eq_join_components, components_underscoredChars, mangleChars_eq_join_components, List.map_map]
  simp only [Function.comp_def, mangleComponent_underscoredComponent]

def IsUnmarkedName (name : String) : Prop := ∀ component ∈ Text.split '.' name.toList, IsUnmarked component

instance : DecidablePred IsUnmarkedName := fun name ↦
  inferInstanceAs (Decidable (∀ component ∈ Text.split '.' name.toList, IsUnmarked component))

theorem IsUnmarkedName.components {name : String} (h : IsUnmarkedName name) :
    ∀ component ∈ components name.toList, IsUnmarked component := by
  unfold Name.components
  split
  · next hdots =>
    intro component hm
    obtain rfl := List.mem_singleton.mp hm
    have hh : 'h' ∉ body name.toList := by
      rw [(body_of_dots hdots).1]
      intro hm
      simpa using List.all_eq_true.mp hdots _ hm
    exact ⟨fun hp ↦ hh (hp.subset (by decide)), fun hp ↦ hh (hp.subset (by decide))⟩
  · exact h

theorem map_underscoredComponent_inj {l l' : List (List Char)} (hl : ∀ cs ∈ l, IsUnmarked cs)
    (hl' : ∀ cs ∈ l', IsUnmarked cs) (h : l.map mangleComponent = l'.map mangleComponent) :
    l.map underscoredComponent = l'.map underscoredComponent := by
  induction l generalizing l' with
  | nil => cases l' <;> simp_all
  | cons s l ih =>
    cases l' with
    | nil => simp at h
    | cons t l' =>
      obtain ⟨hc, ht⟩ := List.cons.inj h
      rw [List.map_cons, List.map_cons, underscoredComponent_inj (hl s (by simp)) (hl' t (by simp)) hc,
        ih (fun cs hm ↦ hl cs (List.mem_cons_of_mem s hm)) (fun cs hm ↦ hl' cs (List.mem_cons_of_mem t hm)) ht]

/-- Mangling makes two names one exactly if they differ in nothing but hyphens and underscores. -/
theorem mangle_eq_iff_underscored_eq {x y : String} (hx : IsUnmarkedName x) (hy : IsUnmarkedName y) :
    mangle x = mangle y ↔ underscored x = underscored y := by
  simp only [mangle, underscored, String.ofList_inj]
  constructor
  · intro h
    have hmap : (components x.toList).map mangleComponent = (components y.toList).map mangleComponent := by
      rw [← split_mangleChars, h, split_mangleChars]
    rw [underscoredChars_eq_join_components, underscoredChars_eq_join_components,
      map_underscoredComponent_inj hx.components hy.components hmap]
  · intro h
    rw [← mangleChars_underscoredChars, h, mangleChars_underscoredChars]

/-- A hyphen at the beginning of a body is not an underscore, one that comes later is. -/
theorem mangle_of_hyphens :
    (mangle "_-a-b.c?" = mangle "_-a_b.c?" ∧ mangle "_-a-b.c?" ≠ mangle "__a-b.c?") ∧
      IsUnmarkedName "_-a-b.c?" ∧ IsUnmarkedName "_-a_b.c?" ∧ IsUnmarkedName "__a-b.c?" := by
  have h₁ : IsUnmarkedName "_-a-b.c?" := by decide
  have h₂ : IsUnmarkedName "_-a_b.c?" := by decide
  have h₃ : IsUnmarkedName "__a-b.c?" := by decide
  refine ⟨⟨(mangle_eq_iff_underscored_eq h₁ h₂).mpr (by decide), ?_⟩, h₁, h₂, h₃⟩
  rw [Ne, mangle_eq_iff_underscored_eq h₁ h₃]
  decide

end MacroLisp.Name
