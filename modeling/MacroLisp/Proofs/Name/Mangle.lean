import MacroLisp.Name.Mangle
import MacroLisp.Proofs.Text.Fields
import Mathlib.Data.List.TakeWhile

namespace MacroLisp.Name

variable {c : Char} {cs q ds : List Char}

theorem isIdentifierPart_of_isDigit (h : c.isDigit = true) : isIdentifierPart c = true := by
  have hc : 48 ≤ c.toNat ∧ c.toNat ≤ 57 := by
    simpa [Char.isDigit, UInt32.le_iff_toNat_le, Char.toNat_val] using h
  have hn : Text.isNumeric c = true := by
    rw [Text.isNumeric, Text.numericRanges, Text.Ranges.covers]
    simp only [Bool.and_eq_true, Bool.or_eq_true, decide_eq_true_eq]
    exact ⟨hc.1, .inl hc.2⟩
  simp [isIdentifierPart, hn]

theorem escapeChar_of_part (hX : c ≠ escapeDelimiter) (h : isIdentifierPart c = true) : escapeChar c = [c] :=
  if_pos ⟨hX, h⟩

theorem escapeChar_of_isDigit (h : c.isDigit = true) : escapeChar c = [c] := by
  refine escapeChar_of_part ?_ (isIdentifierPart_of_isDigit h)
  rintro rfl
  simp [escapeDelimiter] at h

def convertHyphen (c : Char) : Char := if c = '-' then '_' else c

theorem convertHyphens_cons (c : Char) (cs : List Char) : convertHyphens (c :: cs) = c :: cs.map convertHyphen := rfl

theorem convertHyphens_append (h : q ≠ []) (cs : List Char) :
    convertHyphens (q ++ cs) = convertHyphens q ++ cs.map convertHyphen := by
  cases q with
  | nil => exact absurd rfl h
  | cons c q => simp [convertHyphens_cons]

theorem convertHyphen_of_ne (h : c ≠ '-') : convertHyphen c = c := if_neg h

theorem map_convertHyphen (h : '-' ∉ cs) : cs.map convertHyphen = cs := by
  induction cs with
  | nil => rfl
  | cons c cs ih =>
    simp only [List.mem_cons, not_or] at h
    rw [List.map_cons, convertHyphen_of_ne (Ne.symm h.1), ih h.2]

theorem convertHyphens_of_not_mem (h : '-' ∉ cs) : convertHyphens cs = cs := by
  cases cs with
  | nil => rfl
  | cons c cs => rw [convertHyphens_cons, map_convertHyphen fun hm ↦ h (by simp [hm])]

theorem takeWhile_underscore (h : '_' ∉ cs) : cs.takeWhile (· = '_') = [] := by
  cases cs with
  | nil => rfl
  | cons c cs => exact List.takeWhile_cons_of_neg (by simpa using fun e : c = '_' ↦ h (by simp [e]))

theorem dropWhile_underscore (h : '_' ∉ cs) : cs.dropWhile (· = '_') = cs := by
  simpa [takeWhile_underscore h] using List.takeWhile_append_dropWhile (p := (· = '_')) (l := cs)

theorem flatMap_escapeChar_digits (h : ∀ d ∈ ds, d.isDigit = true) : ds.flatMap escapeChar = ds := by
  induction ds with
  | nil => rfl
  | cons d ds ih =>
    rw [List.flatMap_cons, escapeChar_of_isDigit (h d (by simp)), ih fun d' hd ↦ h d' (by simp [hd])]
    rfl

theorem mangleComponent_eq (h : cs ≠ []) :
    mangleComponent cs =
      cs.takeWhile (· = '_') ++
        if isIdentifierChars (cs.takeWhile (· = '_') ++ convertHyphens (cs.dropWhile (· = '_')))
        then convertHyphens (cs.dropWhile (· = '_'))
        else escapeMark ++ (convertHyphens (cs.dropWhile (· = '_'))).flatMap escapeChar := by
  have he : cs.isEmpty = false := by simpa using h
  simp only [mangleComponent, he, Bool.false_eq_true, if_false]
  split <;> simp

theorem not_mem_of_digits (h : ∀ d ∈ ds, d.isDigit = true) (hc : c.isDigit = false) : c ∉ ds :=
  fun hm ↦ by simp [h c hm] at hc

theorem exists_mangleComponent_append (q : List Char) (h : ∀ d ∈ ds, d.isDigit = true) :
    ∃ p, mangleComponent (q ++ '_' :: ds) = p ++ '_' :: ds := by
  have hh : '-' ∉ ds := not_mem_of_digits h rfl
  have hu : '_' ∉ ds := not_mem_of_digits h rfl
  rw [mangleComponent_eq (by simp)]
  by_cases hq : ∀ c ∈ q, c = '_'
  · have hd : (q ++ '_' :: ds).dropWhile (· = '_') = ds := by
      rw [List.dropWhile_append_of_pos (by simpa using hq), List.dropWhile_cons_of_pos (by simp),
        dropWhile_underscore hu]
    have ht : (q ++ '_' :: ds).takeWhile (· = '_') = q ++ ['_'] := by
      rw [List.takeWhile_append_of_pos (by simpa using hq), List.takeWhile_cons_of_pos (by simp),
        takeWhile_underscore hu]
    rw [hd, ht, convertHyphens_of_not_mem hh]
    split
    · exact ⟨q, by simp⟩
    · exact ⟨q ++ '_' :: "hyx".toList, by simp [escapeMark, flatMap_escapeChar_digits h]⟩
  · have hne : q.dropWhile (· = '_') ≠ [] := by
      rw [Ne, List.dropWhile_eq_nil_iff]
      simpa using hq
    have hd : (q ++ '_' :: ds).dropWhile (· = '_') = q.dropWhile (· = '_') ++ '_' :: ds := by
      rw [List.dropWhile_append, if_neg (by simpa using hne)]
    have hm : ('_' :: ds).map convertHyphen = '_' :: ds := map_convertHyphen (by simpa using hh)
    rw [hd, convertHyphens_append hne, hm]
    split
    · exact ⟨_, (List.append_assoc ..).symm⟩
    · refine ⟨(q ++ '_' :: ds).takeWhile (· = '_') ++ (escapeMark ++
        (convertHyphens (q.dropWhile (· = '_'))).flatMap escapeChar), ?_⟩
      have he : ('_' :: ds).flatMap escapeChar = '_' :: ds := by
        rw [List.flatMap_cons, flatMap_escapeChar_digits h]
        rfl
      rw [List.flatMap_append, he]
      simp only [List.append_assoc]

theorem convertHyphens_of_underscore_not_mem (h : '_' ∉ convertHyphens cs) : convertHyphens cs = cs := by
  cases cs with
  | nil => rfl
  | cons c cs =>
    rw [convertHyphens_cons] at h ⊢
    rw [map_convertHyphen]
    exact fun hm ↦ h (List.mem_cons_of_mem _ (List.mem_map.mpr ⟨'-', hm, rfl⟩))

theorem mangleComponent_of_underscore_not_mem (h : '_' ∉ mangleComponent cs) : mangleComponent cs = cs := by
  rcases eq_or_ne cs [] with rfl | hne
  · rfl
  · rw [mangleComponent_eq hne] at h ⊢
    split at h
    · next hid =>
      rw [if_pos hid]
      rw [convertHyphens_of_underscore_not_mem fun hm ↦ h (List.mem_append_right _ hm)]
      exact List.takeWhile_append_dropWhile
    · exact absurd (by simp [escapeMark]) h

theorem eq_of_mangle_eq {name w : String} (hdot : '.' ∉ name.toList) (hw : '_' ∉ w.toList) (h : mangle name = w) :
    name = w := by
  have hm : mangleChars name.toList = mangleComponent name.toList := by simp [mangleChars, hdot]
  have hl : mangleComponent name.toList = w.toList := by
    rw [← hm, ← h, mangle, String.toList_ofList]
  rw [← String.toList_inj, ← hl]
  exact (mangleComponent_of_underscore_not_mem (by rwa [hl])).symm

theorem mangleChars_eq_join (h : ∃ c ∈ cs, c ≠ '.') :
    mangleChars cs = Text.join '.' ((Text.split '.' cs).map mangleComponent) := by
  have ha : cs.all (· = '.') = false := by
    simpa [List.all_eq_false] using h
  rw [mangleChars, ha]
  by_cases hd : '.' ∈ cs
  · simp [hd]
  · simp [hd, Text.split_of_not_mem hd, Text.join]

theorem exists_mangleChars_append (q : List Char) (h : ∀ d ∈ ds, d.isDigit = true) :
    ∃ p, mangleChars (q ++ '_' :: ds) = p ++ '_' :: ds := by
  have hs : '.' ∉ '_' :: ds := by
    simpa using not_mem_of_digits (c := '.') h rfl
  obtain ⟨fields, field, -, hf⟩ := Text.split_append_right hs q
  obtain ⟨p, hp⟩ := exists_mangleComponent_append field h
  obtain ⟨p', hp'⟩ := Text.exists_join_append '.' (fields.map mangleComponent) p
  refine ⟨p', ?_⟩
  rw [mangleChars_eq_join ⟨'_', by simp, by decide⟩, hf, List.map_append, List.map_singleton, hp, hp']

end MacroLisp.Name
