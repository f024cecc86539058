import MacroLisp.Name.Fresh
import MacroLisp.Proofs.Name.Mangle
import Mathlib.Data.List.Basic
import Std.Data.String.ToNat

namespace MacroLisp.NameSupply

open Name (mangleComponent mangleChars convertHyphen convertHyphens escapeChar escapeMark)

variable {c : Char} {cs t : List Char}

theorem isReserved_withReserved (cs : List Char) : isReserved (String.ofList (withReserved cs)) = true := by
  unfold isReserved withReserved
  rw [String.toList_ofList, List.isPrefixOf_iff_prefix]
  split
  · exact List.prefix_append _ _
  · split
    · next h => exact List.isPrefixOf_iff_prefix.mp h
    · exact List.prefix_append _ _

theorem mem_withReserved (h : c ∈ withReserved cs) : c ∈ reserved ∨ c ∈ cs := by
  unfold withReserved at h
  split at h
  · next rest hrest =>
    rw [← List.isPrefixOf?_eq_some_iff_append_eq.mp hrest]
    exact (List.mem_append.mp h).imp_right (List.mem_append_right _)
  · split at h
    · exact .inr h
    · exact List.mem_append.mp h

theorem isReserved_fresh (s : NameSupply) (hint : String) : isReserved (s.fresh hint).1 = true :=
  isReserved_withReserved _

def counterText (cs : List Char) : List Char := (cs.reverse.takeWhile (· ≠ '_')).reverse

theorem counterText_append (p cs : List Char) : counterText (p ++ '_' :: cs) = counterText ('_' :: cs) := by
  simp [counterText, List.takeWhile_append]

theorem counterText_cons (h : '_' ∉ cs) : counterText ('_' :: cs) = cs := by
  have hr : ∀ c ∈ cs.reverse, decide (c ≠ '_') = true := by
    intro c hc
    simpa using fun e : c = '_' ↦ h (by simpa [e] using hc)
  rw [counterText, List.reverse_cons, List.takeWhile_append_of_pos hr]
  simp

theorem repr_digits (n : Nat) : ∀ d ∈ n.repr.toList, d.isDigit = true := by
  intro d hd
  rw [Nat.toList_repr] at hd
  exact Nat.isDigit_of_mem_toDigits (by decide) (by decide) hd

def Opens (cs : List Char) : Prop := cs.head? ≠ some '_'

def reservedBody : List Char := reserved.drop 1

theorem dot_not_mem_reserved : '.' ∉ reserved := by decide

theorem flatMap_escapeChar_reservedBody : reservedBody.flatMap escapeChar = reservedBody := by decide

theorem withReserved_reserved (t : List Char) : withReserved (reserved ++ t) = reserved ++ t := rfl

theorem withReserved_escapedReserved (t : List Char) : withReserved (escapedReserved ++ t) = reserved ++ t := rfl

theorem opens_escapeChar (h : c ≠ '_') (cs : List Char) : Opens (escapeChar c ++ cs) := by
  unfold escapeChar Opens
  split
  · simpa using h
  · simp [Name.escapeDelimiter]

theorem exists_mangleComponent_reserved (h : ∀ c ∈ t.head?, c ≠ '_' ∧ c ≠ '-') :
    ∃ t', Opens t' ∧
      (mangleComponent (reserved ++ t) = reserved ++ t' ∨ mangleComponent (reserved ++ t) = escapedReserved ++ t') := by
  have ho : Opens (t.map convertHyphen) ∧ Opens ((t.map convertHyphen).flatMap escapeChar) := by
    cases t with
    | nil => simp [Opens]
    | cons c t =>
      obtain ⟨hu, hh⟩ := h c rfl
      rw [List.map_cons, Name.convertHyphen_of_ne hh, List.flatMap_cons]
      exact ⟨by simpa [Opens] using hu, opens_escapeChar hu _⟩
  have hw : (reserved ++ t).takeWhile (· = '_') = ['_'] := rfl
  have hd : (reserved ++ t).dropWhile (· = '_') = reservedBody ++ t := rfl
  have hc : convertHyphens (reservedBody ++ t) = reservedBody ++ t.map convertHyphen := rfl
  rw [Name.mangleComponent_eq (List.append_ne_nil_of_left_ne_nil (by decide) t), hw, hd, hc]
  split
  · exact ⟨_, ho.1, .inl rfl⟩
  · refine ⟨_, ho.2, .inr ?_⟩
    rw [List.flatMap_append, flatMap_escapeChar_reservedBody]
    rfl

theorem exists_mangleChars_reserved (h : ∀ c ∈ t.head?, c ≠ '_' ∧ c ≠ '-') :
    ∃ t', Opens t' ∧
      (mangleChars (reserved ++ t) = reserved ++ t' ∨ mangleChars (reserved ++ t) = escapedReserved ++ t') := by
  obtain ⟨field, fields, ht, hs⟩ := Text.split_append_left dot_not_mem_reserved t
  obtain ⟨r, hrd, hr⟩ := Text.exists_join_cons '.' (fields.map mangleComponent)
  obtain ⟨t', ho, ht'⟩ := exists_mangleComponent_reserved fun c hc ↦ h c (Text.mem_head?_of_split ht hc)
  have ho' : Opens (t' ++ r) := by
    cases t' with
    | nil =>
      intro he
      simp only [List.nil_append] at he
      simp [he] at hrd
    | cons c t' => simpa [Opens] using ho
  refine ⟨t' ++ r, ho', ?_⟩
  rw [Name.mangleChars_eq_join ⟨'_', List.mem_append_left t (by decide), by decide⟩, hs, List.map_cons, hr]
  rcases ht' with ht' | ht' <;> rw [ht', List.append_assoc]
  · exact .inl rfl
  · exact .inr rfl

theorem exists_rawName (hint : List Char) (n : Nat) :
    ∃ t, rawName hint n = reserved ++ t ∧ (∀ c ∈ t.head?, c ≠ '_' ∧ c ≠ '-') ∧
      ∃ q, rawName hint n = q ++ '_' :: n.repr.toList := by
  unfold rawName
  cases hb : hintBody hint with
  | nil =>
    refine ⟨_, rfl, ?_, "_hy_gensym".toList, rfl⟩
    intro c hc
    have hd := repr_digits n c (List.mem_of_mem_head? hc)
    constructor <;> rintro rfl <;> simp at hd
  | cons d body =>
    refine ⟨d :: body ++ '_' :: n.repr.toList, by simp, ?_, reserved ++ d :: body, rfl⟩
    intro c hc
    obtain rfl : d = c := by simpa using hc
    have hn := List.head?_dropWhile_not (fun c : Char ↦ decide (c = '_' ∨ c = '-'))
      ((reserved.isPrefixOf? hint).getD hint)
    rw [hintBody] at hb
    rw [hb] at hn
    simpa using hn

/-- A fresh name: the reserved beginning once, and the count behind the last underscore. -/
theorem exists_fresh (count : Nat) (hint : String) :
    ∃ t, (fresh ⟨Name.mangle, count⟩ hint).1.toList = reserved ++ t ∧ Opens t ∧
      counterText (reserved ++ t) = (count + 1).repr.toList := by
  obtain ⟨t, ht, hh, q, hq⟩ := exists_rawName hint.toList (count + 1)
  obtain ⟨t', ho, ht'⟩ := exists_mangleChars_reserved hh
  obtain ⟨p, hp⟩ := Name.exists_mangleChars_append q (repr_digits (count + 1))
  have hu : '_' ∉ (count + 1).repr.toList := Name.not_mem_of_digits (repr_digits _) rfl
  have hc : counterText (mangleChars (rawName hint.toList (count + 1))) = (count + 1).repr.toList := by
    rw [hq, hp, counterText_append, counterText_cons hu]
  rw [ht] at hc
  refine ⟨t', ?_, ho, ?_⟩
  · simp only [fresh, Name.mangle, String.toList_ofList, ht]
    rcases ht' with ht' | ht' <;> rw [ht']
    · exact withReserved_reserved t'
    · exact withReserved_escapedReserved t'
  · -- Both beginnings end in an underscore, so they leave the counter alone.
    have hr : counterText (reserved ++ t') = counterText ('_' :: t') := counterText_append "_hy_gensym".toList t'
    have he : counterText (escapedReserved ++ t') = counterText ('_' :: t') :=
      counterText_append "_hyx_hy_gensym".toList t'
    rcases ht' with ht' | ht' <;> rw [ht'] at hc
    · exact hc
    · rw [hr, ← he, hc]

theorem count_eq_of_fresh_eq {count count' : Nat} {hint hint' : String}
    (h : (fresh ⟨Name.mangle, count⟩ hint).1 = (fresh ⟨Name.mangle, count'⟩ hint').1) : count = count' := by
  obtain ⟨t, ht, -, hk⟩ := exists_fresh count hint
  obtain ⟨u, hu, -, hl⟩ := exists_fresh count' hint'
  rw [h] at ht
  rw [← ht, hu, hl] at hk
  exact (Nat.succ.inj (Nat.repr_injective (String.toList_inj.mp hk))).symm

def freshAll (s : NameSupply) : List String → List String
  | [] => []
  | hint :: hints => (s.fresh hint).1 :: freshAll (s.fresh hint).2 hints

theorem counter_of_mem_freshAll {count : Nat} {hints : List String} {name : String}
    (h : name ∈ freshAll ⟨Name.mangle, count⟩ hints) :
    ∃ n, count < n ∧ counterText name.toList = n.repr.toList := by
  induction hints generalizing count with
  | nil => simp [freshAll] at h
  | cons hint hints ih =>
    rcases List.mem_cons.mp h with rfl | h
    · obtain ⟨t, ht, -, hc⟩ := exists_fresh count hint
      exact ⟨count + 1, Nat.lt_succ_self _, by rw [ht, hc]⟩
    · obtain ⟨n, hn, hc⟩ := ih h
      exact ⟨n, Nat.lt_of_succ_lt hn, hc⟩

theorem freshAll_nodup (count : Nat) (hints : List String) : (freshAll ⟨Name.mangle, count⟩ hints).Nodup := by
  induction hints generalizing count with
  | nil => exact List.nodup_nil
  | cons hint hints ih =>
    refine List.nodup_cons.mpr ⟨fun h ↦ ?_, ih _⟩
    obtain ⟨n, hn, hc⟩ := counter_of_mem_freshAll h
    obtain ⟨t, ht, -, hc'⟩ := exists_fresh count hint
    rw [ht, hc', String.toList_inj] at hc
    exact Nat.ne_of_lt hn (Nat.repr_injective hc)

theorem reserved_of_mem_freshAll {count : Nat} {hints : List String} {name : String}
    (h : name ∈ freshAll ⟨Name.mangle, count⟩ hints) : ∃ t, name.toList = reserved ++ t ∧ Opens t := by
  induction hints generalizing count with
  | nil => simp [freshAll] at h
  | cons hint hints ih =>
    rcases List.mem_cons.mp h with rfl | h
    · obtain ⟨t, ht, ho, -⟩ := exists_fresh count hint
      exact ⟨t, ht, ho⟩
    · exact ih h

/-- Whatever the hints are, one supply never gives out a name twice, and the reserved beginning of its
names is never followed by another underscore. -/
theorem freshAll_nodup_and_reserved_once (count : Nat) (hints : List String) :
    (freshAll ⟨Name.mangle, count⟩ hints).Nodup ∧
      ∀ name ∈ freshAll ⟨Name.mangle, count⟩ hints,
        ∃ t, name.toList = reserved ++ t ∧ t.head? ≠ some '_' :=
  ⟨freshAll_nodup count hints, fun _ h ↦ reserved_of_mem_freshAll h⟩

/-- Hints that are empty, dotted, not identifiers, or names given out before. -/
theorem freshAll_of_awkward_hints :
    freshAll ⟨Name.mangle, 0⟩ ["", "a.b", "--x!", "_hy_gensym_q_1"] =
        ["_hy_gensym_1", "_hy_gensym_a.b_2", "_hy_gensym_xXexclamation_markX_3", "_hy_gensym_q_1_4"] ∧
      ∃ t, "_hy_gensym_xXexclamation_markX_3".toList = reserved ++ t ∧ t.head? ≠ some '_' := by
  have h : freshAll ⟨Name.mangle, 0⟩ ["", "a.b", "--x!", "_hy_gensym_q_1"] =
      ["_hy_gensym_1", "_hy_gensym_a.b_2", "_hy_gensym_xXexclamation_markX_3", "_hy_gensym_q_1_4"] := rfl
  refine ⟨h, (freshAll_nodup_and_reserved_once 0 ["", "a.b", "--x!", "_hy_gensym_q_1"]).2 _ ?_⟩
  rw [h]
  simp

end MacroLisp.NameSupply
