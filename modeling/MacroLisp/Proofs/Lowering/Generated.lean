import MacroLisp.Lowering.Model
import MacroLisp.Proofs.Host.Names
import MacroLisp.Proofs.Name.Fresh

namespace MacroLisp

open Host (Expr)

namespace NameSupply

open Name (isIdentifier isIdentifierChars mangleComponent mangleChars)

variable {t : List Char} {count : ℕ} {hint : String}

theorem dot_mem_hintBody {hint : List Char} : '.' ∈ hintBody hint ↔ '.' ∈ hint := by
  have hdrop : ∀ cs : List Char, '.' ∈ cs.dropWhile (fun c ↦ c = '_' ∨ c = '-') ↔ '.' ∈ cs := by
    intro cs
    conv_rhs => rw [← List.takeWhile_append_dropWhile (p := fun c ↦ decide (c = '_' ∨ c = '-')) (l := cs)]
    refine ⟨List.mem_append_right _, fun h ↦ (List.mem_append.mp h).resolve_left fun hm ↦ ?_⟩
    simpa using List.mem_takeWhile_imp hm
  rw [hintBody, hdrop]
  cases hrest : reserved.isPrefixOf? hint with
  | none => rfl
  | some rest =>
    rw [← List.isPrefixOf?_eq_some_iff_append_eq.mp hrest]
    simp [dot_not_mem_reserved]

theorem dot_mem_rawName {hint : List Char} {n : ℕ} : '.' ∈ rawName hint n ↔ '.' ∈ hint := by
  have hdigits : '.' ∉ n.repr.toList := Name.not_mem_of_digits (repr_digits n) rfl
  rw [rawName, ← @dot_mem_hintBody hint]
  split
  · next h => simp only [h, List.mem_append, dot_not_mem_reserved, hdigits, List.not_mem_nil, or_self]
  · simp [-Nat.toList_repr, dot_not_mem_reserved, hdigits]

theorem isIdentifierChars_reserved (h : isIdentifierChars (escapedReserved ++ t) = true) :
    isIdentifierChars (reserved ++ t) = true := by
  have hstart : Name.isIdentifierStart '_' = true := by decide
  have hbody : reservedBody.all Name.isIdentifierPart = true := by decide
  have ht : t.all Name.isIdentifierPart = true :=
    List.all_eq_true.mpr fun c hc ↦ Name.isIdentifierPart_of_mem h (List.mem_append_right _ hc)
  have hreserved : reserved ++ t = '_' :: (reservedBody ++ t) := rfl
  rw [hreserved, isIdentifierChars, List.all_append, hstart, hbody, ht]
  rfl

/-- The first component of a generated name is an identifier with the reserved beginning. The others are mangled. There
are others if the hint has points. -/
theorem exists_split_fresh (count : ℕ) (hint : String) :
    ∃ fields t,
      Text.split '.' (fresh ⟨Name.mangle, count⟩ hint).1.toList = (reserved ++ t) :: fields.map mangleComponent ∧
        isIdentifierChars (reserved ++ t) = true ∧ (fields = [] ↔ '.' ∉ hint.toList) := by
  obtain ⟨raw, hraw, hhead, -⟩ := exists_rawName hint.toList (count + 1)
  obtain ⟨field, fields, hfields, hsplit⟩ := Text.split_append_left dot_not_mem_reserved raw
  obtain ⟨t, -, ht⟩ := exists_mangleComponent_reserved fun c hc ↦ hhead c (Text.mem_head?_of_split hfields hc)
  have hfirst : isIdentifierChars (mangleComponent (reserved ++ field)) = true :=
    Name.isIdentifierChars_mangleComponent (List.append_ne_nil_of_left_ne_nil (by decide) field)
  have hid : isIdentifierChars (reserved ++ t) = true := by
    rcases ht with ht | ht <;> rw [ht] at hfirst
    · exact hfirst
    · exact isIdentifierChars_reserved hfirst
  refine ⟨fields, t, ?_, hid, ?_⟩
  · obtain ⟨r, -, hr⟩ := Text.exists_join_cons '.' (fields.map mangleComponent)
    have hmangled : mangleChars (reserved ++ raw) = mangleComponent (reserved ++ field) ++ r := by
      rw [Name.mangleChars_eq_join ⟨'_', List.mem_append_left raw (by decide), by decide⟩, hsplit, List.map_cons, hr]
    have hname : (fresh ⟨Name.mangle, count⟩ hint).1.toList =
        Text.join '.' ((reserved ++ t) :: fields.map mangleComponent) := by
      simp only [fresh, Name.mangle, String.toList_ofList, hraw, hmangled, hr]
      rcases ht with ht | ht <;> rw [ht, List.append_assoc]
      · exact withReserved_reserved _
      · exact withReserved_escapedReserved _
    rw [hname]
    refine Text.split_join (List.cons_ne_nil _ _) (List.forall_mem_cons.mpr ⟨?_, ?_⟩)
    · exact Name.dot_not_mem_of_isIdentifierChars hid
    · exact List.forall_mem_map.mpr fun cs _ ↦ Name.dot_not_mem_mangleComponent cs
  · rw [← dot_mem_rawName (n := count + 1), hraw]
    constructor
    · rintro rfl
      exact Text.not_mem_of_split_eq_singleton hsplit
    · intro hdot
      rw [Text.split_of_not_mem hdot] at hsplit
      exact (List.cons.inj hsplit).2.symm

theorem exists_ne_dot_fresh (count : ℕ) (hint : String) : ∃ c ∈ (fresh ⟨Name.mangle, count⟩ hint).1.toList, c ≠ '.' := by
  obtain ⟨t, ht, -⟩ := exists_fresh count hint
  rw [ht]
  exact ⟨'_', List.mem_append_left t (by decide), by decide⟩

theorem mangle_fresh (count : ℕ) (hint : String) :
    Name.mangle (fresh ⟨Name.mangle, count⟩ hint).1 = (fresh ⟨Name.mangle, count⟩ hint).1 := by
  obtain ⟨fields, t, hsplit, hid, -⟩ := exists_split_fresh count hint
  rw [← String.toList_inj, Name.mangle, String.toList_ofList, Name.mangleChars_eq_join (exists_ne_dot_fresh count hint),
    hsplit, List.map_cons, Name.mangleComponent_of_isIdentifierChars hid, List.map_map]
  simp only [Function.comp_def, Name.mangleComponent_mangleComponent]
  rw [← hsplit, Text.join_split]

theorem dot_mem_fresh : '.' ∈ (fresh ⟨Name.mangle, count⟩ hint).1.toList ↔ '.' ∈ hint.toList := by
  obtain ⟨fields, t, hsplit, hid, hfields⟩ := exists_split_fresh count hint
  rw [← not_iff_not, ← hfields]
  constructor
  · intro hdot
    rw [Text.split_of_not_mem hdot] at hsplit
    exact List.map_eq_nil_iff.mp (List.cons.inj hsplit).2.symm
  · rintro rfl
    rw [← Text.join_split '.' (fresh ⟨Name.mangle, count⟩ hint).1.toList, hsplit]
    exact Name.dot_not_mem_of_isIdentifierChars hid

theorem isIdentifier_fresh_iff :
    isIdentifier (fresh ⟨Name.mangle, count⟩ hint).1 = true ↔ '.' ∉ hint.toList := by
  rw [← @dot_mem_fresh count hint]
  refine ⟨fun h ↦ Name.dot_not_mem_of_isIdentifierChars h, fun hdot ↦ ?_⟩
  obtain ⟨fields, t, hsplit, hid, -⟩ := exists_split_fresh count hint
  rw [Text.split_of_not_mem hdot] at hsplit
  rw [isIdentifier, (List.cons.inj hsplit).1]
  exact hid

end NameSupply

namespace Lowering

variable {name : String} {n : Node} {e : Expr}

theorem constant?_eq_none (h : NameSupply.isReserved name = true) : constant? name = none := by
  unfold constant?
  split
  · cases h
  · cases h
  · cases h
  · rfl

theorem symbol_of_dot_not_mem (hc : constant? name = none) (hdot : '.' ∉ name.toList) :
    symbol name n = .ok (.load (Name.mangle name)) := by
  simp [symbol, hc, hdot]

theorem chain_ne_load {first id : String} {rest : List String} (h : rest ≠ []) : chain first rest ≠ .load id := by
  obtain ⟨rest, last, rfl⟩ := (List.eq_nil_or_concat rest).resolve_left h
  rw [List.concat_eq_append, chain, List.foldl_append]
  rintro ⟨⟩

theorem dot_not_mem_of_symbol {id : String} (hc : constant? name = none) (hdots : ∃ c ∈ name.toList, c ≠ '.')
    (h : symbol name n = .ok (.load id)) : '.' ∉ name.toList := by
  intro hdot
  have hqualified : ¬(!name.toList.contains '.' || name.toList.all (· = '.')) = true := by simpa [hdot] using hdots
  simp only [symbol, hc, if_neg hqualified] at h
  split at h
  · cases h
  split at h
  · next first rest hfields =>
    refine chain_ne_load ?_ (Except.ok.inj h)
    rintro rfl
    obtain ⟨cs, hcs, -⟩ := List.map_eq_singleton_iff.mp hfields
    exact Text.not_mem_of_split_eq_singleton hcs hdot
  · cases h

end Lowering

namespace NameSupply

open Name (isIdentifier)
open Lowering (symbol)

/-- A generated name is left as it is by mangling. If its hint has no points, and only then, it is one identifier, and
is lowered to the variable of this name. Variables of different calls with such hints are different. -/
theorem fresh_whole_iff (s : NameSupply) (hs : s.mangle = Name.mangle) (hint : String) :
    Name.mangle (s.fresh hint).1 = (s.fresh hint).1 ∧
      (isIdentifier (s.fresh hint).1 = true ↔ '.' ∉ hint.toList) ∧
      (∀ n, symbol (s.fresh hint).1 n = .ok (.load (s.fresh hint).1) ↔ '.' ∉ hint.toList) ∧
      ∀ (t : NameSupply) (hint' : String), t.mangle = Name.mangle → t.count ≠ s.count → '.' ∉ hint.toList →
        '.' ∉ hint'.toList → ∀ n n' e e', symbol (s.fresh hint).1 n = .ok e → symbol (t.fresh hint').1 n' = .ok e' →
          e.names.Disjoint e'.names := by
  have hnone : ∀ count hint, Lowering.constant? (fresh ⟨Name.mangle, count⟩ hint).1 = none :=
    fun count hint ↦ Lowering.constant?_eq_none (isReserved_fresh _ _)
  have hload : ∀ count hint n, '.' ∉ hint.toList → symbol (fresh ⟨Name.mangle, count⟩ hint).1 n =
      .ok (.load (fresh ⟨Name.mangle, count⟩ hint).1) := by
    intro count hint n hdot
    rw [Lowering.symbol_of_dot_not_mem (hnone count hint) (mt dot_mem_fresh.mp hdot), mangle_fresh]
  obtain ⟨μ, count⟩ := s
  obtain rfl : μ = Name.mangle := hs
  refine ⟨mangle_fresh count hint, isIdentifier_fresh_iff, fun n ↦ ⟨fun h ↦ ?_, hload count hint n⟩, ?_⟩
  · have hdot := Lowering.dot_not_mem_of_symbol (hnone count hint) (exists_ne_dot_fresh count hint) h
    exact mt dot_mem_fresh.mpr hdot
  · intro t hint' ht hcount hdot hdot' n n' e e' he he'
    obtain ⟨μ, count'⟩ := t
    obtain rfl : μ = Name.mangle := ht
    rw [hload count hint n hdot] at he
    rw [hload count' hint' n' hdot'] at he'
    cases he
    cases he'
    have hne : (fresh ⟨Name.mangle, count⟩ hint).1 ≠ (fresh ⟨Name.mangle, count'⟩ hint').1 :=
      fun h ↦ hcount (count_eq_of_fresh_eq h).symm
    simpa [Expr.load, Expr.names] using hne.symm

/-- The hints are an empty one and one that is no identifier. -/
theorem fresh_whole_of_undotted_hints :
    (NameSupply.mk Name.mangle 0).mangle = Name.mangle ∧ (NameSupply.mk Name.mangle 1).mangle = Name.mangle ∧
      1 ≠ 0 ∧ '.' ∉ "".toList ∧ '.' ∉ "x?".toList ∧
      freshAll ⟨Name.mangle, 0⟩ ["", "x?"] = ["_hy_gensym_1", "_hy_gensym_xXquestion_markX_2"] ∧
      isIdentifier "_hy_gensym_xXquestion_markX_2" = true ∧
      ∀ n, symbol "_hy_gensym_1" n = .ok (.load "_hy_gensym_1") ∧
        symbol "_hy_gensym_xXquestion_markX_2" n = .ok (.load "_hy_gensym_xXquestion_markX_2") ∧
        (Expr.load "_hy_gensym_1").names.Disjoint (Expr.load "_hy_gensym_xXquestion_markX_2").names := by
  have hempty : '.' ∉ "".toList := by decide
  have hmark : '.' ∉ "x?".toList := by decide
  have hname : (fresh ⟨Name.mangle, 0⟩ "").1 = "_hy_gensym_1" := rfl
  have hname' : (fresh ⟨Name.mangle, 1⟩ "x?").1 = "_hy_gensym_xXquestion_markX_2" := rfl
  obtain ⟨-, -, hfirst, hdisjoint⟩ := fresh_whole_iff ⟨Name.mangle, 0⟩ rfl ""
  obtain ⟨-, hid, hsecond, -⟩ := fresh_whole_iff ⟨Name.mangle, 1⟩ rfl "x?"
  rw [hname] at hfirst hdisjoint
  rw [hname'] at hid hsecond
  refine ⟨rfl, rfl, Nat.one_ne_zero, hempty, hmark, rfl, hid.mpr hmark, fun n ↦ ?_⟩
  have hload := (hfirst n).mpr hempty
  have hload' := (hsecond n).mpr hmark
  refine ⟨hload, hload', hdisjoint ⟨Name.mangle, 1⟩ "x?" rfl Nat.one_ne_zero hempty hmark n n _ _ hload ?_⟩
  rw [hname']
  exact hload'

/-- The name of the second call falls into the name of the first and an attribute of it. -/
theorem fresh_of_dotted_hint :
    freshAll ⟨Name.mangle, 0⟩ ["x", "x_1.y"] = ["_hy_gensym_x_1", "_hy_gensym_x_1.y_2"] ∧
      isIdentifier "_hy_gensym_x_1.y_2" = false ∧
      ∀ n, symbol "_hy_gensym_x_1" n = .ok (.load "_hy_gensym_x_1") ∧
        symbol "_hy_gensym_x_1.y_2" n = .ok ((Expr.load "_hy_gensym_x_1").attr "y_2") ∧
        ¬(Expr.load "_hy_gensym_x_1").names.Disjoint ((Expr.load "_hy_gensym_x_1").attr "y_2").names := by
  refine ⟨rfl, rfl, fun n ↦ ⟨rfl, rfl, ?_⟩⟩
  simp [Expr.load, Expr.attr, Expr.names]

end NameSupply

end MacroLisp
