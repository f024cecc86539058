import MacroLisp.Expansion.Transfer
import MacroLisp.Proofs.Name.Qualified

namespace MacroLisp.MacroTable

variable {S T T' : MacroTable} {b : MacroBinding} {bs : List MacroBinding} {q : Option String} {key : String}
  {pairs : List (String × String)}

theorem exists_last {α : Type} {p : α → Prop} {as : List α} (h : ∃ a ∈ as, p a) :
    ∃ before a after, as = before ++ a :: after ∧ p a ∧ ∀ a' ∈ after, ¬p a' := by
  induction as with
  | nil => simp at h
  | cons a as ih =>
    by_cases hlater : ∃ a' ∈ as, p a'
    · obtain ⟨before, a', after, rfl, ha', hafter⟩ := ih hlater
      exact ⟨a :: before, a', after, rfl, ha', hafter⟩
    · push Not at hlater
      obtain ⟨a', ha', hp⟩ := h
      rcases List.mem_cons.mp ha' with rfl | ha'
      · exact ⟨[], a', as, rfl, hp, hlater⟩
      · exact absurd hp (hlater a' ha')

theorem getMangled?_insert (t : MacroTable) (b : MacroBinding) (key : String) :
    (t.insert b).getMangled? key = if b.name = key then some b else t.getMangled? key := by
  simp [getMangled?, insert, Std.TreeMap.getElem?_insert]

theorem get?_install (t : MacroTable) (name : String) (e : Expander) (doc : Option String) (other : String) :
    (t.install name e doc).get? other =
      if t.mangle name = t.mangle other then some (t.binding name e doc) else t.get? other :=
  getMangled?_insert t (t.binding name e doc) (t.mangle other)

def insertAll (t : MacroTable) (bs : List MacroBinding) : MacroTable := bs.foldl insert t

@[simp] theorem insertAll_nil (t : MacroTable) : t.insertAll [] = t := rfl

@[simp] theorem insertAll_cons (t : MacroTable) (b : MacroBinding) (bs : List MacroBinding) :
    t.insertAll (b :: bs) = (t.insert b).insertAll bs := rfl

theorem insertAll_append (t : MacroTable) (bs bs' : List MacroBinding) :
    t.insertAll (bs ++ bs') = (t.insertAll bs).insertAll bs' := List.foldl_append

theorem insertAll_eq (t : MacroTable) (bs : List MacroBinding) :
    t.insertAll bs = { t with macros := (t.insertAll bs).macros } := by
  induction bs generalizing t with
  | nil => rfl
  | cons b bs ih =>
    rw [insertAll_cons, ih]
    rfl

theorem getMangled?_insertAll_of_ne (h : ∀ b ∈ bs, b.name ≠ key) (t : MacroTable) :
    (t.insertAll bs).getMangled? key = t.getMangled? key := by
  induction bs generalizing t with
  | nil => rfl
  | cons b bs ih =>
    obtain ⟨hb, hbs⟩ := List.forall_mem_cons.mp h
    rw [insertAll_cons, ih hbs, getMangled?_insert, if_neg hb]

theorem getMangled?_insertAll_of_last (t : MacroTable) (before : List MacroBinding) {after : List MacroBinding}
    (h : ∀ b' ∈ after, b'.name ≠ b.name) : (t.insertAll (before ++ b :: after)).getMangled? b.name = some b := by
  rw [insertAll_append, insertAll_cons, getMangled?_insertAll_of_ne h, getMangled?_insert, if_pos rfl]

theorem getMangled?_insertAll_iff (t : MacroTable) (bs : List MacroBinding) (key : String) (b : MacroBinding) :
    (t.insertAll bs).getMangled? key = some b ↔
      (∃ before after, bs = before ++ b :: after ∧ b.name = key ∧ ∀ b' ∈ after, b'.name ≠ key) ∨
        (∀ b' ∈ bs, b'.name ≠ key) ∧ t.getMangled? key = some b := by
  constructor
  · intro h
    by_cases hname : ∃ b' ∈ bs, b'.name = key
    · obtain ⟨before, b', after, rfl, rfl, hafter⟩ := exists_last hname
      rw [getMangled?_insertAll_of_last t before hafter] at h
      obtain rfl := Option.some.inj h
      exact .inl ⟨before, after, rfl, rfl, hafter⟩
    · push Not at hname
      rw [getMangled?_insertAll_of_ne hname] at h
      exact .inr ⟨hname, h⟩
  · rintro (⟨before, after, rfl, rfl, hafter⟩ | ⟨hname, h⟩)
    · exact getMangled?_insertAll_of_last t before hafter
    · rwa [getMangled?_insertAll_of_ne hname]

/-- The bindings that a transfer stores: those of the pairs in front of the first name that the source lacks. -/
def taken (S T : MacroTable) (q : Option String) : List (String × String) → List MacroBinding
  | [] => []
  | (name, newName) :: pairs =>
    match S.get? name with
    | none => []
    | some b => { b with name := requiredKey T q newName } :: taken S T q pairs

theorem taken_congr (h : T'.mangle = T.mangle) (S : MacroTable) (q : Option String) (pairs : List (String × String)) :
    taken S T' q pairs = taken S T q pairs := by
  have hkey : requiredKey T' q = requiredKey T q := by
    funext newName
    simp only [requiredKey, h]
  induction pairs with
  | nil => rfl
  | cons p pairs ih => simp only [taken, ih, hkey]

theorem requirePairs_snd (S T : MacroTable) (q : Option String) (pairs : List (String × String)) :
    (S.requirePairs q pairs T).2 = T.insertAll (taken S T q pairs) := by
  induction pairs generalizing T with
  | nil => rfl
  | cons p pairs ih =>
    rcases hp : S.get? p.1 with _ | b
    · simp only [requirePairs, taken, hp, insertAll_nil]
    · simp only [requirePairs, taken, hp, ih, insertAll_cons]
      have hmangle : (T.insert { b with name := requiredKey T q p.2 }).mangle = T.mangle := rfl
      rw [taken_congr hmangle]

theorem requirePairs_ok_iff (S T : MacroTable) (q : Option String) (pairs : List (String × String)) :
    (S.requirePairs q pairs T).1 = .ok () ↔ ∀ p ∈ pairs, ∃ b, S.get? p.1 = some b := by
  induction pairs generalizing T with
  | nil => simp [requirePairs]
  | cons p pairs ih =>
    rw [requirePairs, List.forall_mem_cons]
    split
    · next h => simp [h]
    · next b h => simp [h, ih]

theorem taken_cons_of_get? {p : String × String} (h : S.get? p.1 = some b) :
    taken S T q (p :: pairs) = { b with name := requiredKey T q p.2 } :: taken S T q pairs := by
  simp only [taken, h]

theorem taken_append {before : List (String × String)} (h : ∀ p ∈ before, ∃ b, S.get? p.1 = some b)
    (after : List (String × String)) : taken S T q (before ++ after) = taken S T q before ++ taken S T q after := by
  induction before with
  | nil => rfl
  | cons p before ih =>
    obtain ⟨⟨b, hb⟩, hbefore⟩ := List.forall_mem_cons.mp h
    rw [List.cons_append, taken_cons_of_get? hb, taken_cons_of_get? hb, ih hbefore, List.cons_append]

theorem exists_pair_of_mem_taken (h : b ∈ taken S T q pairs) :
    ∃ p ∈ pairs, ∃ b', S.get? p.1 = some b' ∧ b = { b' with name := requiredKey T q p.2 } := by
  induction pairs with
  | nil => cases h
  | cons p pairs ih =>
    rcases hp : S.get? p.1 with _ | b'
    · simp [taken, hp] at h
    · rw [taken_cons_of_get? hp] at h
      rcases List.mem_cons.mp h with rfl | h
      · exact ⟨p, by simp, b', hp, rfl⟩
      · obtain ⟨p', hp', hb⟩ := ih h
        exact ⟨p', List.mem_cons_of_mem p hp', hb⟩

theorem require_snd (S T : MacroTable) (assignments : Assignments) (q : Option String) :
    (S.require assignments q T).2 =
      T.insertAll (if S.module = T.module then [] else taken S T q (assignments.pairs S)) := by
  unfold require
  dsimp only
  by_cases hmodule : S.module = T.module
  · rw [if_pos (.inl hmodule), if_pos hmodule, insertAll_nil]
  · rw [if_neg hmodule]
    split
    · next h => rw [h.resolve_left hmodule, taken, insertAll_nil]
    · exact requirePairs_snd S T q _

theorem require_eq_ok_true {assignments : Assignments} (h : S.require assignments q T = (.ok true, T')) :
    (∀ p ∈ assignments.pairs S, ∃ b, S.get? p.1 = some b) ∧ T' = T.insertAll (taken S T q (assignments.pairs S)) := by
  unfold require at h
  dsimp only at h
  split at h
  · simp at h
  · obtain ⟨hresult, htable⟩ := Prod.mk.inj h
    refine ⟨(requirePairs_ok_iff S T q _).mp ?_, ?_⟩
    · cases hr : (S.requirePairs q (assignments.pairs S) T).1 with
      | ok u => rfl
      | error e => simp [hr, Except.map] at hresult
    · rw [← htable, requirePairs_snd]

def qualified (q : Option String) (name : String) : String :=
  match q with
  | some q => q ++ "." ++ name
  | none => name

theorem requiredKey_eq (hT : T.mangle = Name.mangle) (q : Option String) (newName : String) :
    requiredKey T q newName = Name.mangle (qualified q newName) := by
  unfold requiredKey qualified
  cases q <;> rw [hT]

theorem mangle_qualified (q name : String) :
    Name.mangle (qualified (some q) name) = String.ofList (Name.mangleChars (q.toList ++ '.' :: name.toList)) := by
  simp [qualified, Name.mangle]

theorem mangle_qualified_mangle {x : String} (hx : Name.IsProper x.toList) (q : Option String) :
    Name.mangle (qualified q (Name.mangle x)) = Name.mangle (qualified q x) := by
  cases q with
  | none => exact Name.mangle_mangle x
  | some q =>
    rw [mangle_qualified, mangle_qualified, Name.mangle, String.toList_ofList,
      Name.mangleChars_qualified_mangleChars hx]

theorem mangle_eq_of_qualified_eq {k x : String} (hx : Name.IsProper x.toList)
    (h : Name.mangle (qualified q k) = Name.mangle (qualified q x)) : Name.mangle k = Name.mangle x := by
  cases q with
  | none => exact h
  | some q =>
    rw [mangle_qualified, mangle_qualified, String.ofList_inj] at h
    rw [Name.mangle, Name.mangle, Name.mangleChars_eq_of_qualified_eq hx h]

theorem getMangled?_of_pair {before after : List (String × String)} {p : String × String}
    (hall : ∀ p' ∈ before ++ p :: after, ∃ b, S.get? p'.1 = some b)
    (hlast : ∀ p' ∈ after, requiredKey T q p'.2 ≠ requiredKey T q p.2) :
    ∃ b, S.get? p.1 = some b ∧ (T.insertAll (taken S T q (before ++ p :: after))).getMangled? (requiredKey T q p.2) =
      some { b with name := requiredKey T q p.2 } := by
  obtain ⟨hbefore, hp, -⟩ : (∀ p' ∈ before, ∃ b, S.get? p'.1 = some b) ∧ (∃ b, S.get? p.1 = some b) ∧ True :=
    ⟨fun p' hp' ↦ hall p' (List.mem_append_left _ hp'), hall p (by simp), trivial⟩
  obtain ⟨b, hb⟩ := hp
  refine ⟨b, hb, ?_⟩
  rw [taken_append hbefore, taken_cons_of_get? hb]
  refine getMangled?_insertAll_of_last (b := { b with name := requiredKey T q p.2 }) T _ fun b' hb' ↦ ?_
  obtain ⟨p', hp', b'', -, rfl⟩ := exists_pair_of_mem_taken hb'
  exact hlast p' hp'

theorem getMangled?_of_pairs (hall : ∀ p ∈ pairs, ∃ b, S.get? p.1 = some b)
    (hasked : ∃ p ∈ pairs, requiredKey T q p.2 = key)
    (hsame : ∀ p ∈ pairs, requiredKey T q p.2 = key → S.get? p.1 = some b) :
    (T.insertAll (taken S T q pairs)).getMangled? key = some { b with name := key } := by
  obtain ⟨before, p, after, rfl, rfl, hlast⟩ := exists_last hasked
  obtain ⟨b', hb', hget⟩ := getMangled?_of_pair hall hlast
  rw [hsame p (by simp) rfl] at hb'
  obtain rfl := Option.some.inj hb'
  exact hget

theorem mem_names_iff : key ∈ S.names ↔ ∃ b, S.getMangled? key = some b := by
  rw [names, Std.TreeMap.mem_keys, ← Std.TreeMap.isSome_getElem?_iff_mem, Option.isSome_iff_exists]
  rfl

theorem mem_pairs_all {p : String × String} : p ∈ Assignments.all.pairs S ↔ p.1 ∈ S.names ∧ p.2 = p.1 := by
  rw [Assignments.pairs, List.mem_map]
  constructor
  · rintro ⟨name, hname, rfl⟩
    exact ⟨hname, rfl⟩
  · exact fun ⟨hname, hsame⟩ ↦ ⟨p.1, hname, Prod.ext rfl hsame.symm⟩

theorem get?_of_require_all (hS : S.mangle = Name.mangle) (hT : T.mangle = Name.mangle)
    (h : S.require .all q T = (.ok true, T')) {x : String} (hx : Name.IsProper x.toList) (hb : S.get? x = some b) :
    T'.get? (qualified q x) = some { b with name := Name.mangle (qualified q x) } := by
  obtain ⟨hall, rfl⟩ := require_eq_ok_true h
  have hb' : S.getMangled? (Name.mangle x) = some b := by rwa [get?, hS] at hb
  have hname : Name.mangle x ∈ S.names := mem_names_iff.mpr ⟨b, hb'⟩
  have hkey : requiredKey T q (Name.mangle x) = Name.mangle (qualified q x) := by
    rw [requiredKey_eq hT, mangle_qualified_mangle hx]
  have hsame : ∀ p ∈ Assignments.all.pairs S, requiredKey T q p.2 = Name.mangle (qualified q x) → S.get? p.1 = some b := by
    intro p hp hp'
    rw [requiredKey_eq hT] at hp'
    rw [get?, hS, ← (mem_pairs_all.mp hp).2, mangle_eq_of_qualified_eq hx hp', hb']
  have hmangle : (T.insertAll (taken S T q (Assignments.all.pairs S))).mangle = Name.mangle := by
    rw [insertAll_eq]
    exact hT
  rw [get?, hmangle]
  exact getMangled?_of_pairs hall ⟨(Name.mangle x, Name.mangle x), mem_pairs_all.mpr ⟨hname, rfl⟩, hkey⟩ hsame

/-- A transfer that succeeds gives the target what was asked for and changes nothing else. Of two pairs with one key the
later counts. If all macros were asked for, every name of the source leads to the same macro in the target. -/
theorem require_transfers_exactly {assignments : Assignments} (hS : S.mangle = Name.mangle) (hT : T.mangle = Name.mangle)
    (h : S.require assignments q T = (.ok true, T')) :
    (∀ before name newName after, assignments.pairs S = before ++ (name, newName) :: after →
      (∀ p ∈ after, Name.mangle (qualified q p.2) ≠ Name.mangle (qualified q newName)) →
      ∃ b, S.get? name = some b ∧ T'.getMangled? (Name.mangle (qualified q newName)) =
        some { b with name := Name.mangle (qualified q newName) }) ∧
    (∀ key, (∀ p ∈ assignments.pairs S, Name.mangle (qualified q p.2) ≠ key) →
      T'.getMangled? key = T.getMangled? key) ∧
    T' = { T with macros := T'.macros } ∧
    (assignments = .all → ∀ x b, (x = "" ∨ ∃ c ∈ x.toList, c ≠ '.') → S.get? x = some b →
      T'.get? (qualified q x) = some { b with name := Name.mangle (qualified q x) }) := by
  obtain ⟨hall, htable⟩ := require_eq_ok_true h
  refine ⟨fun before name newName after hpairs hlast ↦ ?_, fun key hkey ↦ ?_, ?_, ?_⟩
  · rw [hpairs] at hall
    have hlast' : ∀ p ∈ after, requiredKey T q p.2 ≠ requiredKey T q newName := by
      simpa only [requiredKey_eq hT] using hlast
    rw [htable, hpairs, ← requiredKey_eq hT]
    exact getMangled?_of_pair hall hlast'
  · rw [htable]
    refine getMangled?_insertAll_of_ne (fun b hb ↦ ?_) T
    obtain ⟨p, hp, b', -, rfl⟩ := exists_pair_of_mem_taken hb
    rw [requiredKey_eq hT]
    exact hkey p hp
  · rw [htable]
    exact insertAll_eq T _
  · rintro rfl x b hx hb
    refine get?_of_require_all hS hT h ?_ hb
    simpa [Name.IsProper] using hx

/-- All macros of a module with two, one of them under a name that needs escapes, behind a qualifier. -/
theorem require_transfers_escaped :
    let S := ((new "lib" Name.mangle).install "a-b?" (fun _ ↦ .refuse "") (some "doc")).install "_c"
      (fun _ ↦ .refuse "") none
    let T := (new "main" Name.mangle).install "l.a_b?" (fun _ ↦ .refuse "") none
    (S.mangle = Name.mangle ∧ T.mangle = Name.mangle ∧
      S.require .all (some "l") T = (.ok true, (S.require .all (some "l") T).2)) ∧
    ∃ b, S.get? "a-b?" = some b ∧ b.doc = some "doc" ∧
      (S.require .all (some "l") T).2.get? "l.a-b?" = some { b with name := "l.hyx_a_bXquestion_markX" } := by
  intro S T
  have htrue : S.require .all (some "l") T = (.ok true, (S.require .all (some "l") T).2) :=
    Prod.ext (by decide +kernel) rfl
  have hkey : Name.mangle (qualified (some "l") "a-b?") = "l.hyx_a_bXquestion_markX" := by decide
  have hget : S.get? "a-b?" = some ((new "lib" Name.mangle).binding "a-b?" (fun _ ↦ .refuse "") (some "doc")) := by
    rw [get?_install, if_neg (by decide), get?_install, if_pos rfl]
  refine ⟨⟨rfl, rfl, htrue⟩, _, hget, rfl, ?_⟩
  rw [← hkey]
  exact (require_transfers_exactly rfl rfl htrue).2.2.2 rfl "a-b?" _ (.inr ⟨'a', by decide, by decide⟩) hget

end MacroLisp.MacroTable
