import MacroLisp.Expansion.Definition
import MacroLisp.Proofs.Expansion.Transfer

namespace MacroLisp.MacroTable

variable {mangle : String → String} {module key x : String} {S T : MacroTable} {b : MacroBinding} {q : Option String}
  {assignments : Assignments} {p : String × String}

/-- The table of a module as installing and erasing macros make it. No exports are declared. -/
inductive Built (mangle : String → String) (module : String) : MacroTable → Prop
  | new : Built mangle module (.new module mangle)
  | install {t : MacroTable} (name : String) (expander : Expander) :
      Built mangle module t → Built mangle module (t.install name expander none)
  | installTemplate {t : MacroTable} (name : String) (template : Template) :
      Built mangle module t → Built mangle module (t.installTemplate name template)
  | erase {t : MacroTable} (name : String) : Built mangle module t → Built mangle module (t.erase name)

theorem Built.fields_eq (h : Built mangle module S) : S.mangle = mangle ∧ S.module = module ∧ S.exports = none := by
  induction h with
  | new => exact ⟨rfl, rfl, rfl⟩
  | install _ _ _ ih => exact ih
  | installTemplate _ _ _ ih => exact ih
  | erase _ _ ih => exact ih

theorem mem_names_install {name : String} {e : Expander} {doc : Option String} :
    key ∈ (S.install name e doc).names ↔ S.mangle name = key ∨ key ∈ S.names := by
  simp [names, install, insert, binding]

theorem mem_names_of_erase {name : String} (h : key ∈ (S.erase name).names) : key ∈ S.names := by
  simp only [names, erase, Std.TreeMap.mem_keys] at h ⊢
  exact Std.TreeMap.mem_of_mem_erase h

theorem Built.exists_mangle_eq (h : Built mangle module S) (hkey : key ∈ S.names) : ∃ x, mangle x = key := by
  induction h with
  | new => simp [names, MacroTable.new] at hkey
  | install name expander h ih | installTemplate name template h ih =>
    rcases mem_names_install.mp hkey with hname | hkey
    · exact ⟨name, h.fields_eq.1 ▸ hname⟩
    · exact ih hkey
  | erase name h ih => exact ih (mem_names_of_erase hkey)

theorem Built.mangle_eq_self (h : Built mangle module S) (hidem : ∀ x, mangle (mangle x) = mangle x)
    (hkey : key ∈ S.names) : mangle key = key := by
  obtain ⟨x, rfl⟩ := h.exists_mangle_eq hkey
  exact hidem x

def IsBulk (assignments : Assignments) : Prop := assignments = .all ∨ assignments = .exports

theorem mem_names_of_mem_pairs (hexports : S.exports = none) (hbulk : IsBulk assignments) (hp : p ∈ assignments.pairs S) :
    p.1 ∈ S.names := by
  rcases hbulk with rfl | rfl
  · exact (mem_pairs_all.mp hp).1
  · obtain ⟨name, hname, rfl⟩ := List.mem_map.mp hp
    rw [exported, hexports, Option.getD_none] at hname
    exact (List.mem_filter.mp hname).1

theorem require_isOk_iff (hmodule : S.module ≠ T.module) :
    (∃ any, (S.require assignments q T).1 = .ok any) ↔ ∀ p ∈ assignments.pairs S, ∃ b, S.get? p.1 = some b := by
  unfold require
  dsimp only
  split
  · next hnothing => simp [hnothing.resolve_left hmodule]
  · rw [← requirePairs_ok_iff S T q]
    cases (S.requirePairs q (assignments.pairs S) T).1 <;> simp [Except.map]

theorem Built.require_isOk (h : Built mangle module S) (hidem : ∀ x, mangle (mangle x) = mangle x)
    (hmodule : module ≠ T.module) (hbulk : IsBulk assignments) : ∃ any, (S.require assignments q T).1 = .ok any := by
  obtain ⟨hmangle, hown, hexports⟩ := h.fields_eq
  refine (require_isOk_iff (hown ▸ hmodule)).mpr fun p hp ↦ ?_
  have hname := mem_names_of_mem_pairs hexports hbulk hp
  rw [get?, hmangle, h.mangle_eq_self hidem hname]
  exact mem_names_iff.mp hname

theorem Built.get?_of_require_all (h : Built mangle module S) (hidem : ∀ x, mangle (mangle x) = mangle x)
    (hmodule : module ≠ T.module) (hT : T.mangle = mangle) (hb : S.get? x = some b) :
    (S.require .all none T).2.get? x = some { b with name := mangle x } := by
  obtain ⟨hmangle, hown, -⟩ := h.fields_eq
  have hb' : S.getMangled? (mangle x) = some b := by rwa [get?, hmangle] at hb
  have hname : mangle x ∈ S.names := mem_names_iff.mpr ⟨b, hb'⟩
  have hall := (require_isOk_iff (T := T) (q := none) (hown ▸ hmodule)).mp (h.require_isOk hidem hmodule (.inl rfl))
  have hkey : ∀ name ∈ S.names, requiredKey T none name = name := by
    intro name hname
    rw [requiredKey, hT, h.mangle_eq_self hidem hname]
  have hsame : ∀ p ∈ Assignments.all.pairs S, requiredKey T none p.2 = mangle x → S.get? p.1 = some b := by
    intro p hp hp'
    obtain ⟨hp₁, hp₂⟩ := mem_pairs_all.mp hp
    rw [hp₂, hkey p.1 hp₁] at hp'
    rw [get?, hmangle, hp', hidem, hb']
  rw [require_snd, if_neg (hown ▸ hmodule), get?, insertAll_eq, hT]
  exact getMangled?_of_pairs hall ⟨(mangle x, mangle x), mem_pairs_all.mpr ⟨hname, rfl⟩, hkey _ hname⟩ hsame

theorem mangle_eq_of_require_isOk (x : String) (hS : S = (new "source" mangle).install x (fun _ ↦ .refuse "") none)
    (h : ∃ any, (S.require .all none (new "target" mangle)).1 = .ok any) : mangle (mangle x) = mangle x := by
  subst hS
  have hmodule : "source" ≠ "target" := by decide
  have hstored : mangle x ∈ ((new "source" mangle).install x (fun _ ↦ .refuse "") none).names :=
    mem_names_install.mpr (.inl rfl)
  obtain ⟨b, hb⟩ := (require_isOk_iff hmodule).mp h (mangle x, mangle x) (mem_pairs_all.mpr ⟨hstored, rfl⟩)
  rcases mem_names_install.mp (mem_names_iff.mpr ⟨b, hb⟩) with hname | hnone
  · exact hname.symm
  · simp [names, new] at hnone

/-- A transfer of all macros of a table without declared exports, or of those it exports, to another module succeeds if
the table has each listed name under its mangled form. So it is never that a name is missing, and with one mangling for
both tables no macro is lost, if and only if mangling changes no mangled name. -/
theorem bulk_transfer_works_iff (mangle : String → String) :
    (∀ (module : String) (S T : MacroTable) (assignments : Assignments) (q : Option String), Built mangle module S →
      module ≠ T.module → IsBulk assignments →
      ((∃ any, (S.require assignments q T).1 = .ok any) ↔ ∀ p ∈ assignments.pairs S, mangle p.1 ∈ S.names)) ∧
    ((∀ (module : String) (S T : MacroTable), Built mangle module S → module ≠ T.module →
        (∀ (assignments : Assignments) (q : Option String), IsBulk assignments →
          ∃ any, (S.require assignments q T).1 = .ok any) ∧
        (T.mangle = mangle → ∀ x b, S.get? x = some b →
          (S.require .all none T).2.get? x = some { b with name := mangle x })) ↔
      ∀ x, mangle (mangle x) = mangle x) := by
  refine ⟨fun module S T assignments q h hmodule _ ↦ ?_, fun h x ↦ ?_, fun hidem module S T h hmodule ↦ ?_⟩
  · obtain ⟨hmangle, hown, -⟩ := h.fields_eq
    rw [require_isOk_iff (hown ▸ hmodule)]
    simp only [mem_names_iff, get?, hmangle]
  · have hbuilt : Built mangle "source" _ := .install x (fun _ ↦ .refuse "") .new
    have hmodule : "source" ≠ "target" := by decide
    exact mangle_eq_of_require_isOk x rfl ((h _ _ (new "target" mangle) hbuilt hmodule).1 .all none (.inl rfl))
  · exact ⟨fun assignments q hbulk ↦ h.require_isOk hidem hmodule hbulk,
      fun hT x b hb ↦ h.get?_of_require_all hidem hmodule hT hb⟩

/-- A mangling that adds to each name finds none of the names it lists. One that moves every name on finds others in their
place, and the transfer loses a macro without failing. -/
theorem bulk_transfer_fails :
    let star (name : String) : String := name ++ "*"
    let next (name : String) : String := if name = "a" then "b" else "c"
    let e : Expander := fun _ ↦ .refuse ""
    let S := (new "lib" star).install "a" e none
    let S' := ((new "lib" next).install "a" e none).install "b" e none
    (Built star "lib" S ∧ S.contains "a" = true ∧
      (S.require .all none (new "main" star)).1 = .error (.missingName "a*" "lib") ∧
      (S.require .exports none (new "main" Name.mangle)).1 = .error (.missingName "a*" "lib")) ∧
    Built next "lib" S' ∧ S'.contains "a" = true ∧ (S'.require .all none (new "main" next)).1 = .ok true ∧
      (S'.require .all none (new "main" next)).2.contains "a" = false := by
  intro star next e S S'
  exact ⟨⟨.install "a" e .new, by decide +kernel, by decide +kernel, by decide +kernel⟩,
    .install "b" e (.install "a" e .new), by decide +kernel, by decide +kernel, by decide +kernel⟩

end MacroLisp.MacroTable
