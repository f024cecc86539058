import MacroLisp.Host.Expr
import MacroLisp.Proofs.Name.Identifier

namespace MacroLisp.Host

inductive Role
  | name
  | member
  | keyword
  | module
  | asName
  deriving DecidableEq, Repr

/-- A module may have a dotted name. All other names are single identifiers. -/
def Role.Fits : Role → String → Prop
  | module, s => ∀ field ∈ Text.fields '.' s, Name.isIdentifier field = true
  | _, s => Name.isIdentifier s = true

instance : (r : Role) → (s : String) → Decidable (r.Fits s)
  | .module, s => inferInstanceAs (Decidable (∀ field ∈ Text.fields '.' s, Name.isIdentifier field = true))
  | .name, s | .member, s | .keyword, s | .asName, s => inferInstanceAs (Decidable (Name.isIdentifier s = true))

/-- What a name has to be in the program that is compiled, so that mangling makes one of it that fits. -/
def Role.Accepts : Role → String → Prop
  | module, s => Name.IsWhole s ∨ "" ∉ Text.fields '.' s
  | _, s => Name.IsWhole s

theorem Role.accepts_of_isWhole {r : Role} {s : String} (h : Name.IsWhole s) : r.Accepts s := by
  cases r with
  | name | member | keyword | asName => exact h
  | module => exact .inl h

theorem Role.fits_mangle_iff {r : Role} {s : String} : r.Fits (Name.mangle s) ↔ r.Accepts s := by
  cases r with
  | name | member | keyword | asName => exact Name.isIdentifier_mangle_iff
  | module =>
    simp only [Fits, Accepts]
    by_cases hsingle : Name.IsSingle s
    · have hempty : "" ∉ Text.fields '.' s → s ≠ "" := by
        rintro h rfl
        exact h (List.mem_singleton_self _)
      rw [hsingle.fields_mangle, List.forall_mem_singleton, Name.isIdentifier_mangle_iff]
      exact ⟨.inl, fun h ↦ h.elim id fun h ↦ ⟨hempty h, hsingle⟩⟩
    · have hdot : ∃ c ∈ s.toList, c ≠ '.' := by
        by_contra hdots
        push Not at hdots
        exact hsingle (.inr hdots)
      rw [Name.fields_mangle hdot, List.forall_mem_map]
      constructor
      · exact fun h ↦ .inr fun hempty ↦ (Name.isIdentifier_mangle_iff.mp (h "" hempty)).ne_empty rfl
      · intro h field hfield
        refine Name.isIdentifier_mangle_iff.mpr ⟨?_, Name.isSingle_of_mem_fields hfield⟩
        rintro rfl
        exact h.elim (fun hwhole ↦ hsingle hwhole.isSingle) fun hempty ↦ hempty hfield

namespace Expr

mutual

def names : Expr → List (Role × String)
  | constant _ => []
  | name id _ => [(.name, id)]
  | member value attr _ => names value ++ [(.member, attr)]
  | binary left _ right => names left ++ names right
  | unary _ operand => names operand
  | boolean _ values => namesOfAll values
  | compare left _ comparators => names left ++ namesOfAll comparators
  | conditional test body orelse => names test ++ names body ++ names orelse
  | call func args keywords => names func ++ namesOfAll args ++ namesOfKeywords keywords
  | list items => namesOfAll items
  | tuple items => namesOfAll items
  | dict keys values => namesOfAll keys ++ namesOfAll values

def namesOfAll : List Expr → List (Role × String)
  | [] => []
  | e :: es => names e ++ namesOfAll es

def namesOfKeywords : List (String × Expr) → List (Role × String)
  | [] => []
  | (key, e) :: ks => (.keyword, key) :: names e ++ namesOfKeywords ks

end

variable {p : Role × String}

theorem mem_namesOfAll {es : List Expr} : p ∈ namesOfAll es ↔ ∃ e ∈ es, p ∈ e.names := by
  induction es with
  | nil => simp [namesOfAll]
  | cons e es ih => simp [namesOfAll, ih]

theorem mem_namesOfKeywords {ks : List (String × Expr)} :
    p ∈ namesOfKeywords ks ↔ ∃ k ∈ ks, p = (.keyword, k.1) ∨ p ∈ k.2.names := by
  induction ks with
  | nil => simp [namesOfKeywords]
  | cons k ks ih => simp [namesOfKeywords, ih, or_assoc]

theorem names_of_asTarget? {e place : Expr} (h : e.asTarget? = some place) : place.names = e.names := by
  cases e with
  | name id ctx =>
    cases h
    rfl
  | member value attr ctx =>
    cases h
    rfl
  | _ => cases h

end Expr

namespace Stmt

mutual

def names : Stmt → List (Role × String)
  | expr value => value.names
  | assign targets value => Expr.namesOfAll targets ++ value.names
  | imports aliases => aliases.flatMap fun a ↦ (.module, a.name) :: a.asName.toList.map fun id ↦ (.asName, id)
  | ifElse test body orelse => test.names ++ namesOfAll body ++ namesOfAll orelse

def namesOfAll : List Stmt → List (Role × String)
  | [] => []
  | s :: ss => names s ++ namesOfAll ss

end

theorem mem_namesOfAll {p : Role × String} {ss : List Stmt} : p ∈ namesOfAll ss ↔ ∃ s ∈ ss, p ∈ s.names := by
  induction ss with
  | nil => simp [namesOfAll]
  | cons s ss ih => simp [namesOfAll, ih]

end Stmt

def Module.names (m : Module) : List (Role × String) := Stmt.namesOfAll m.body

end MacroLisp.Host
