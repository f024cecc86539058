import MacroLisp.Expansion.Core
import MacroLisp.Expansion.Definition
import MacroLisp.Proofs.Expansion.Transfer
import Mathlib.Data.List.Induction

namespace MacroLisp.MacroEnv

inductive Change
  | pushScope
  | popScope
  | installLocal (name : String) (expander : Expander)
  | install (name : String) (expander : Expander)
  | installTemplate (name : String) (template : Template)
  | erase (name : String)
  | require (source : MacroTable) (assignments : Assignments) (qualifier : Option String)

namespace Change

def run (env : MacroEnv) : Change → MacroEnv
  | pushScope => env.pushScope
  | popScope => env.popScope
  | installLocal name expander => env.installLocal name expander
  | install name expander => { env with table := env.table.install name expander none }
  | installTemplate name template => { env with table := env.table.installTemplate name template }
  | erase name => { env with table := env.table.erase name }
  | require source assignments qualifier => (env.require source assignments qualifier).2

def depthAfter (depth : Nat) : Change → Nat
  | pushScope => depth + 1
  | popScope => depth - 1
  | _ => depth

def depthFrom (depth : Nat) (history : List Change) : Nat := history.foldl depthAfter depth

def depth (history : List Change) : Nat := depthFrom 0 history

section History

variable (t : MacroTable)

/-- The bindings that a change stores in the module, in order, if `depth` scopes are open. -/
def written (depth : Nat) : Change → List MacroBinding
  | installLocal name expander => if depth = 0 then [t.binding name expander none] else []
  | install name expander => [t.binding name expander none]
  | installTemplate name template => [t.binding name template.expander template.doc]
  | require source assignments qualifier =>
    if source.module = t.module then [] else MacroTable.taken source t qualifier (assignments.pairs source)
  | _ => []

/-- The change stores the binding in the module, and no other under its name afterwards. -/
def Leaves (depth : Nat) (c : Change) (key : String) (b : MacroBinding) : Prop :=
  ∃ before after, c.written t depth = before ++ b :: after ∧ b.name = key ∧ ∀ b' ∈ after, b'.name ≠ key

def Touches (depth : Nat) (c : Change) (key : String) : Prop :=
  (∃ b ∈ c.written t depth, b.name = key) ∨ ∃ name, c = erase name ∧ t.mangle name = key

variable (history : List Change) (key : String)

/-- At place `i` of the history a local macro was defined, in the scope that is the `level`-th one from the outside and
has been open ever since. -/
structure DefinedIn (level i : Nat) (b : MacroBinding) : Prop where
  change : ∃ name expander, history[i]? = some (installLocal name expander) ∧ b = t.binding name expander none
  name_eq : b.name = key
  level_pos : 0 < level
  innermost : depth (history.take i) = level
  still_open : ∀ k, i ≤ k → level ≤ depth (history.take k)

/-- The last definition of the name in an open scope. -/
def LatestIn (level : Nat) (b : MacroBinding) : Prop :=
  ∃ i, DefinedIn t history key level i b ∧ ∀ i' b', DefinedIn t history key level i' b' → i' ≤ i

/-- The last definition of the name in the innermost open scope that has one. -/
def IsLocal (b : MacroBinding) : Prop :=
  ∃ level, LatestIn t history key level b ∧ ∀ level' b', LatestIn t history key level' b' → level' ≤ level

/-- What the last change to the key in the module left there, or what stood there before the first one. -/
def IsModule (b : MacroBinding) : Prop :=
  (∃ (i : Nat) (c : Change), history[i]? = some c ∧ c.Leaves t (depth (history.take i)) key b ∧
    ∀ (k : Nat) (c' : Change), i < k → history[k]? = some c' → ¬c'.Touches t (depth (history.take k)) key) ∨
  t.getMangled? key = some b ∧
    ∀ (k : Nat) (c' : Change), history[k]? = some c' → ¬c'.Touches t (depth (history.take k)) key

end History

def IsOfScopes : Change → Prop
  | pushScope | popScope | installLocal .. => True
  | _ => False

/-- The changes stay inside a scope that was opened just before: they are changes of scopes, at no time is this scope
closed, and in the end all others inside are. -/
structure StaysInside (inner : List Change) : Prop where
  scopes : ∀ c ∈ inner, c.IsOfScopes
  inside : ∀ k, 0 < depthFrom 1 (inner.take k)
  closed : depthFrom 1 inner = 1

variable {t core : MacroTable} {env : MacroEnv} {history inner : List Change} {c : Change} {key : String} {b : MacroBinding}
  {level i : Nat}

theorem depth_snoc (history : List Change) (c : Change) : depth (history ++ [c]) = depthAfter (depth history) c := by
  simp [depth, depthFrom]

theorem take_snoc_of_le (h : i ≤ history.length) (c : Change) : (history ++ [c]).take i = history.take i :=
  List.take_append_of_le_length h

theorem take_snoc_of_lt (h : history.length < i) (c : Change) : (history ++ [c]).take i = history ++ [c] :=
  List.take_of_length_le (by simpa [Nat.succ_le_iff] using h)

theorem getElem?_snoc_iff {c' : Change} :
    (history ++ [c])[i]? = some c' ↔ history[i]? = some c' ∨ i = history.length ∧ c' = c := by
  rcases Nat.lt_trichotomy i history.length with h | rfl | h
  · rw [List.getElem?_append_left h]
    simp [Nat.ne_of_lt h]
  · simp [eq_comm]
  · rw [List.getElem?_eq_none (by simp; omega), List.getElem?_eq_none (by omega)]
    simp [Nat.ne_of_gt h]

theorem DefinedIn.lt (h : DefinedIn t history key level i b) : i < history.length := by
  obtain ⟨name, expander, hi, -⟩ := h.change
  exact (List.getElem?_eq_some_iff.mp hi).1

theorem DefinedIn.level_le (h : DefinedIn t history key level i b) : level ≤ depth history := by
  have hle := h.still_open history.length h.lt.le
  rwa [List.take_length] at hle

theorem definedIn_snoc : DefinedIn t (history ++ [c]) key level i b ↔
    level ≤ depth (history ++ [c]) ∧ (DefinedIn t history key level i b ∨
      i = history.length ∧ level = depth history ∧ 0 < level ∧ b.name = key ∧
        ∃ name expander, c = installLocal name expander ∧ b = t.binding name expander none) := by
  constructor
  · intro h
    refine ⟨h.level_le, ?_⟩
    obtain ⟨name, expander, hi, hb⟩ := h.change
    have hinner := h.innermost
    rcases getElem?_snoc_iff.mp hi with hi | ⟨rfl, hc⟩
    · have hlt := (List.getElem?_eq_some_iff.mp hi).1
      rw [take_snoc_of_le hlt.le] at hinner
      refine .inl ⟨⟨name, expander, hi, hb⟩, h.name_eq, h.level_pos, hinner, fun k hk ↦ ?_⟩
      rcases le_or_gt k history.length with hle | hgt
      · rw [← take_snoc_of_le hle c]
        exact h.still_open k hk
      · rw [List.take_of_length_le hgt.le, ← List.take_length (l := history), ← take_snoc_of_le le_rfl c]
        exact h.still_open _ hlt.le
    · rw [take_snoc_of_le le_rfl, List.take_length] at hinner
      exact .inr ⟨rfl, hinner.symm, h.level_pos, h.name_eq, name, expander, hc.symm, hb⟩
  · rintro ⟨hlevel, h | ⟨rfl, rfl, hpos, hname, name, expander, rfl, hb⟩⟩
    · obtain ⟨name, expander, hi, hb⟩ := h.change
      refine ⟨⟨name, expander, getElem?_snoc_iff.mpr (.inl hi), hb⟩, h.name_eq, h.level_pos, ?_, fun k hk ↦ ?_⟩
      · rw [take_snoc_of_le h.lt.le]
        exact h.innermost
      · rcases le_or_gt k history.length with hle | hgt
        · rw [take_snoc_of_le hle]
          exact h.still_open k hk
        · rwa [take_snoc_of_lt hgt]
    · refine ⟨⟨name, expander, getElem?_snoc_iff.mpr (.inr ⟨rfl, rfl⟩), hb⟩, hname, hpos, ?_, fun k hk ↦ ?_⟩
      · rw [take_snoc_of_le le_rfl, List.take_length]
      · rcases Nat.eq_or_lt_of_le hk with rfl | hgt
        · rw [take_snoc_of_le le_rfl, List.take_length]
        · rwa [take_snoc_of_lt hgt]

theorem not_latestIn_of_lt (h : depth history < level) : ¬LatestIn t history key level b :=
  fun ⟨_, hi, _⟩ ↦ absurd hi.level_le (Nat.not_le_of_lt h)

theorem latestIn_snoc (hlevel : level ≤ depth (history ++ [c]))
    (hc : ∀ name expander, c = installLocal name expander → level ≠ depth history) :
    LatestIn t (history ++ [c]) key level b ↔ LatestIn t history key level b := by
  have hsame : ∀ i b, DefinedIn t (history ++ [c]) key level i b ↔ DefinedIn t history key level i b := by
    intro i b
    rw [definedIn_snoc]
    refine ⟨?_, fun h ↦ ⟨hlevel, .inl h⟩⟩
    rintro ⟨-, h | ⟨-, hd, -, -, name, expander, hinstall, -⟩⟩
    · exact h
    · exact absurd hd (hc name expander hinstall)
  simp only [LatestIn, hsame]

theorem latestIn_installLocal {name : String} {expander : Expander} (hpos : 0 < depth history) :
    LatestIn t (history ++ [installLocal name expander]) key (depth history) b ↔
      if t.mangle name = key then b = t.binding name expander none else LatestIn t history key (depth history) b := by
  have hdepth : depth (history ++ [installLocal name expander]) = depth history := depth_snoc ..
  have hdefined : ∀ i b, DefinedIn t (history ++ [installLocal name expander]) key (depth history) i b ↔ _ :=
    fun i b ↦ definedIn_snoc
  simp only [hdepth, le_refl, true_and, hpos] at hdefined
  have hnew : ∀ b : MacroBinding, (∃ name' expander', installLocal name expander = installLocal name' expander' ∧
      b = t.binding name' expander' none) ↔ b = t.binding name expander none := by
    intro b
    constructor
    · rintro ⟨name', expander', he, hb⟩
      cases he
      exact hb
    · exact fun hb ↦ ⟨name, expander, rfl, hb⟩
  simp only [hnew] at hdefined
  simp only [LatestIn, hdefined]
  split
  · next hkey =>
    constructor
    · rintro ⟨i, h | ⟨-, -, hb⟩, hlast⟩
      · have hlater := hlast history.length (t.binding name expander none) (.inr ⟨rfl, hkey, rfl⟩)
        exact absurd h.lt (Nat.not_lt_of_le hlater)
      · exact hb
    · rintro rfl
      refine ⟨history.length, .inr ⟨rfl, hkey, rfl⟩, ?_⟩
      rintro i' b' (h | ⟨rfl, -, -⟩)
      · exact h.lt.le
      · exact le_rfl
  · next hkey =>
    have hno : ∀ b : MacroBinding, b.name = key → b ≠ t.binding name expander none := by
      rintro _ hb rfl
      exact hkey hb
    constructor
    · rintro ⟨i, h | ⟨-, hb, he⟩, hlast⟩
      · exact ⟨i, h, fun i' b' h' ↦ hlast i' b' (.inl h')⟩
      · exact absurd he (hno b hb)
    · rintro ⟨i, h, hlast⟩
      refine ⟨i, .inl h, ?_⟩
      rintro i' b' (h' | ⟨-, hb, he⟩)
      · exact hlast i' b' h'
      · exact absurd he (hno b' hb)

theorem isModule_snoc : IsModule t (history ++ [c]) key b ↔ c.Leaves t (depth history) key b ∨
    ¬c.Touches t (depth history) key ∧ IsModule t history key b := by
  have hlast : (history ++ [c])[history.length]? = some c := getElem?_snoc_iff.mpr (.inr ⟨rfl, rfl⟩)
  have htake : depth ((history ++ [c]).take history.length) = depth history := by
    rw [take_snoc_of_le le_rfl, List.take_length]
  have hold : ∀ {k c'}, history[k]? = some c' → (history ++ [c])[k]? = some c' ∧
      depth ((history ++ [c]).take k) = depth (history.take k) := by
    intro k c' hk
    refine ⟨getElem?_snoc_iff.mpr (.inl hk), ?_⟩
    rw [take_snoc_of_le (List.getElem?_eq_some_iff.mp hk).1.le]
  -- Of all changes after a place, the last one has to be looked at apart.
  have hafter : ∀ {P : Nat → Prop}, P history.length →
      ((∀ (k : Nat) (c' : Change), P k → (history ++ [c])[k]? = some c' →
          ¬c'.Touches t (depth ((history ++ [c]).take k)) key) ↔
        ¬c.Touches t (depth history) key ∧
          ∀ (k : Nat) (c' : Change), P k → history[k]? = some c' → ¬c'.Touches t (depth (history.take k)) key) := by
    intro P hP
    constructor
    · intro h
      refine ⟨htake ▸ h _ c hP hlast, fun k c' hk hc' ↦ ?_⟩
      obtain ⟨hget, hdepth⟩ := hold hc'
      exact hdepth ▸ h k c' hk hget
    · rintro ⟨hc, h⟩ k c' hk hc'
      rcases getElem?_snoc_iff.mp hc' with hc' | ⟨rfl, rfl⟩
      · rw [(hold hc').2]
        exact h k c' hk hc'
      · rwa [htake]
  unfold IsModule
  constructor
  · rintro (⟨i, c', hi, hleaves, h⟩ | ⟨hstart, h⟩)
    · rcases getElem?_snoc_iff.mp hi with hi | ⟨rfl, rfl⟩
      · obtain ⟨hc, h⟩ := (hafter (P := (i < ·)) (List.getElem?_eq_some_iff.mp hi).1).mp h
        exact .inr ⟨hc, .inl ⟨i, c', hi, (hold hi).2 ▸ hleaves, h⟩⟩
      · exact .inl (htake ▸ hleaves)
    · obtain ⟨hc, h⟩ := (hafter (P := fun _ ↦ True) trivial).mp fun k c' _ ↦ h k c'
      exact .inr ⟨hc, .inr ⟨hstart, fun k c' ↦ h k c' trivial⟩⟩
  · rintro (hleaves | ⟨hc, ⟨i, c', hi, hleaves, h⟩ | ⟨hstart, h⟩⟩)
    · refine .inl ⟨history.length, c, hlast, htake.symm ▸ hleaves, fun k c' hk hc' ↦ ?_⟩
      have hlt := (List.getElem?_eq_some_iff.mp hc').1
      rw [List.length_append, List.length_singleton] at hlt
      omega
    · obtain ⟨hget, hdepth⟩ := hold hi
      exact .inl ⟨i, c', hget, hdepth.symm ▸ hleaves,
        (hafter (P := (i < ·)) (List.getElem?_eq_some_iff.mp hi).1).mpr ⟨hc, h⟩⟩
    · refine .inr ⟨hstart, fun k c' ↦ ?_⟩
      exact (hafter (P := fun _ ↦ True) trivial).mpr ⟨hc, fun k c' _ ↦ h k c'⟩ k c' trivial

/-- Each scope, the innermost first, holds the last definitions that were made in it. -/
def ScopesFollow (t : MacroTable) (history : List Change) : List Bindings → Prop
  | [] => True
  | scope :: scopes =>
    (∀ (key : String) (b : MacroBinding),
      scope[key]? = some b ↔ LatestIn t history key (scopes.length + 1) b) ∧ ScopesFollow t history scopes

structure Follows (t core : MacroTable) (history : List Change) (env : MacroEnv) : Prop where
  core_eq : env.core = core
  module_eq : env.table.module = t.module
  mangle_eq : env.table.mangle = t.mangle
  length_eq : env.scopes.length = depth history
  scopes : ScopesFollow t history env.scopes
  table : ∀ key b, env.table.getMangled? key = some b ↔ IsModule t history key b

theorem ScopesFollow.congr {history' : List Change} {scopes : List Bindings} (h : ScopesFollow t history scopes)
    (hsame : ∀ level ≤ scopes.length, ∀ key b, LatestIn t history' key level b ↔ LatestIn t history key level b) :
    ScopesFollow t history' scopes := by
  induction scopes with
  | nil => trivial
  | cons scope scopes ih =>
    refine ⟨fun key b ↦ (h.1 key b).trans (hsame _ (by simp) key b).symm, ih h.2 fun level hlevel ↦ ?_⟩
    exact hsame level (by simp; omega)

theorem binding_congr (hmodule : env.table.module = t.module) (hmangle : env.table.mangle = t.mangle) :
    env.table.binding = t.binding := by
  funext name expander doc
  simp only [MacroTable.binding, hmodule, hmangle]

theorem run_table (hmodule : env.table.module = t.module) (hmangle : env.table.mangle = t.mangle)
    (hc : ∀ name, c ≠ erase name) : (c.run env).table = env.table.insertAll (c.written t env.scopes.length) := by
  have hbinding := binding_congr hmodule hmangle
  cases c with
  | pushScope | popScope => rfl
  | installLocal name expander =>
    rw [Change.run, MacroEnv.installLocal, written, ← hbinding]
    cases env.scopes <;> rfl
  | install name expander | installTemplate name template =>
    rw [written, ← hbinding]
    rfl
  | erase name => exact absurd rfl (hc name)
  | require source assignments qualifier =>
    rw [written, ← hmodule, ← MacroTable.taken_congr hmangle]
    exact source.require_snd env.table assignments qualifier

theorem run_core (env : MacroEnv) (c : Change) : (c.run env).core = env.core := by
  cases c with
  | installLocal name expander =>
    rw [Change.run, MacroEnv.installLocal]
    cases env.scopes <;> rfl
  | _ => rfl

theorem run_module_mangle (env : MacroEnv) (c : Change) :
    (c.run env).table.module = env.table.module ∧ (c.run env).table.mangle = env.table.mangle := by
  by_cases hc : ∃ name, c = erase name
  · obtain ⟨name, rfl⟩ := hc
    exact ⟨rfl, rfl⟩
  · push Not at hc
    rw [run_table rfl rfl hc, MacroTable.insertAll_eq]
    exact ⟨rfl, rfl⟩

theorem getMangled?_run (hmodule : env.table.module = t.module) (hmangle : env.table.mangle = t.mangle) :
    (c.run env).table.getMangled? key = some b ↔ c.Leaves t env.scopes.length key b ∨
      ¬c.Touches t env.scopes.length key ∧ env.table.getMangled? key = some b := by
  by_cases hc : ∃ name, c = erase name
  · obtain ⟨name, rfl⟩ := hc
    have hget : ((erase name).run env).table.getMangled? key =
        if t.mangle name = key then none else env.table.getMangled? key := by
      simp [run, MacroTable.getMangled?, MacroTable.erase, Std.TreeMap.getElem?_erase, hmangle]
    simp only [hget, Leaves, Touches, written, erase.injEq, exists_eq_left']
    by_cases hkey : t.mangle name = key <;> simp [hkey]
  · push Not at hc
    have hno : ¬∃ name, c = erase name ∧ t.mangle name = key := by
      rintro ⟨name, he, -⟩
      exact hc name he
    rw [run_table hmodule hmangle hc, MacroTable.getMangled?_insertAll_iff]
    simp only [Leaves, Touches, hno, or_false, not_exists, not_and]

theorem run_scopes_installLocal {name : String} {expander : Expander} {scope : Bindings} {scopes : List Bindings}
    (hs : env.scopes = scope :: scopes) : ((installLocal name expander).run env).scopes =
      scope.insert (env.table.mangle name) (env.table.binding name expander none) :: scopes := by
  rw [Change.run, MacroEnv.installLocal, hs]
  rfl

theorem run_scopes_of_not_scopes (h : ¬c.IsOfScopes) : (c.run env).scopes = env.scopes := by
  cases c <;> first | rfl | exact absurd trivial h

theorem Follows.scopes_run (h : Follows t core history env) (c : Change) :
    (c.run env).scopes.length = depth (history ++ [c]) ∧ ScopesFollow t (history ++ [c]) (c.run env).scopes := by
  have hlength := h.length_eq
  have hscopes := h.scopes
  rw [depth_snoc]
  by_cases hc : c.IsOfScopes
  · cases c with
    | pushScope =>
      refine ⟨congrArg (· + 1) hlength, fun key b ↦ ?_, hscopes.congr fun level hlevel key b ↦ ?_⟩
      · have hdepth : depth (history ++ [pushScope]) = depth history + 1 := depth_snoc ..
        have hno : ¬LatestIn t history key (env.scopes.length + 1) b := not_latestIn_of_lt (by omega)
        rw [latestIn_snoc (by omega) (by simp)]
        simpa using hno
      · refine latestIn_snoc ?_ (by simp)
        have hdepth : depth (history ++ [pushScope]) = depth history + 1 := depth_snoc ..
        omega
    | popScope =>
      have hdepth : depth (history ++ [popScope]) = depth history - 1 := depth_snoc ..
      rcases hs : env.scopes with _ | ⟨scope, scopes⟩
      · rw [hs] at hlength
        simp [run, MacroEnv.popScope, hs, ScopesFollow, depthAfter, ← hlength]
      · rw [hs] at hlength hscopes
        have hrun : (run env popScope).scopes = scopes := by simp [run, MacroEnv.popScope, hs]
        simp only [List.length_cons] at hlength
        rw [hrun]
        refine ⟨by simp [depthAfter, ← hlength], hscopes.2.congr fun level hlevel key b ↦ ?_⟩
        exact latestIn_snoc (by omega) (by simp)
    | installLocal name expander =>
      have hdepth : depth (history ++ [installLocal name expander]) = depth history := depth_snoc ..
      rcases hs : env.scopes with _ | ⟨scope, scopes⟩
      · rw [hs] at hlength
        have hrun : (run env (installLocal name expander)).scopes = [] := by simp [run, MacroEnv.installLocal, hs]
        rw [hrun]
        exact ⟨hlength, trivial⟩
      · rw [hs] at hlength hscopes
        simp only [List.length_cons] at hlength
        rw [run_scopes_installLocal hs, binding_congr h.module_eq h.mangle_eq, h.mangle_eq]
        refine ⟨hlength, fun key b ↦ ?_, hscopes.2.congr fun level hlevel key b ↦ ?_⟩
        · have hbefore := hscopes.1 key b
          rw [hlength] at hbefore ⊢
          rw [latestIn_installLocal (by omega), Std.TreeMap.getElem?_insert, ← hbefore]
          simp only [Std.LawfulEqCmp.compare_eq_iff_eq]
          split <;> simp [eq_comm]
        · exact latestIn_snoc (by omega) fun _ _ _ ↦ by omega
    | _ => exact hc.elim
  · have hdepth : depthAfter (depth history) c = depth history := by
      cases c <;> first | rfl | exact absurd trivial hc
    rw [run_scopes_of_not_scopes hc, hdepth]
    refine ⟨hlength, hscopes.congr fun level hlevel key b ↦ latestIn_snoc ?_ ?_⟩
    · rw [depth_snoc, hdepth]
      omega
    · rintro name expander rfl
      exact absurd trivial hc

theorem Follows.run (h : Follows t core history env) (c : Change) : Follows t core (history ++ [c]) (c.run env) := by
  obtain ⟨hmodule, hmangle⟩ := run_module_mangle env c
  obtain ⟨hlength, hscopes⟩ := h.scopes_run c
  refine ⟨(run_core env c).trans h.core_eq, hmodule.trans h.module_eq, hmangle.trans h.mangle_eq, hlength, hscopes,
    fun key b ↦ ?_⟩
  rw [getMangled?_run h.module_eq h.mangle_eq, h.length_eq, isModule_snoc, h.table]

theorem follows_foldl (t core : MacroTable) (history : List Change) :
    Follows t core history (history.foldl Change.run (.new t core)) := by
  induction history using List.reverseRecOn with
  | nil =>
    refine ⟨rfl, rfl, rfl, rfl, trivial, fun key b ↦ ?_⟩
    simp [IsModule, MacroEnv.new]
  | append_singleton history c ih =>
    rw [List.foldl_append]
    exact ih.run c

theorem ScopesFollow.findSome?_iff {scopes : List Bindings} (h : ScopesFollow t history scopes) :
    (scopes.findSome? fun scope ↦ scope[key]?) = some b ↔ ∃ level ≤ scopes.length, LatestIn t history key level b ∧
      ∀ level' b', LatestIn t history key level' b' → level' ≤ scopes.length → level' ≤ level := by
  induction scopes with
  | nil =>
    simp only [List.findSome?_nil, reduceCtorEq, List.length_nil, Nat.le_zero, exists_eq_left, false_iff]
    rintro ⟨⟨i, hi, -⟩, -⟩
    exact absurd hi.level_pos (Nat.lt_irrefl 0)
  | cons scope scopes ih =>
    obtain ⟨hscope, hscopes⟩ := h
    rw [List.findSome?_cons, List.length_cons]
    cases hget : scope[key]? with
    | some b' =>
      have hlatest := (hscope key b').mp hget
      simp only [Option.some.injEq]
      constructor
      · rintro rfl
        exact ⟨_, le_rfl, hlatest, fun _ _ _ hle ↦ hle⟩
      · rintro ⟨level, hle, hb, hlast⟩
        obtain rfl : level = scopes.length + 1 := Nat.le_antisymm hle (hlast _ b' hlatest le_rfl)
        rw [← hscope, hget] at hb
        exact Option.some.inj hb
    | none =>
      have hno : ∀ b', ¬LatestIn t history key (scopes.length + 1) b' := by
        intro b' hb'
        rw [← hscope, hget] at hb'
        cases hb'
      dsimp only
      rw [ih hscopes]
      constructor
      · rintro ⟨level, hle, hb, hlast⟩
        refine ⟨level, by omega, hb, fun level' b' hb' hle' ↦ ?_⟩
        rcases Nat.le_succ_iff.mp hle' with hle' | rfl
        · exact hlast level' b' hb' hle'
        · exact absurd hb' (hno b')
      · rintro ⟨level, hle, hb, hlast⟩
        rcases Nat.le_succ_iff.mp hle with hle | rfl
        · exact ⟨level, hle, hb, fun level' b' hb' hle' ↦ hlast level' b' hb' (by omega)⟩
        · exact absurd hb (hno b)

theorem LatestIn.level_le (h : LatestIn t history key level b) : level ≤ depth history := by
  obtain ⟨i, hi, -⟩ := h
  exact hi.level_le

theorem Follows.findSome?_iff (h : Follows t core history env) :
    (env.scopes.findSome? fun scope ↦ scope[key]?) = some b ↔ IsLocal t history key b := by
  rw [h.scopes.findSome?_iff, h.length_eq]
  constructor
  · rintro ⟨level, -, hb, hlast⟩
    exact ⟨level, hb, fun level' b' hb' ↦ hlast level' b' hb' hb'.level_le⟩
  · rintro ⟨level, hb, hlast⟩
    exact ⟨level, hb.level_le, hb, fun level' b' hb' _ ↦ hlast level' b' hb'⟩

theorem Follows.lookup_iff (h : Follows t core history env) (key : String) :
    (∀ b, env.lookup key = some (.local, b) ↔ IsLocal t history key b) ∧
    (∀ b, env.lookup key = some (.module, b) ↔ (¬∃ b', IsLocal t history key b') ∧ IsModule t history key b) ∧
    (∀ b, env.lookup key = some (.core, b) ↔ (¬∃ b', IsLocal t history key b') ∧ (¬∃ b', IsModule t history key b') ∧
      core.getMangled? key = some b) ∧
    (env.lookup key = none ↔ (¬∃ b', IsLocal t history key b') ∧ (¬∃ b', IsModule t history key b') ∧
      core.getMangled? key = none) := by
  simp only [← h.findSome?_iff, ← h.table, ← h.core_eq, MacroEnv.lookup]
  cases env.scopes.findSome? fun scope ↦ scope[key]? with
  | some b => simp
  | none =>
    cases env.table.getMangled? key with
    | some b => simp
    | none => cases env.core.getMangled? key <;> simp

theorem run_front {front base : List Bindings} (hs : env.scopes = front ++ base) (hc : c.IsOfScopes)
    (hfront : 0 < front.length) :
    ∃ front', c.run env = { env with scopes := front' ++ base } ∧ front'.length = depthAfter front.length c := by
  obtain ⟨scope, front, rfl⟩ := List.exists_cons_of_length_pos hfront
  cases c with
  | pushScope => exact ⟨∅ :: scope :: front, by rw [Change.run, MacroEnv.pushScope, hs]; rfl, rfl⟩
  | popScope => exact ⟨front, by rw [Change.run, MacroEnv.popScope, hs]; rfl, rfl⟩
  | installLocal name expander =>
    refine ⟨scope.insert (env.table.mangle name) (env.table.binding name expander none) :: front, ?_, rfl⟩
    rw [Change.run, MacroEnv.installLocal, hs]
    rfl
  | _ => exact hc.elim

theorem foldl_front {front base : List Bindings} (hs : env.scopes = front ++ base) (hscopes : ∀ c ∈ inner, c.IsOfScopes)
    (hinside : ∀ k, 0 < depthFrom front.length (inner.take k)) :
    ∃ front', inner.foldl Change.run env = { env with scopes := front' ++ base } ∧
      front'.length = depthFrom front.length inner := by
  induction inner generalizing env front with
  | nil => exact ⟨front, by rw [← hs]; rfl, rfl⟩
  | cons c inner ih =>
    obtain ⟨hc, hscopes⟩ := List.forall_mem_cons.mp hscopes
    obtain ⟨front', hrun, hlength⟩ := run_front hs hc (hinside 0)
    have hinside' : ∀ k, 0 < depthFrom front'.length (inner.take k) := by
      intro k
      rw [hlength]
      exact hinside (k + 1)
    have hs' : (c.run env).scopes = front' ++ base := by rw [hrun]
    obtain ⟨front'', hfoldl, hlength'⟩ := ih hs' hscopes hinside'
    refine ⟨front'', ?_, ?_⟩
    · rw [List.foldl_cons, hfoldl, hrun]
    · rw [hlength', hlength]
      rfl

theorem StaysInside.foldl_eq (h : StaysInside inner) (env : MacroEnv) :
    (pushScope :: inner ++ [popScope]).foldl Change.run env = env := by
  have hs : env.pushScope.scopes = [∅] ++ env.scopes := rfl
  obtain ⟨front, hfoldl, hlength⟩ := foldl_front hs h.scopes h.inside
  have hone : front.length = 1 := hlength.trans h.closed
  obtain ⟨scope, rfl⟩ := List.length_eq_one_iff.mp hone
  rw [List.cons_append, List.foldl_cons, List.foldl_append, Change.run, hfoldl]
  rfl

/-- After any changes of an environment that had no scopes, a name means the last local macro of the innermost open scope
with one of that name; else what the last change to the module left under it; else the macro of the core. What is done
inside a scope is undone by closing it. -/
theorem lookup_after_changes (t core : MacroTable) (history : List Change) (key : String) :
    let env := history.foldl Change.run (.new t core)
    ((∀ b, env.lookup key = some (.local, b) ↔ IsLocal t history key b) ∧
      (∀ b, env.lookup key = some (.module, b) ↔ (¬∃ b', IsLocal t history key b') ∧ IsModule t history key b) ∧
      (∀ b, env.lookup key = some (.core, b) ↔ (¬∃ b', IsLocal t history key b') ∧
        (¬∃ b', IsModule t history key b') ∧ core.getMangled? key = some b) ∧
      (env.lookup key = none ↔ (¬∃ b', IsLocal t history key b') ∧ (¬∃ b', IsModule t history key b') ∧
        core.getMangled? key = none)) ∧
    ∀ inner, StaysInside inner →
      ((history ++ pushScope :: inner ++ [popScope]).foldl Change.run (.new t core)).lookup key = env.lookup key := by
  intro env
  refine ⟨(follows_foldl t core history).lookup_iff key, fun inner hinner ↦ ?_⟩
  rw [List.append_assoc, List.foldl_append, hinner.foldl_eq]

/-- A scope with a scope inside, in which macros of the module and of the outer scope are hidden for a while. -/
theorem lookup_after_nested_scopes :
    let e : Expander := fun _ ↦ .refuse ""
    let history := [installLocal "when" e, pushScope, installLocal "a-b" e]
    let inner := [installLocal "a-b" e, pushScope, installLocal "when" e, popScope]
    StaysInside inner ∧
      ((history ++ pushScope :: inner ++ [popScope]).foldl Change.run (.ofModule "m")).lookup "a_b" =
        (history.foldl Change.run (.ofModule "m")).lookup "a_b" := by
  intro e history inner
  have hinner : StaysInside inner := by
    refine ⟨by simp [inner, IsOfScopes], fun k ↦ ?_, rfl⟩
    rcases k with _ | _ | _ | _ | k
    · decide
    · decide
    · decide
    · decide
    · simp [inner, depthFrom, depthAfter]
  exact ⟨hinner, (lookup_after_changes (.new "m" Name.mangle) Core.table history "a_b").2 inner hinner⟩

end Change

end MacroLisp.MacroEnv
