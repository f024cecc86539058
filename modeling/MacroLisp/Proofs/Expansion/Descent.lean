import MacroLisp.Proofs.Expansion.Answers
import MacroLisp.Proofs.Expansion.Parts
import Mathlib.Order.WellFounded

namespace MacroLisp

open Process (Ends Steady)
open Relation (ReflTransGen)

namespace Process

variable {ω ε α β : Type} {f : α → Process ω ε β} {g : Nat → α → Process ω ε β} {as before after : List α} {a : α}
  {bs : List β} {w w' s : World} {log : List ω}

theorem mapM_cons_eq (f : α → Process ω ε β) (a : α) (as : List α) :
    (a :: as).mapM f = f a >>= fun b ↦ (b :: ·) <$> as.mapM f := by
  simp only [List.mapM_cons, map_eq_pure_bind]

theorem mapM_reaches {o : Outcome ω ε (List β)} (h : (before ++ a :: after).mapM f w = some o)
    (hbefore : before.mapM f w = some ⟨.ok bs, log, s⟩) : ∃ o', f a s = some o' := by
  rw [List.mapM_append, bind_of_ok hbefore, mapM_cons_eq] at h
  obtain ⟨o', ho', -⟩ := Option.map_eq_some_iff.mp h
  obtain ⟨o'', ho''⟩ := exists_of_bind ho'
  exact exists_of_bind ho''

theorem mapM_before_ends {o : Outcome ω ε (List β)} (h : (before ++ after).mapM f w = some o) :
    ∃ o', before.mapM f w = some o' := by
  rw [List.mapM_append] at h
  exact exists_of_bind h

theorem mapM_cons_eq_ok (h : (a :: as).mapM f w = some ⟨.ok bs, log, w'⟩) :
    ∃ b log₁ s bs' log₂, f a w = some ⟨.ok b, log₁, s⟩ ∧ as.mapM f s = some ⟨.ok bs', log₂, w'⟩ ∧ bs = b :: bs' := by
  rw [mapM_cons_eq] at h
  obtain ⟨b, log₁, s, log₂, ha, hrest, -⟩ := bind_eq_ok h
  obtain ⟨bs', has, rfl⟩ := map_eq_ok hrest
  exact ⟨b, log₁, s, bs', log₂, ha, has, rfl⟩

theorem exists_of_mem_mapM (h : as.mapM f w = some ⟨.ok bs, log, w'⟩) :
    bs.length = as.length ∧ ∀ b ∈ bs, ∃ before a after cs log' s log'' s', as = before ++ a :: after ∧
      before.mapM f w = some ⟨.ok cs, log', s⟩ ∧ f a s = some ⟨.ok b, log'', s'⟩ := by
  induction as generalizing bs log w with
  | nil =>
    cases h
    exact ⟨rfl, fun b hb ↦ absurd hb List.not_mem_nil⟩
  | cons a as ih =>
    obtain ⟨b, log₁, s, bs, log₂, ha, has, rfl⟩ := mapM_cons_eq_ok h
    obtain ⟨hlength, hmem⟩ := ih has
    refine ⟨by rw [List.length_cons, List.length_cons, hlength], fun b' hb' ↦ ?_⟩
    rcases List.mem_cons.mp hb' with rfl | hb'
    · exact ⟨[], a, as, [], [], w, log₁, s, rfl, rfl, ha⟩
    · obtain ⟨before, a', after, cs, log₃, t, log₄, t', rfl, hbefore, ha'⟩ := hmem b' hb'
      refine ⟨a :: before, a', after, b :: cs, log₁ ++ log₃, t, log₄, t', rfl, ?_, ha'⟩
      rw [mapM_cons_eq, bind_of_ok ha, map_apply, hbefore]
      rfl

theorem ends_mapM_cons_iff (hg : ∀ a, Steady (g · a)) {r : Except ε (List β)} :
    Ends (fun fuel ↦ (a :: as).mapM (g fuel)) w r w' ↔ (∃ e, r = .error e ∧ Ends (g · a) w (.error e) w') ∨
      ∃ b s, Ends (g · a) w (.ok b) s ∧ ∃ r', Ends (fun fuel ↦ as.mapM (g fuel)) s r' w' ∧ r = r'.map (b :: ·) := by
  have hrest : ∀ b, Steady fun fuel ↦ (b :: ·) <$> as.mapM (g fuel) :=
    fun b fuel fuel' hle ↦ (Steady.mapM hg as fuel fuel' hle).map (b :: ·)
  simp only [mapM_cons_eq, ends_bind_iff (hg a) hrest, ends_map_iff]

theorem ends_mapM (hg : ∀ a, Steady (g · a)) (h : ∀ before a after bs s, as = before ++ a :: after →
      Ends (fun fuel ↦ before.mapM (g fuel)) w (.ok bs) s → ∃ r s', Ends (g · a) s r s') :
    ∃ r w', Ends (fun fuel ↦ as.mapM (g fuel)) w r w' := by
  induction as generalizing w with
  | nil => exact ⟨.ok [], w, 0, [], rfl⟩
  | cons a as ih =>
    obtain ⟨r, s, ha⟩ := h [] a as [] w rfl ⟨0, [], rfl⟩
    cases r with
    | error e => exact ⟨_, _, (ends_mapM_cons_iff hg).mpr (.inl ⟨e, rfl, ha⟩)⟩
    | ok b =>
      have hrest : ∀ before a' after bs s', as = before ++ a' :: after →
          Ends (fun fuel ↦ before.mapM (g fuel)) s (.ok bs) s' → ∃ r s'', Ends (g · a') s' r s'' := by
        rintro before a' after bs s' rfl hbefore
        exact h (a :: before) a' after (b :: bs) s' rfl
          ((ends_mapM_cons_iff hg).mpr (.inr ⟨b, s, ha, _, hbefore, rfl⟩))
      obtain ⟨r, w', has⟩ := ih hrest
      exact ⟨_, w', (ends_mapM_cons_iff hg).mpr (.inr ⟨b, s, ha, r, has, rfl⟩)⟩

theorem ends_succ_iff {p : Nat → Process ω ε α} (hp : Steady p) {r : Except ε α} :
    Ends (fun fuel ↦ p (fuel + 1)) w r w' ↔ Ends p w r w' := by
  constructor
  · rintro ⟨fuel, log, h⟩
    exact ⟨fuel + 1, log, h⟩
  · rintro ⟨fuel, log, h⟩
    exact ⟨fuel, log, hp fuel _ (Nat.le_succ fuel) _ _ h⟩

end Process

namespace Expansion

variable {x : Expansion} {n m : Node} {w w' s : World} {fuel : Nat}

/-- The expansion of the first, as a tree, comes to the second: it is a part of what the first comes to at its head,
and the parts before it have been expanded. -/
def Descends (x : Expansion) (s t : Node × World) : Prop :=
  ∃ e w before after ms, Ends (x.head · .value 0 s.1) s.2 (.ok e) w ∧ e.parts = before ++ t.1 :: after ∧
    Ends (fun fuel ↦ before.mapM (x.all fuel)) w (.ok ms) t.2

theorem all_ends_iff {r : Except ExpansionError Node} : Ends (x.all · n) w r w' ↔
    (∃ e, r = .error e ∧ Ends (x.head · .value 0 n) w (.error e) w') ∨
      ∃ e s, Ends (x.head · .value 0 n) w (.ok e) s ∧
        ∃ r', Ends (fun fuel ↦ e.parts.mapM (x.all fuel)) s r' w' ∧ r = r'.map e.rebuild := by
  have hrest : ∀ e : Expanded, Steady fun fuel ↦ e.rebuild <$> e.parts.mapM (x.all fuel) :=
    fun e fuel fuel' hle ↦ (Steady.mapM all_steady e.parts fuel fuel' hle).map e.rebuild
  rw [← Process.ends_succ_iff (all_steady n)]
  simp only [all_succ, Process.ends_bind_iff (head_steady .value 0 n) hrest, Process.ends_map_iff]

theorem ends_of_descends {o : Outcome Step ExpansionError Node} (h : x.all (fuel + 1) n w = some o)
    (hd : x.Descends (n, w) (m, s)) : ∃ o', x.all fuel m s = some o' := by
  obtain ⟨e, t, before, after, ms, hhead, hparts, hbefore⟩ := hd
  rw [all_succ] at h
  rcases Process.bind_eq_some.mp h with ⟨e', log, t', hhead', -⟩ | ⟨e', log, t', o', hhead', hrest, -⟩
  · cases (hhead.unique (head_steady .value 0 n) ⟨fuel, log, hhead'⟩).1
  obtain ⟨he, rfl⟩ := hhead.unique (head_steady .value 0 n) ⟨fuel, log, hhead'⟩
  obtain rfl := Except.ok.inj he
  rw [Process.map_apply] at hrest
  obtain ⟨o'', hwalk, -⟩ := Option.map_eq_some_iff.mp hrest
  rw [hparts] at hwalk
  obtain ⟨⟨r, log', s'⟩, hends⟩ := Process.mapM_before_ends hwalk
  obtain ⟨rfl, rfl⟩ := hbefore.unique (Steady.mapM all_steady before) ⟨fuel, log', hends⟩
  exact Process.mapM_reaches hwalk hends

theorem acc_of_ends {o : Outcome Step ExpansionError Node} (h : x.all fuel n w = some o) :
    Acc (fun t s ↦ x.Descends s t) (n, w) := by
  induction fuel generalizing n w o with
  | zero => cases h
  | succ fuel ih =>
    refine ⟨_, fun ⟨m, s⟩ hd ↦ ?_⟩
    obtain ⟨o', hm⟩ := ends_of_descends h hd
    exact ih hm

theorem ends_of_acc (hhead : ∀ n w, ∃ r w', Ends (x.head · .value 0 n) w r w')
    (h : Acc (fun t s ↦ x.Descends s t) (n, w)) : ∃ r w', Ends (x.all · n) w r w' := by
  generalize hp : (n, w) = p at h
  induction h generalizing n w with
  | intro p _ ih =>
    subst hp
    obtain ⟨r, s, hr⟩ := hhead n w
    cases r with
    | error e => exact ⟨_, _, all_ends_iff.mpr (.inl ⟨e, rfl, hr⟩)⟩
    | ok e =>
      obtain ⟨r, w', hparts⟩ := Process.ends_mapM (g := x.all) all_steady fun before a after bs t he hbefore ↦
        ih (a, t) ⟨e, s, before, after, bs, hr, he, hbefore⟩ rfl
      exact ⟨_, w', all_ends_iff.mpr (.inr ⟨e, s, hr, r, hparts, rfl⟩)⟩

/-- An expansion ends if and only if it does not go down forever. -/
theorem all_ends_iff_no_endless_descent (hhead : ∀ n w, ∃ r w', Ends (x.head · .value 0 n) w r w') (n : Node)
    (w : World) : (∃ r w', Ends (x.all · n) w r w') ↔
      ¬∃ chain : Nat → Node × World, chain 0 = (n, w) ∧ ∀ i, x.Descends (chain i) (chain (i + 1)) := by
  have hacc : (∃ r w', Ends (x.all · n) w r w') ↔ Acc (fun t s ↦ x.Descends s t) (n, w) := by
    constructor
    · rintro ⟨r, w', fuel, log, h⟩
      exact acc_of_ends h
    · exact ends_of_acc hhead
  rw [hacc, ← not_iff_not, not_not, not_acc_iff_exists_descending_chain]

end Expansion

end MacroLisp
