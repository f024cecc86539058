import MacroLisp.Proofs.Expansion.Fuel

namespace MacroLisp

variable {ω ω' ε ε' α β : Type}

structure NameSupply.Precedes (s t : NameSupply) : Prop where
  mangle : t.mangle = s.mangle
  count : s.count ≤ t.count

theorem NameSupply.Precedes.refl (s : NameSupply) : s.Precedes s := ⟨rfl, Nat.le_refl _⟩

theorem NameSupply.Precedes.trans {s t u : NameSupply} (h : s.Precedes t) (h' : t.Precedes u) : s.Precedes u :=
  ⟨h'.mangle.trans h.mangle, Nat.le_trans h.count h'.count⟩

namespace Process

variable {p : Process ω ε α} {f : α → Process ω ε β}

/-- The supply moves on, be the outcome a failure or not. -/
def Advances (p : Process ω ε α) : Prop := ∀ w o, p w = some o → w.names.Precedes o.world.names

namespace Advances

theorem pure (a : α) : Advances (Pure.pure a : Process ω ε α) := by
  rintro w _ ⟨⟩
  exact .refl _

theorem throw (e : ε) : Advances (.throw e : Process ω ε α) := by
  rintro w _ ⟨⟩
  exact .refl _

theorem record (entry : ω) : Advances (.record entry : Process ω ε Unit) := by
  rintro w _ ⟨⟩
  exact .refl _

theorem unfinished : Advances (.unfinished : Process ω ε α) := by
  rintro w _ ⟨⟩

theorem freshName (hint : String) : Advances (.freshName hint : Process ω ε String) := by
  rintro w _ ⟨⟩
  exact ⟨rfl, Nat.le_succ _⟩

theorem resolve (query : Query) : Advances (.resolve query : Process ω ε (Except String Value)) := by
  intro w o h
  unfold Process.resolve at h
  split at h
  · cases h
    exact .refl _
  · cases h
    exact .refl _

theorem bind (h : p.Advances) (hf : ∀ a, (f a).Advances) : (p >>= f).Advances := by
  intro w o ho
  rcases bind_eq_some.mp ho with ⟨e, log, w', hp, rfl⟩ | ⟨a, log, w', o', hp, ho', rfl⟩
  · exact h w _ hp
  · exact (h w _ hp).trans (hf a w' o' ho')

theorem map (h : p.Advances) (g : α → β) : (g <$> p).Advances := h.bind fun a ↦ .pure (g a)

theorem of_map (h : p.Advances) {g : Outcome ω ε α → Outcome ω' ε' β} (hg : ∀ o, (g o).world = o.world) :
    Advances fun w ↦ (p w).map g := by
  intro w o ho
  obtain ⟨o', hp, rfl⟩ := Option.map_eq_some_iff.mp ho
  rw [hg]
  exact h w o' hp

theorem quietly (h : p.Advances) : Advances (p.quietly : Process ω' ε' _) := h.of_map fun _ ↦ rfl

theorem mapError (h : p.Advances) (g : ε → ε') : (p.mapError g).Advances := h.of_map fun _ ↦ rfl

end Advances

end Process

open Process (Advances)

theorem Action.advances_run {nested : Bool → Node → Process ω ExpansionError Node}
    (hn : ∀ once form, (nested once form).Advances) (a : Action α) : (a.run nested).Advances := by
  induction a with
  | done a => exact .pure a
  | fail why => exact .throw why
  | fresh hint next ih => exact ((Advances.freshName hint).bind fun name ↦ .pure _).bind ih
  | expand once form next ih => exact (hn once form).quietly.bind ih
  | resolve query next ih => exact (Advances.resolve query).bind ih

namespace Expansion

variable (x : Expansion)

theorem advances_invoke {expand : Bool → Node → ExpandM Node} (he : ∀ once form, (expand once form).Advances)
    (b : MacroBinding) (form : Node) : (invoke expand b form).Advances :=
  (Action.advances_run he _).mapError _

theorem advances_head (fuel : Nat) (mode : Mode) (steps : Nat) (n : Node) : (x.head fuel mode steps n).Advances := by
  induction fuel generalizing mode steps n with
  | zero => exact .unfinished
  | succ fuel ih =>
    unfold head
    split
    · exact .pure _
    split
    · exact .throw _
    · refine (advances_invoke (fun once form ↦ (ih _ 0 form).map _) _ n).bind fun output ↦ ?_
      split
      · refine (Advances.record _).bind fun _ ↦ ?_
        split
        · exact .pure _
        · exact ih mode (steps + 1) _
      · split
        · exact .pure _
        · exact .pure _

end Expansion

end MacroLisp
