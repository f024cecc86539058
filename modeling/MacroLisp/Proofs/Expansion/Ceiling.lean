import MacroLisp.Proofs.Expansion.Descent

namespace MacroLisp.Expansion

open Process (Ends)

variable {x : Expansion} {limit : Nat}

/-- Under a limit, expansion at the head of any form ends after no more steps, with an error at the latest. So the
expansion of a tree ends unless it goes down forever, each time to a part of what the form before comes to. -/
theorem all_ends_under_limit_iff (hx : ∀ name p b, x.lookup name = some (p, b) → AnyTemplateOrCore b.expander)
    (hlimit : x.limit = some limit) (n : Node) (w : World) :
    (∀ mode m s, ∃ r log s', x.head (limit + 1) mode 0 m s = some ⟨r, log, s'⟩ ∧ log.length ≤ limit) ∧
    ((∃ r w', Ends (x.all · n) w r w') ↔
      ¬∃ chain : Nat → Node × World, chain 0 = (n, w) ∧ ∀ i, x.Descends (chain i) (chain (i + 1))) := by
  have hforms : ∀ name p b, x.lookup name = some (p, b) → b.expander.AnswersForms :=
    fun name p b h ↦ (hx name p b h).answersForms
  have hhead : ∀ mode m s, ∃ r log s', x.head (limit + 1) mode 0 m s = some ⟨r, log, s'⟩ ∧ log.length ≤ limit :=
    fun mode m s ↦ head_of_limit hforms hlimit mode (Nat.zero_add limit) m s
  refine ⟨hhead, all_ends_iff_no_endless_descent (fun m s ↦ ?_) n w⟩
  obtain ⟨r, log, s', h, -⟩ := hhead .value m s
  exact ⟨r, s', limit + 1, log, h⟩

/-- `(m)` becomes `(g (m))`. -/
def wrap : Template where
  params := ⟨[], none⟩
  body := .form [.symbol "quasiquote" .nowhere,
    .form [.symbol "g" .nowhere, .form [.symbol "m" .nowhere] .nowhere] .nowhere] .nowhere
  doc := none

def wrapping : Expansion where
  lookup name := if name = "m" then some (.module, ⟨"m", "__main__", wrap.expander, none⟩) else none
  mangle := Name.mangle
  limit := some 5

def callWrap : Node := .form [.symbol "m" .nowhere] .nowhere

theorem lookup_wrapping {name : String} {p : Provenance} {b : MacroBinding} (h : wrapping.lookup name = some (p, b)) :
    b.expander = wrap.expander := by
  unfold wrapping at h
  dsimp only at h
  split at h
  · cases h
    rfl
  · cases h

theorem descends_callWrap (w : World) : wrapping.Descends (callWrap, w) (callWrap, w) := by
  refine ⟨⟨.form [.symbol "g" .nowhere, callWrap] .nowhere, false⟩, w, [.symbol "g" .nowhere], [],
    [.symbol "g" .nowhere], ⟨3, ?_⟩, rfl, ⟨3, [], rfl⟩⟩
  exact ⟨_, rfl⟩

theorem not_acc_callWrap (w : World) : ¬Acc (fun t s ↦ wrapping.Descends s t) (callWrap, w) :=
  not_acc_iff_exists_descending_chain.mpr ⟨fun _ ↦ (callWrap, w), rfl, fun _ ↦ descends_callWrap w⟩

theorem expansion_under_limit_without_end :
    (∀ name p b, wrapping.lookup name = some (p, b) → ∃ t : Template, b.expander = t.expander) ∧
    wrapping.limit = some 5 ∧ ¬∃ r w', Ends (wrapping.all · callWrap) ⟨.new Name.mangle, none⟩ r w' := by
  refine ⟨fun name p b h ↦ ⟨wrap, lookup_wrapping h⟩, rfl, fun hends ↦ ?_⟩
  obtain ⟨r, w', fuel, log, h⟩ := hends
  exact not_acc_callWrap _ (acc_of_ends h)

/-- Each call takes one step, but there is no end of calls. -/
theorem wrapping_under_limit :
    let w : World := ⟨.new Name.mangle, none⟩
    wrapping.limit = some 5 ∧
    (∀ mode m s, ∃ r log s', wrapping.head 6 mode 0 m s = some ⟨r, log, s'⟩ ∧ log.length ≤ 5) ∧
    ((∃ r w', Ends (wrapping.all · callWrap) w r w') ↔
      ¬∃ chain : Nat → Node × World, chain 0 = (callWrap, w) ∧ ∀ i, wrapping.Descends (chain i) (chain (i + 1))) := by
  refine ⟨rfl, all_ends_under_limit_iff (fun name p b h ↦ ?_) rfl callWrap _⟩
  rw [lookup_wrapping h]
  exact .template wrap

end MacroLisp.Expansion
