import MacroLisp.Proofs.Expansion.Parts
import MacroLisp.Proofs.Lowering.Terms

namespace MacroLisp.Lowering.Term

open Host (Expr CompareOp Effects)

theorem induct {P : Term → Prop} (leaf : ∀ e, P (leaf e)) (list : ∀ items, (∀ t ∈ items, P t) → P (list items))
    (dict : ∀ items, (∀ t ∈ items, P t) → P (dict items)) (unary : ∀ op operand, P operand → P (unary op operand))
    (operator : ∀ op operands, (∀ t ∈ operands, P t) → P (operator op operands))
    (comparison : ∀ op first others, P first → (∀ t ∈ others, P t) → P (comparison op first others))
    (holds : ∀ operand, P operand → P (holds operand)) (member : ∀ object name, P object → P (member object name))
    (call : ∀ func keys args, P func → (∀ t ∈ args, P t) → P (call func keys args))
    (sequence : ∀ items, (∀ t ∈ items, P t) → P (sequence items))
    (assignment : ∀ places sources, (∀ t ∈ sources, P t) → P (assignment places sources)) (t : Term) : P t := by
  refine @Term.rec P (fun ts ↦ ∀ t ∈ ts, P t) leaf list dict unary operator comparison holds member call sequence assignment
    ?_ ?_ t
  · intro t ht
    cases ht
  · intro t ts ht hts u hu
    rcases List.mem_cons.mp hu with rfl | hu
    · exact ht
    · exact hts u hu

def isSilentLeaf : Expr → Bool
  | .constant _ => true
  | .tuple [] => true
  | _ => false

mutual

/-- Nothing happens in what is left to the expression. -/
def silent : Term → Bool
  | leaf e => isSilentLeaf e
  | list items => allSilent items
  | dict items => allSilent items
  | unary _ operand => silent operand
  | operator _ operands => allSilent operands
  | comparison _ first others => silent first && allSilent others
  | holds _ => true
  | member _ _ => false
  | call _ _ _ => false
  | sequence items => silentLast items
  | assignment _ _ => true

def allSilent : List Term → Bool
  | [] => true
  | t :: ts => silent t && allSilent ts

def silentLast : List Term → Bool
  | [] => true
  | [t] => silent t
  | _ :: ts => silentLast ts

end

mutual

def flat : Term → Bool
  | leaf _ => true
  | list items => allFlat items
  | dict items => allFlat items
  | unary _ operand => flat operand
  | operator _ operands => allFlat operands
  | comparison _ first others => flat first && allFlat others
  | holds operand => flat operand && silent operand
  | member object _ => flat object
  | call func _ args => flat func && allFlat args
  | sequence items => flatLast items
  | assignment places sources => places.isEmpty || sources.isEmpty

def allFlat : List Term → Bool
  | [] => true
  | t :: ts => flat t && allFlat ts

def flatLast : List Term → Bool
  | [] => true
  | [t] => flat t
  | t :: ts => flat t && silent t && flatLast ts

end

variable {t : Term} {ts : List Term}

@[simp] theorem allSilent_iff : allSilent ts = true ↔ ∀ t ∈ ts, t.silent = true := by
  induction ts with
  | nil => simp [allSilent]
  | cons t ts ih => simp [allSilent, ih]

@[simp] theorem allFlat_iff : allFlat ts = true ↔ ∀ t ∈ ts, t.flat = true := by
  induction ts with
  | nil => simp [allFlat]
  | cons t ts ih => simp [allFlat, ih]

section Effects

variable {M : Type → Type} {V : Type} [Monad M] (S : Effects M V)

@[simp] theorem rests_eq_map (ts : List Term) : rests S ts = ts.map (rest S) := by
  induction ts with
  | nil => rfl
  | cons t ts ih => simp [rests, ih]

@[simp] theorem writtens_eq_map (ts : List Term) : writtens S ts = ts.map (written S) := by
  induction ts with
  | nil => rfl
  | cons t ts ih => simp [writtens, ih]

theorem exists_pure_of_mem_rests (h : ∀ t ∈ ts, t.silent = true → ∃ v, t.rest S = pure v)
    (hs : ∀ t ∈ ts, t.silent = true) : ∀ x ∈ ts.map (rest S), ∃ v, x = pure v := by
  intro x hx
  obtain ⟨t, ht, rfl⟩ := List.mem_map.mp hx
  exact h t ht (hs t ht)

theorem exists_restLast_of_silent (h : ∀ t ∈ ts, t.silent = true → ∃ v, t.rest S = pure v)
    (hs : silentLast ts = true) : ∃ v, restLast S ts = pure v := by
  induction ts with
  | nil => exact ⟨_, rfl⟩
  | cons t ts ih =>
    obtain ⟨ht, hts⟩ := List.forall_mem_cons.mp h
    cases ts with
    | nil => exact ht hs
    | cons u ts => exact ih hts hs

variable [LawfulMonad M]

theorem exists_mapM_pure {xs : List (M V)} (h : ∀ x ∈ xs, ∃ v, x = pure v) : ∃ vs, xs.mapM id = pure vs := by
  induction xs with
  | nil => exact ⟨[], List.mapM_nil⟩
  | cons x xs ih =>
    obtain ⟨⟨v, rfl⟩, hxs⟩ := List.forall_mem_cons.mp h
    obtain ⟨vs, hvs⟩ := ih hxs
    exact ⟨v :: vs, by rw [List.mapM_cons, id, pure_bind, hvs, pure_bind]⟩

theorem exists_compareAll_pure {xs : List (M V)} (h : ∀ x ∈ xs, ∃ v, x = pure v) (v : V) (ops : List CompareOp) :
    ∃ c, S.compareAll v ops xs = pure c := by
  induction xs generalizing v ops with
  | nil => exact ⟨v, by cases ops <;> rfl⟩
  | cons x xs ih =>
    obtain ⟨⟨w, rfl⟩, hxs⟩ := List.forall_mem_cons.mp h
    match ops, xs with
    | [], _ => exact ⟨v, rfl⟩
    | op :: _, [] => exact ⟨S.compare op v w, by rw [Effects.compareAll, pure_bind]⟩
    | op :: ops, y :: xs =>
      obtain ⟨c, hc⟩ := ih hxs w ops
      rw [Effects.compareAll, pure_bind]
      split
      · exact ⟨c, hc⟩
      · exact ⟨_, rfl⟩

theorem exists_rest_of_silent (h : t.silent = true) : ∃ v, t.rest S = pure v := by
  induction t using induct with
  | leaf e =>
    rw [silent] at h
    unfold isSilentLeaf at h
    split at h
    · exact ⟨_, rfl⟩
    · exact ⟨S.tuple [], by rw [rest, Effects.eval, Effects.evals, List.mapM_nil, pure_bind]⟩
    · cases h
  | list items ih | dict items ih | operator op items ih =>
    obtain ⟨vs, hvs⟩ := exists_mapM_pure (exists_pure_of_mem_rests S ih (allSilent_iff.mp h))
    exact ⟨_, by rw [rest, rests_eq_map, hvs, pure_bind]⟩
  | unary op operand ih =>
    obtain ⟨v, hv⟩ := ih h
    exact ⟨_, by rw [rest, hv, pure_bind]⟩
  | comparison op first others ih ihs =>
    rw [silent, Bool.and_eq_true] at h
    obtain ⟨v, hv⟩ := ih h.1
    rw [rest, hv, pure_bind, rests_eq_map]
    exact exists_compareAll_pure S (exists_pure_of_mem_rests S ihs (allSilent_iff.mp h.2)) v _
  | holds operand ih => exact ⟨_, rfl⟩
  | member object name ih => cases h
  | call func keys args ih ihs => cases h
  | sequence items ih => exact exists_restLast_of_silent S ih h
  | assignment places sources ih => exact ⟨_, rfl⟩

theorem hoistedAll_of_flat (h : ∀ t ∈ ts, t.flat = true → t.hoisted S = pure ()) (hf : ∀ t ∈ ts, t.flat = true) :
    hoistedAll S ts = pure () := by
  induction ts with
  | nil => rfl
  | cons t ts ih =>
    obtain ⟨ht, hts⟩ := List.forall_mem_cons.mp h
    obtain ⟨hft, hfts⟩ := List.forall_mem_cons.mp hf
    rw [hoistedAll, ht hft, pure_bind, ih hts hfts]

theorem hoistedLast_of_flat (h : ∀ t ∈ ts, t.flat = true → t.hoisted S = pure ()) (hf : flatLast ts = true) :
    hoistedLast S ts = pure () := by
  induction ts with
  | nil => rfl
  | cons t ts ih =>
    obtain ⟨ht, hts⟩ := List.forall_mem_cons.mp h
    cases ts with
    | nil => exact ht hf
    | cons u ts =>
      simp only [flatLast, Bool.and_eq_true] at hf
      obtain ⟨v, hv⟩ := exists_rest_of_silent S hf.1.2
      rw [hoistedLast, ht hf.1.1, hv, pure_bind, pure_bind]
      · exact ih hts hf.2
      · exact List.cons_ne_nil u ts

theorem hoisted_of_flat (h : t.flat = true) : t.hoisted S = pure () := by
  induction t using induct with
  | leaf e => rfl
  | list items ih | dict items ih | operator op items ih => exact hoistedAll_of_flat S ih (allFlat_iff.mp h)
  | unary op operand ih => exact ih h
  | comparison op first others ih ihs =>
    rw [flat, Bool.and_eq_true] at h
    rw [hoisted, ih h.1, pure_bind, hoistedAll_of_flat S ihs (allFlat_iff.mp h.2)]
  | holds operand ih =>
    rw [flat, Bool.and_eq_true] at h
    obtain ⟨v, hv⟩ := exists_rest_of_silent S h.2
    rw [hoisted, ih h.1, pure_bind, hv, pure_bind]
  | member object name ih => exact ih h
  | call func keys args ih ihs =>
    rw [flat, Bool.and_eq_true] at h
    rw [hoisted, ih h.1, pure_bind, hoistedAll_of_flat S ihs (allFlat_iff.mp h.2)]
  | sequence items ih => exact hoistedLast_of_flat S ih h
  | assignment places sources ih =>
    rw [hoisted]
    cases places with
    | nil => cases sources <;> rfl
    | cons place places =>
      cases sources with
      | nil => rfl
      | cons t ts => cases h

end Effects

/-- No effect of an operand that is left to the expression stands before one that is hoisted. -/
def steady : List Term → Bool
  | [] => true
  | t :: ts => (t.silent || allFlat ts) && steady ts

/-- No keyword argument with an effect that is left to the expression stands before such a positional one. -/
def keywordsLate : List (Option String) → List Term → Bool
  | [], [] => true
  | none :: keys, _ :: ts => keywordsLate keys ts
  | some _ :: keys, t :: ts => (t.silent || allSilent (distribute keys ts).1) && keywordsLate keys ts
  | _, _ => false

/-- The operands after the second, which a comparison may not come to, have nothing hoisted. -/
def chainSteady (first : Term) : List Term → Bool
  | [] => true
  | second :: others => (first.silent || second.flat) && allFlat others

mutual

/-- At every depth hoisting passes no effect. -/
def inOrder : Term → Bool
  | leaf _ => true
  | list items => steady items && allInOrder items
  | dict items => steady items && allInOrder items
  | unary _ operand => inOrder operand
  | operator _ operands => steady operands && allInOrder operands
  | comparison _ first others => chainSteady first others && inOrder first && allInOrder others
  | holds operand => inOrder operand
  | member object _ => inOrder object
  | call func keys args => steady (func :: args) && keywordsLate keys args && inOrder func && allInOrder args
  | sequence items => allInOrder items
  | assignment _ sources => allInOrder sources

def allInOrder : List Term → Bool
  | [] => true
  | t :: ts => inOrder t && allInOrder ts

end

@[simp] theorem allInOrder_iff : allInOrder ts = true ↔ ∀ t ∈ ts, t.inOrder = true := by
  induction ts with
  | nil => simp [allInOrder]
  | cons t ts ih => simp [allInOrder, ih]

section Effects

variable {M : Type → Type} {V : Type} [Monad M] [LawfulMonad M] (S : Effects M V)

def Keeps (t : Term) : Prop := (do t.hoisted S; t.rest S) = t.written S

variable {S}

theorem hoistedAll_rests (h : ∀ t ∈ ts, Keeps S t) (hs : steady ts = true) :
    (do hoistedAll S ts; (ts.map (rest S)).mapM id) = (ts.map (written S)).mapM id := by
  induction ts with
  | nil =>
    rw [hoistedAll, pure_bind]
    rfl
  | cons t ts ih =>
    obtain ⟨ht, hts⟩ := List.forall_mem_cons.mp h
    rw [steady, Bool.and_eq_true, Bool.or_eq_true] at hs
    have htail := ih hts hs.2
    rw [Keeps] at ht
    simp only [hoistedAll, List.map_cons, List.mapM_cons, id, bind_assoc, ← ht, ← htail]
    rcases hs.1 with hsilent | hflat
    · obtain ⟨v, hv⟩ := exists_rest_of_silent S hsilent
      simp only [hv, pure_bind]
    · have hnone := hoistedAll_of_flat S (fun t _ ↦ hoisted_of_flat S) (allFlat_iff.mp hflat)
      simp only [hnone, pure_bind]

theorem written_of_flat (h : Keeps S t) (hf : t.flat = true) : t.written S = t.rest S := by
  rw [← h, hoisted_of_flat S hf, pure_bind]

theorem keeps_comparison {op : CompareOp} {first : Term} (hfirst : Keeps S first) (hothers : ∀ t ∈ ts, Keeps S t)
    (hs : chainSteady first ts = true) : Keeps S (comparison op first ts) := by
  rw [Keeps] at hfirst ⊢
  cases ts with
  | nil =>
    simp only [hoisted, hoistedAll, rest, written, rests, writtens, List.map_nil, bind_assoc, pure_bind, ← hfirst]
  | cons t ts =>
    obtain ⟨ht, hts⟩ := List.forall_mem_cons.mp hothers
    rw [Keeps] at ht
    rw [chainSteady, Bool.and_eq_true, Bool.or_eq_true] at hs
    have hflat := allFlat_iff.mp hs.2
    have hnone := hoistedAll_of_flat S (fun t _ ↦ hoisted_of_flat S) hflat
    have hsame : ts.map (written S) = ts.map (rest S) :=
      List.map_congr_left fun u hu ↦ written_of_flat (hts u hu) (hflat u hu)
    simp only [hoisted, hoistedAll, rest, written, rests_eq_map, writtens_eq_map, List.map_cons, hnone, hsame, bind_assoc,
      pure_bind, ← hfirst, ← ht, Effects.compareAll_cons]
    rcases hs.1 with hsilent | hflat
    · obtain ⟨v, hv⟩ := exists_rest_of_silent S hsilent
      simp only [hv, pure_bind]
    · simp only [hoisted_of_flat S hflat, pure_bind]

theorem computed_keyword {keys : List (Option String)} {key : String}
    (h : t.silent = true ∨ allSilent (distribute keys ts).1 = true) :
    Host.computed (distribute (some key :: keys) ((t :: ts).map (rest S))) = (do
      let v ← rest S t
      let r ← Host.computed (distribute keys (ts.map (rest S)))
      return (r.1, (key, v) :: r.2)) := by
  simp only [List.map_cons, distribute, Host.computed, List.mapM_cons, bind_assoc, pure_bind]
  rcases h with hsilent | hsilent
  · obtain ⟨v, hv⟩ := exists_rest_of_silent S hsilent
    simp only [hv, pure_bind]
  · have hpositional : ∃ vs, (distribute keys (ts.map (rest S))).1.mapM id = pure vs := by
      rw [distribute_map]
      exact exists_mapM_pure (exists_pure_of_mem_rests S (fun t _ ↦ exists_rest_of_silent S) (allSilent_iff.mp hsilent))
    obtain ⟨vs, hvs⟩ := hpositional
    simp only [hvs, pure_bind]

theorem computed_distribute {keys : List (Option String)} (h : keywordsLate keys ts = true) :
    Host.computed (distribute keys (ts.map (rest S))) = distribute keys <$> (ts.map (rest S)).mapM id := by
  induction ts generalizing keys with
  | nil =>
    cases keys with
    | nil => simp [distribute, Host.computed]
    | cons key keys => cases key <;> cases h
  | cons t ts ih =>
    cases keys with
    | nil => cases h
    | cons key keys =>
      cases key with
      | none =>
        calc
          _ = (do
              let v ← rest S t
              let r ← Host.computed (distribute keys (ts.map (rest S)))
              return (v :: r.1, r.2)) := by simp [distribute, Host.computed]
          _ = _ := by
            rw [ih h]
            simp [distribute]
      | some key =>
        rw [keywordsLate, Bool.and_eq_true, Bool.or_eq_true] at h
        rw [computed_keyword h.1, ih h.2]
        simp [distribute]

theorem keeps_call {func : Term} {keys : List (Option String)} (hfunc : Keeps S func) (hargs : ∀ t ∈ ts, Keeps S t)
    (hs : steady (func :: ts) = true) (hk : keywordsLate keys ts = true) : Keeps S (call func keys ts) := by
  have hall := hoistedAll_rests (List.forall_mem_cons.mpr ⟨hfunc, hargs⟩) hs
  have hcall := congrArg (· >>= fun vs ↦ match vs with
    | f :: vs => S.call f (distribute keys vs).1 (distribute keys vs).2
    | [] => pure (S.constant .none)) hall
  simp only [hoistedAll, List.map_cons, List.mapM_cons, id, bind_assoc, pure_bind] at hcall
  rw [Keeps, hoisted, rest, written, rests_eq_map, writtens_eq_map, computed_distribute hk]
  simp only [bind_assoc, map_eq_pure_bind, pure_bind]
  exact hcall

theorem keeps_sequence (h : ∀ t ∈ ts, Keeps S t) : Keeps S (sequence ts) := by
  rw [Keeps, hoisted, rest, written]
  induction ts with
  | nil => rw [hoistedLast, pure_bind, restLast, writtenLast]
  | cons t ts ih =>
    obtain ⟨ht, hts⟩ := List.forall_mem_cons.mp h
    rw [Keeps] at ht
    cases ts with
    | nil => exact ht
    | cons u ts =>
      have htail := ih hts
      simp only [hoistedLast, restLast, writtenLast, bind_assoc, ← ht, ← htail]

theorem hoistedTo_eq {places : List Expr} (h : ∀ t ∈ ts, Keeps S t) : hoistedTo S places ts = writtenTo S places ts := by
  induction ts generalizing places with
  | nil => cases places <;> rfl
  | cons t ts ih =>
    obtain ⟨ht, hts⟩ := List.forall_mem_cons.mp h
    rw [Keeps] at ht
    cases places with
    | nil => rfl
    | cons place places => simp only [hoistedTo, writtenTo, bind_assoc, ← ht, ih hts]

theorem keeps_of_inOrder (h : t.inOrder = true) : Keeps S t := by
  induction t using induct with
  | leaf e => rw [Keeps, hoisted, pure_bind, rest, written]
  | list items ih | dict items ih | operator op items ih =>
    rw [inOrder, Bool.and_eq_true] at h
    have hitems := hoistedAll_rests (fun t ht ↦ ih t ht (allInOrder_iff.mp h.2 t ht)) h.1
    simp only [Keeps, hoisted, rest, written, rests_eq_map, writtens_eq_map, ← hitems, bind_assoc]
  | unary op operand ih =>
    have hoperand := ih h
    rw [Keeps] at hoperand
    simp only [Keeps, hoisted, rest, written, ← hoperand, bind_assoc]
  | comparison op first others ih ihs =>
    simp only [inOrder, Bool.and_eq_true] at h
    exact keeps_comparison (ih h.1.2) (fun t ht ↦ ihs t ht (allInOrder_iff.mp h.2 t ht)) h.1.1
  | holds operand ih =>
    have hoperand := ih h
    rw [Keeps] at hoperand
    simp only [Keeps, hoisted, rest, written, ← hoperand, bind_assoc, pure_bind]
  | member object name ih =>
    have hobject := ih h
    rw [Keeps] at hobject
    simp only [Keeps, hoisted, rest, written, ← hobject, bind_assoc]
  | call func keys args ih ihs =>
    simp only [inOrder, Bool.and_eq_true] at h
    exact keeps_call (ih h.1.2) (fun t ht ↦ ihs t ht (allInOrder_iff.mp h.2 t ht)) h.1.1.1 h.1.1.2
  | sequence items ih => exact keeps_sequence fun t ht ↦ ih t ht (allInOrder_iff.mp h t ht)
  | assignment places sources ih =>
    rw [Keeps, hoisted, rest, written, hoistedTo_eq fun t ht ↦ ih t ht (allInOrder_iff.mp h t ht)]

end Effects

end MacroLisp.Lowering.Term
