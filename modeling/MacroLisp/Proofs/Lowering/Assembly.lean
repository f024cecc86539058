import MacroLisp.Proofs.Expansion.Parts
import MacroLisp.Proofs.Lowering.Quasiquote

namespace MacroLisp

namespace Template

open Lowering (IsSplice)

def spliced? : Node → Option Node
  | .sequence .paren [.symbol "unquote-splice" _, operand] _ => some operand
  | _ => none

theorem isSplice_iff {n : Node} : (spliced? n).isSome = true ↔ IsSplice n := by
  constructor
  · intro h
    unfold spliced? at h
    split at h
    · exact ⟨_, _, _, rfl⟩
    · cases h
  · rintro ⟨hs, operand, s, rfl⟩
    rfl

instance : DecidablePred IsSplice := fun _ ↦ decidable_of_iff _ isSplice_iff

/-- A way to put a template together: what is made of its leaves and its sequences, and which parts of a sequence
come from an item and from a splice. -/
structure Assembly (β γ : Type) where
  symbol : String → Span → β
  literal : Literal → Span → β
  sequence : Delimiter → List γ → Span → β
  item : β → γ
  splice : β → γ

namespace Assembly

variable {β γ β' γ' : Type} [Inhabited β] [Inhabited β']

def part (A : Assembly β γ) (level : Nat) (n : Node) (x : β) : γ :=
  if level = 1 ∧ IsSplice n then A.splice x else A.item x

mutual

/-- Puts a template together around the results for its holes, which are taken from left to right. -/
def assemble (A : Assembly β γ) : Nat → Node → List β → β
  | _, .symbol name s, _ => A.symbol name s
  | _, .literal value s, _ => A.literal value s
  | level, .sequence d items s, xs =>
    match d, items with
    | .paren, [.symbol head hs, operand] =>
      if (head = "unquote" ∨ head = "unquote-splice") ∧ level = 1 then xs.headD default
      else A.sequence .paren (A.item (A.symbol head hs) :: assembleAll A (levelIn head level) [operand] xs) s
    | d, items => A.sequence d (assembleAll A level items xs) s

def assembleAll (A : Assembly β γ) : Nat → List Node → List β → List γ
  | _, [], _ => []
  | level, n :: ns, xs =>
    A.part level n (assemble A level n (xs.take (holes level n).length)) ::
      assembleAll A level ns (xs.drop (holes level n).length)

end

variable {A : Assembly β γ} {B : Assembly β' γ'} {level : Nat} {n operand : Node} {ns : List Node} {xs : List β}
  {d : Delimiter} {head : String} {s hs : Span}

theorem assemble_hole (h : IsHole head level) :
    A.assemble level (.form [.symbol head hs, operand] s) xs = xs.headD default := by
  simp only [Node.form, assemble]
  exact if_pos h

theorem assemble_mark (h : ¬IsHole head level) : A.assemble level (.form [.symbol head hs, operand] s) xs =
    A.sequence .paren (A.item (A.symbol head hs) :: A.assembleAll (levelIn head level) [operand] xs) s := by
  simp only [Node.form, assemble]
  exact if_neg h

theorem assemble_sequence (h : ¬IsMark d ns) :
    A.assemble level (.sequence d ns s) xs = A.sequence d (A.assembleAll level ns xs) s := by
  rw [assemble]
  exact fun head hs operand hd hns ↦ h ⟨head, hs, operand, hd, hns⟩

theorem isSplice_form : IsSplice (.form [.symbol head hs, operand] s) ↔ head = "unquote-splice" := by
  constructor
  · rintro ⟨_, _, _, h⟩
    cases h
    rfl
  · rintro rfl
    exact ⟨_, _, _, rfl⟩

theorem not_isSplice_of_not_isMark (h : ¬IsMark d ns) : ¬IsSplice (.sequence d ns s) := by
  rintro ⟨hs, operand, _, hsplice⟩
  cases hsplice
  exact h ⟨_, _, _, rfl, rfl⟩

theorem isSplice_refill {operands : List Node} : IsSplice (refill level n operands) ↔ IsSplice n := by
  cases n with
  | symbol name s | literal value s => rfl
  | sequence d ns s =>
    by_cases hmark : IsMark d ns
    · obtain ⟨head, hs, operand, rfl, rfl⟩ := hmark
      rw [← Node.form]
      by_cases hhole : IsHole head level
      · rw [refill_hole hhole, isSplice_form, isSplice_form]
      · rw [refill_mark hhole, isSplice_form, isSplice_form]
    · rw [refill_sequence hmark]
      exact iff_of_false (not_isSplice_of_not_isMark fun h ↦ hmark (isMark_of_refillAll h)) (not_isSplice_of_not_isMark hmark)

theorem length_holes_refill {operands : List Node} (h : operands.length = (holes level n).length) :
    (holes level (refill level n operands)).length = (holes level n).length := by
  rw [← h, ← List.length_map Hole.operand, holes_refill level n operands h]

theorem assembleAll_refillAll (h : ∀ n ∈ ns, ∀ (operands : List Node) (xs : List β),
      operands.length = (holes level n).length → A.assemble level (refill level n operands) xs = A.assemble level n xs)
    {operands : List Node} (hlength : operands.length = (holesAll level ns).length) (xs : List β) :
    A.assembleAll level (refillAll level ns operands) xs = A.assembleAll level ns xs := by
  induction ns generalizing operands xs with
  | nil => rfl
  | cons n ns ih =>
    obtain ⟨hn, hns⟩ := List.forall_mem_cons.mp h
    rw [holesAll, List.length_append] at hlength
    have htake : (operands.take (holes level n).length).length = (holes level n).length := by
      rw [List.length_take]
      omega
    have hdrop : (operands.drop (holes level n).length).length = (holesAll level ns).length := by
      rw [List.length_drop]
      omega
    rw [refillAll, assembleAll, assembleAll, length_holes_refill htake, hn _ _ htake, ih hns hdrop]
    simp only [part, isSplice_refill]

theorem assemble_refill (level : Nat) (n : Node) : ∀ (operands : List Node) (xs : List β),
    operands.length = (holes level n).length → A.assemble level (refill level n operands) xs = A.assemble level n xs := by
  induction level, n using Template.induct with
  | symbol level name s | literal level value s => exact fun _ _ _ ↦ rfl
  | hole level head hs operand s h =>
    intro operands xs _
    rw [refill_hole h, assemble_hole h, assemble_hole h]
  | mark level head hs operand s h ih =>
    intro operands xs hlength
    rw [holes_mark h] at hlength
    have hpart : A.assembleAll (levelIn head level) [refill (levelIn head level) operand operands] xs =
        A.assembleAll (levelIn head level) [operand] xs := by
      simp only [assembleAll, part, isSplice_refill, length_holes_refill hlength, ih operands _ hlength]
    rw [refill_mark h, assemble_mark h, assemble_mark h, hpart]
  | sequence level d ns s h ih =>
    intro operands xs hlength
    rw [holes_sequence h] at hlength
    rw [refill_sequence h, assemble_sequence h, assemble_sequence fun hmark ↦ h (isMark_of_refillAll hmark),
      assembleAll_refillAll ih hlength]

/-- Both assemblies make the same of the same, where `R` and `Q` tell what results and parts are taken to be the same. -/
structure Alike (A : Assembly β γ) (B : Assembly β' γ') (R : β → β' → Prop) (Q : γ → γ' → Prop) : Prop where
  symbol : ∀ name s, R (A.symbol name s) (B.symbol name s)
  literal : ∀ value s, R (A.literal value s) (B.literal value s)
  sequence : ∀ d s ps qs, List.Forall₂ Q ps qs → R (A.sequence d ps s) (B.sequence d qs s)
  item : ∀ x y, R x y → Q (A.item x) (B.item y)

def Fits (A : Assembly β γ) (B : Assembly β' γ') (R : β → β' → Prop) (Q : γ → γ' → Prop) (p : β × β') (h : Hole) : Prop :=
  if h.spliced then Q (A.splice p.1) (B.splice p.2) else R p.1 p.2

section Alike

variable {R : β → β' → Prop} {Q : γ → γ' → Prop} {ps : List (β × β')} (hAB : Alike A B R Q)

include hAB

theorem Alike.part (h : ∀ ps : List (β × β'), ¬(level = 1 ∧ IsSplice n) → List.Forall₂ (Fits A B R Q) ps (holes level n) →
      R (A.assemble level n (ps.map Prod.fst)) (B.assemble level n (ps.map Prod.snd)))
    (hps : List.Forall₂ (Fits A B R Q) ps (holes level n)) :
    Q (A.part level n (A.assemble level n (ps.map Prod.fst))) (B.part level n (B.assemble level n (ps.map Prod.snd))) := by
  unfold Assembly.part
  split
  · next hsplice =>
    obtain ⟨rfl, hs, operand, s, rfl⟩ := hsplice
    have hhole : IsHole "unquote-splice" 1 := ⟨.inr rfl, rfl⟩
    rw [holes_hole hhole] at hps
    obtain ⟨p, rfl⟩ := List.length_eq_one_iff.mp hps.length_eq
    rw [assemble_hole hhole, assemble_hole hhole]
    exact (List.forall₂_cons.mp hps).1
  · next hsplice => exact hAB.item _ _ (h ps hsplice hps)

theorem Alike.assembleAll (h : ∀ n ∈ ns, ∀ ps : List (β × β'), ¬(level = 1 ∧ IsSplice n) →
      List.Forall₂ (Fits A B R Q) ps (holes level n) → R (A.assemble level n (ps.map Prod.fst)) (B.assemble level n (ps.map Prod.snd)))
    (hps : List.Forall₂ (Fits A B R Q) ps (holesAll level ns)) :
    List.Forall₂ Q (A.assembleAll level ns (ps.map Prod.fst)) (B.assembleAll level ns (ps.map Prod.snd)) := by
  induction ns generalizing ps with
  | nil => exact .nil
  | cons n ns ih =>
    obtain ⟨hn, hns⟩ := List.forall_mem_cons.mp h
    rw [holesAll] at hps
    simp only [Assembly.assembleAll, ← List.map_take, ← List.map_drop]
    exact .cons (hAB.part hn (List.forall₂_take_append _ _ _ hps)) (ih hns (List.forall₂_drop_append _ _ _ hps))

theorem Alike.assemble (level : Nat) (n : Node) : ∀ ps : List (β × β'), ¬(level = 1 ∧ IsSplice n) →
    List.Forall₂ (Fits A B R Q) ps (holes level n) →
    R (A.assemble level n (ps.map Prod.fst)) (B.assemble level n (ps.map Prod.snd)) := by
  induction level, n using Template.induct with
  | symbol level name s => exact fun _ _ _ ↦ hAB.symbol name s
  | literal level value s => exact fun _ _ _ ↦ hAB.literal value s
  | hole level head hs operand s h =>
    intro ps hplain hps
    rw [holes_hole h] at hps
    obtain ⟨p, rfl⟩ := List.length_eq_one_iff.mp hps.length_eq
    have hhead : head ≠ "unquote-splice" := fun hhead ↦ hplain ⟨h.2, isSplice_form.mpr hhead⟩
    have hp := (List.forall₂_cons.mp hps).1
    simp only [Fits, hhead, decide_false, Bool.false_eq_true, if_false] at hp
    rw [assemble_hole h, assemble_hole h]
    exact hp
  | mark level head hs operand s h ih =>
    intro ps _ hps
    rw [holes_mark h] at hps
    have hoperand : holesAll (levelIn head level) [operand] = holes (levelIn head level) operand := List.append_nil _
    rw [assemble_mark h, assemble_mark h]
    refine hAB.sequence _ _ _ _ (.cons (hAB.item _ _ (hAB.symbol head hs)) (hAB.assembleAll ?_ (hoperand ▸ hps)))
    exact List.forall_mem_singleton.mpr ih
  | sequence level d ns s h ih =>
    intro ps _ hps
    rw [holes_sequence h] at hps
    rw [assemble_sequence h, assemble_sequence h]
    exact hAB.sequence _ _ _ _ (hAB.assembleAll ih hps)

end Alike

end Assembly

end Template

namespace Lowering

open Host (Expr)
open Template (Hole holes holesAll refill IsHole levelIn Assembly)

def expressions : Assembly Expr Piece where
  symbol name _ := model "Symbol" (.string name)
  literal value _ := quotedLiteral value
  sequence d pieces _ := quotedSequence d pieces
  item := .item
  splice := .splice

def trees : Assembly Node (List Node) where
  symbol := .symbol
  literal := .literal
  sequence d parts s := .sequence d parts.flatten s
  item n := [n]
  splice n := n.items?.getD []

variable {lower : Node → LowerM (Option Expr)} {level : Nat} {n operand : Node} {ns : List Node} {head : String} {s hs : Span}

theorem quote_of_not_hole (h : ¬IsHole head level) :
    quote lower (some level) (.form [.symbol head hs, operand] s) = (do
      return quotedSequence .paren (.item (model "Symbol" (.string head)) ::
        (← quoteItems lower (some (levelIn head level)) [operand]))) := by
  simp only [IsHole, not_and] at h
  simp only [Node.form, quote, levelIn]
  rw [if_neg fun hunquote ↦ h (.inl hunquote.1) hunquote.2, if_neg fun hsplice ↦ h (.inr hsplice.1) hsplice.2]

theorem quoteItems_eq (h : ∀ n ∈ ns, ¬(level = 1 ∧ IsSplice n) → quote lower (some level) n =
      expressions.assemble level n <$> ((holes level n).map Hole.operand).mapM (value lower)) :
    quoteItems lower (some level) ns =
      expressions.assembleAll level ns <$> ((holesAll level ns).map Hole.operand).mapM (value lower) := by
  induction ns with
  | nil =>
    rw [quoteItems, holesAll, List.map_nil, List.mapM_nil, map_pure]
    rfl
  | cons n ns ih =>
    obtain ⟨hn, hns⟩ := List.forall_mem_cons.mp h
    have hcons : quoteItems lower (some level) (n :: ns) = (do
        let e ← expressions.assemble level n <$> ((holes level n).map Hole.operand).mapM (value lower)
        return expressions.part level n e :: (← quoteItems lower (some level) ns)) := by
      by_cases hsplice : level = 1 ∧ IsSplice n
      · obtain ⟨rfl, hs, operand, s, rfl⟩ := hsplice
        have hhole : IsHole "unquote-splice" 1 := ⟨.inr rfl, rfl⟩
        have hpart : ∀ e, expressions.part 1 (.form [.symbol "unquote-splice" hs, operand] s) e = .splice e :=
          fun e ↦ if_pos ⟨rfl, hs, operand, s, rfl⟩
        rw [quoteItems_splice, Template.holes_hole hhole]
        simp only [List.map_cons, List.map_nil, List.mapM_cons, List.mapM_nil, map_eq_pure_bind, bind_assoc, pure_bind,
          Assembly.assemble_hole hhole, List.headD_cons, hpart]
      · have hpart : ∀ e, expressions.part level n e = .item e := fun e ↦ if_neg hsplice
        rw [quoteItems_item fun h ↦ hsplice ⟨by simpa using h.1, h.2⟩, hn hsplice]
        simp only [hpart]
    rw [hcons, ih hns, holesAll, List.map_append, List.mapM_append]
    simp only [map_eq_pure_bind, bind_assoc, pure_bind]
    refine mapM_bind_congr fun es hes ↦ ?_
    rw [List.length_map] at hes
    simp only [Assembly.assembleAll, List.take_left' hes, List.drop_left' hes]

theorem quote_eq (lower : Node → LowerM (Option Expr)) (level : Nat) (n : Node) : ¬(level = 1 ∧ IsSplice n) →
    quote lower (some level) n =
      expressions.assemble level n <$> ((holes level n).map Hole.operand).mapM (value lower) := by
  induction level, n using Template.induct with
  | symbol level name s | literal level value s =>
    intro _
    unfold quote
    rfl
  | hole level head hs operand s h =>
    intro hplain
    have hhead : head = "unquote" := h.1.resolve_right fun hhead ↦ hplain ⟨h.2, Assembly.isSplice_form.mpr hhead⟩
    obtain ⟨-, rfl⟩ := h
    subst hhead
    have hhole : IsHole "unquote" 1 := ⟨.inl rfl, rfl⟩
    rw [Template.holes_hole hhole]
    simp only [List.map_cons, List.map_nil, List.mapM_cons, List.mapM_nil, map_eq_pure_bind, bind_assoc, pure_bind,
      Assembly.assemble_hole hhole, List.headD_cons, bind_pure]
    simp only [Node.form, quote, true_and, if_true]
  | mark level head hs operand s h ih =>
    intro _
    have hoperand : holesAll (levelIn head level) [operand] = holes (levelIn head level) operand := List.append_nil _
    rw [quote_of_not_hole h, quoteItems_eq (List.forall_mem_singleton.mpr ih), Template.holes_mark h, hoperand]
    simp only [map_eq_pure_bind, bind_assoc, pure_bind, Assembly.assemble_mark h]
    rfl
  | sequence level d ns s h ih =>
    intro _
    rw [quote_of_not_mark (.inr h), quoteItems_eq ih, Template.holes_sequence h]
    simp only [map_eq_pure_bind, bind_assoc, pure_bind, Assembly.assemble_sequence h]
    rfl

theorem alike_expressions_trees (env : String → Option Node) :
    Assembly.Alike expressions trees (fun e n ↦ ∃ n', Builds env e n' ∧ n'.bare = n.bare)
      (fun piece ns ↦ ∃ ns', piece.Adds env ns' ∧ ns'.map Node.bare = ns.map Node.bare) where
  symbol name s := ⟨_, builds_symbol name, rfl⟩
  literal value s := ⟨_, builds_quotedLiteral value, rfl⟩
  sequence d s pieces parts h := by
    obtain ⟨nss, hadds, hflat⟩ : ∃ nss, List.Forall₂ (Piece.Adds env) pieces nss ∧
        nss.flatten.map Node.bare = parts.flatten.map Node.bare := by
      induction h with
      | nil => exact ⟨[], .nil, rfl⟩
      | cons h _ ih =>
        obtain ⟨ns, hadd, hns⟩ := h
        obtain ⟨nss, hadds, hflat⟩ := ih
        exact ⟨ns :: nss, .cons hadd hadds, by simp [hns, hflat]⟩
    exact ⟨_, builds_quotedSequence hadds, by simp [trees, Node.bare, hflat]⟩
  item e n h := by
    obtain ⟨n', hb, he⟩ := h
    exact ⟨[n'], .item hb, by simp [trees, he]⟩

def IsFilling (env : String → Option Node) (p : Expr × Node) (h : Hole) : Prop :=
  Builds env p.1 p.2 ∧ (h.spliced = true → p.2.items?.isSome = true)

theorem IsFilling.fits {env : String → Option Node} {p : Expr × Node} {h : Hole} (hp : IsFilling env p h) :
    Assembly.Fits expressions trees (fun e n ↦ ∃ n', Builds env e n' ∧ n'.bare = n.bare)
      (fun piece ns ↦ ∃ ns', piece.Adds env ns' ∧ ns'.map Node.bare = ns.map Node.bare) p h := by
  obtain ⟨hb, hitems⟩ := hp
  unfold Assembly.Fits
  split
  · next hspliced =>
    obtain ⟨ns, hns⟩ := Option.isSome_iff_exists.mp (hitems hspliced)
    exact ⟨ns, .splice hb hns, by simp [trees, hns]⟩
  · exact ⟨_, hb, rfl⟩

/-- Expansion and lowering take the same parts of a template for code, and the rest for data. -/
structure TreatedAlike (t : Node) : Prop where
  /-- Expansion hands over the operands of the holes, from left to right, and puts what it gets in their place. -/
  expanded : ∀ expand hs s, Expansion.template expand 0 (.form [.symbol "quasiquote" hs, t] s) =
    (fun ms ↦ Node.form [.symbol "quasiquote" hs, refill 1 t ms] s) <$> ((holes 1 t).map Hole.operand).mapM expand
  /-- Lowering hands over the same operands in the same order. -/
  lowered : ∀ lower hs s, Lowering.expanded lower (.form [.symbol "quasiquote" hs, t] s) =
    (fun es ↦ some (expressions.assemble 1 t es)) <$> ((holes 1 t).map Hole.operand).mapM (value lower)
  /-- What expansion put into the holes is then lowered, with the same around it. -/
  composed : ∀ ms, ms.length = (holes 1 t).length → ∀ lower hs s,
    Lowering.expanded lower (.form [.symbol "quasiquote" hs, refill 1 t ms] s) =
      (fun es ↦ some (expressions.assemble 1 t es)) <$> ms.mapM (value lower)
  /-- The rest is left by expansion as it is. -/
  kept : ∀ ms, ms.length = (holes 1 t).length → ∀ ns, trees.assemble 1 (refill 1 t ms) ns = trees.assemble 1 t ns
  /-- The rest is built by the expression as it is. -/
  built : ∀ env ps, List.Forall₂ (IsFilling env) ps (holes 1 t) →
    ∃ n, Builds env (expressions.assemble 1 t (ps.map Prod.fst)) n ∧ n.bare = (trees.assemble 1 t (ps.map Prod.snd)).bare

theorem expanded_quasiquote {t : Node} (h : ¬IsSplice t) (lower : Node → LowerM (Option Expr)) (hs s : Span) :
    expanded lower (.form [.symbol "quasiquote" hs, t] s) =
      (fun es ↦ some (expressions.assemble 1 t es)) <$> ((holes 1 t).map Hole.operand).mapM (value lower) := by
  change some <$> quote lower (some 1) t = _
  rw [quote_eq lower 1 t fun hsplice ↦ h hsplice.2, Functor.map_map]

/-- At every depth of nesting, and also where the number of operands is not the usual one. -/
theorem treatedAlike {t : Node} (h : ¬IsSplice t) : TreatedAlike t where
  expanded expand hs s := by
    have hmark : ¬IsHole "quasiquote" 0 := fun hhole ↦ nomatch hhole.2
    rw [Expansion.template_mark hmark, Expansion.template_eq, Functor.map_map]
    rfl
  lowered := expanded_quasiquote h
  composed ms hlength lower hs s := by
    rw [expanded_quasiquote (fun hsplice ↦ h (Assembly.isSplice_refill.mp hsplice)), Template.holes_refill 1 t ms hlength]
    simp only [Assembly.assemble_refill 1 t ms _ hlength]
  kept ms hlength ns := Assembly.assemble_refill 1 t ms ns hlength
  built env ps hps :=
    (alike_expressions_trees env).assemble 1 t ps (fun hsplice ↦ h hsplice.2) (hps.imp fun _ _ ↦ IsFilling.fits)

/-- Holes at several depths, a splice after the depth drops back, and forms with no operand or too many. -/
def nestedTemplate : Node :=
  let symbol (name : String) : Node := .symbol name .nowhere
  let hole (head : String) (operand : Node) : Node := .form [symbol head, operand] .nowhere
  .form [symbol "a", hole "unquote" (symbol "x"),
    hole "quasiquote" (.form [symbol "b", hole "unquote" (.form [symbol "c", hole "unquote" (symbol "y")] .nowhere),
      hole "unquote" (hole "unquote-splice" (symbol "ys")), hole "unquote" (symbol "data")] .nowhere),
    .sequence .bracket [.literal (.int 1) .nowhere, hole "unquote-splice" (.form [symbol "f", symbol "z"] .nowhere)] .nowhere,
    .form [symbol "unquote"] .nowhere, .form [symbol "unquote-splice", symbol "p", hole "unquote" (symbol "q")] .nowhere]
    .nowhere

theorem treatedAlike_nestedTemplate :
    ¬IsSplice nestedTemplate ∧
    (holes 1 nestedTemplate).map Hole.operand = [.symbol "x" .nowhere, .symbol "y" .nowhere, .symbol "ys" .nowhere,
      .form [.symbol "f" .nowhere, .symbol "z" .nowhere] .nowhere, .symbol "q" .nowhere] ∧
    TreatedAlike nestedTemplate := by
  have hplain : ¬IsSplice nestedTemplate := by decide
  exact ⟨hplain, rfl, treatedAlike hplain⟩

end Lowering

end MacroLisp
