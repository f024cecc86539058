import MacroLisp.Proofs.Node.Bare

namespace MacroLisp.Template

/-- What stands in a hole, and whether the items of its value take the place of the hole. -/
structure Hole where
  operand : Node
  spliced : Bool

mutual

/-- The holes of a template that belong to its first level, seen from inside `level` quasiquotes. -/
def holes : Nat → Node → List Hole
  | level, .sequence d items _ =>
    match d, items with
    | .paren, [.symbol head _, operand] =>
      if head = "unquote" ∨ head = "unquote-splice" then
        if level = 1 then [⟨operand, head = "unquote-splice"⟩] else holes (level - 1) operand
      else if head = "quasiquote" then holes (level + 1) operand
      else holes level operand
    | _, items => holesAll level items
  | _, _ => []

def holesAll : Nat → List Node → List Hole
  | _, [] => []
  | level, n :: ns => holes level n ++ holesAll level ns

end

mutual

def refill : Nat → Node → List Node → Node
  | level, .sequence d items s, operands =>
    match d, items with
    | .paren, [.symbol head hs, operand] =>
      if head = "unquote" ∨ head = "unquote-splice" then
        if level = 1 then .form [.symbol head hs, operands.headD operand] s
        else .form [.symbol head hs, refill (level - 1) operand operands] s
      else if head = "quasiquote" then .form [.symbol head hs, refill (level + 1) operand operands] s
      else .form [.symbol head hs, refill level operand operands] s
    | d, items => .sequence d (refillAll level items operands) s
  | _, n, _ => n

def refillAll : Nat → List Node → List Node → List Node
  | _, [], _ => []
  | level, n :: ns, operands =>
    refill level n (operands.take (holes level n).length) :: refillAll level ns (operands.drop (holes level n).length)

end

variable {level : Nat} {n operand : Node} {ns operands : List Node} {d : Delimiter} {head : String} {s hs : Span}

def IsHole (head : String) (level : Nat) : Prop := (head = "unquote" ∨ head = "unquote-splice") ∧ level = 1

def levelIn (head : String) (level : Nat) : Nat :=
  if head = "unquote" ∨ head = "unquote-splice" then level - 1
  else if head = "quasiquote" then level + 1
  else level

def IsMark (d : Delimiter) (ns : List Node) : Prop := ∃ head hs operand, d = .paren ∧ ns = [.symbol head hs, operand]

theorem induct {P : Nat → Node → Prop} (symbol : ∀ level name s, P level (.symbol name s))
    (literal : ∀ level value s, P level (.literal value s))
    (hole : ∀ level head hs operand s, IsHole head level → P level (.form [.symbol head hs, operand] s))
    (mark : ∀ level head hs operand s, ¬IsHole head level → P (levelIn head level) operand →
      P level (.form [.symbol head hs, operand] s))
    (sequence : ∀ level d ns s, ¬IsMark d ns → (∀ n ∈ ns, P level n) → P level (.sequence d ns s)) (level : Nat)
    (n : Node) : P level n := by
  induction n using Node.induct generalizing level with
  | symbol name s => exact symbol level name s
  | literal value s => exact literal level value s
  | sequence d ns s ih =>
    by_cases hmark : IsMark d ns
    · obtain ⟨head, hs, operand, rfl, rfl⟩ := hmark
      by_cases hhole : IsHole head level
      · exact hole level head hs operand s hhole
      · exact mark level head hs operand s hhole (ih operand (by simp) _)
    · exact sequence level d ns s hmark fun n hn ↦ ih n hn level

theorem holes_hole (h : IsHole head level) :
    holes level (.form [.symbol head hs, operand] s) = [⟨operand, head = "unquote-splice"⟩] := by
  simp only [Node.form, holes, if_pos h.1, if_pos h.2]

theorem holes_mark (h : ¬IsHole head level) :
    holes level (.form [.symbol head hs, operand] s) = holes (levelIn head level) operand := by
  simp only [Node.form, holes, levelIn]
  split
  · next hhead => rw [if_neg fun hlevel ↦ h ⟨hhead, hlevel⟩]
  · split <;> rfl

theorem holes_sequence (h : ¬IsMark d ns) : holes level (.sequence d ns s) = holesAll level ns := by
  rw [holes]
  exact fun head hs operand hd hns ↦ h ⟨head, hs, operand, hd, hns⟩

theorem refill_hole (h : IsHole head level) :
    refill level (.form [.symbol head hs, operand] s) operands = .form [.symbol head hs, operands.headD operand] s := by
  simp only [Node.form, refill, if_pos h.1, if_pos h.2]

theorem refill_mark (h : ¬IsHole head level) : refill level (.form [.symbol head hs, operand] s) operands =
    .form [.symbol head hs, refill (levelIn head level) operand operands] s := by
  simp only [Node.form, refill, levelIn]
  split
  · next hhead => rw [if_neg fun hlevel ↦ h ⟨hhead, hlevel⟩]
  · split <;> rfl

theorem refill_sequence (h : ¬IsMark d ns) :
    refill level (.sequence d ns s) operands = .sequence d (refillAll level ns operands) s := by
  rw [refill]
  exact fun head hs operand hd hns ↦ h ⟨head, hs, operand, hd, hns⟩

theorem exists_refill_sequence (level : Nat) (d : Delimiter) (ns : List Node) (s : Span) (operands : List Node) :
    ∃ ms, refill level (.sequence d ns s) operands = .sequence d ms s := by
  by_cases hmark : IsMark d ns
  · obtain ⟨head, hs, operand, rfl, rfl⟩ := hmark
    by_cases hhole : IsHole head level
    · exact ⟨_, refill_hole hhole⟩
    · exact ⟨_, refill_mark hhole⟩
  · exact ⟨_, refill_sequence hmark⟩

theorem refill_eq_symbol {name : String} (h : refill level n operands = .symbol name s) : n = .symbol name s := by
  cases n with
  | symbol name' s' => exact h
  | literal value s' => exact h
  | sequence d ns s' =>
    obtain ⟨ms, hms⟩ := exists_refill_sequence level d ns s' operands
    rw [hms] at h
    cases h

@[simp] theorem head?_refill (level : Nat) (n : Node) (operands : List Node) :
    (refill level n operands).head? = n.head? := by
  cases n with
  | symbol name s => rfl
  | literal value s => rfl
  | sequence d ns s =>
    by_cases hmark : IsMark d ns
    · obtain ⟨head, hs, operand, rfl, rfl⟩ := hmark
      by_cases hhole : IsHole head level
      · exact (congrArg Node.head? (refill_hole hhole)).trans rfl
      · exact (congrArg Node.head? (refill_mark hhole)).trans rfl
    · rw [refill_sequence hmark]
      match ns with
      | [] => rfl
      | .symbol name s' :: ns => cases d <;> rfl
      | .literal value s' :: ns => cases d <;> rfl
      | .sequence d' ns' s' :: ns =>
        obtain ⟨ms, hms⟩ := exists_refill_sequence level d' ns' s'
          (operands.take (holes level (.sequence d' ns' s')).length)
        rw [refillAll, hms]
        cases d <;> rfl

theorem isMark_of_refillAll (h : IsMark d (refillAll level ns operands)) : IsMark d ns := by
  obtain ⟨head, hs, operand, rfl, h⟩ := h
  match ns with
  | [] => simp [refillAll] at h
  | [n] => simp [refillAll] at h
  | [n, m] =>
    simp only [refillAll, List.cons.injEq] at h
    exact ⟨head, hs, m, rfl, by rw [refill_eq_symbol h.1]⟩
  | n :: m :: k :: ns => simp [refillAll] at h

theorem mem_holesAll {h : Hole} :
    h ∈ holesAll level ns ↔ ∃ n ∈ ns, h ∈ holes level n := by
  induction ns with
  | nil => simp [holesAll]
  | cons n ns ih => simp [holesAll, ih]

theorem sizeOf_lt_of_mem_holes {h : Hole} (hh : h ∈ holes level n) :
    sizeOf h.operand < sizeOf n := by
  induction level, n using Template.induct with
  | symbol level name s | literal level value s => cases hh
  | hole level head hs operand s hhole =>
    rw [holes_hole hhole] at hh
    obtain rfl := List.mem_singleton.mp hh
    simp only [Node.form, Node.sequence.sizeOf_spec, List.cons.sizeOf_spec]
    omega
  | mark level head hs operand s hmark ih =>
    rw [holes_mark hmark] at hh
    have := ih hh
    simp only [Node.form, Node.sequence.sizeOf_spec, List.cons.sizeOf_spec]
    omega
  | sequence level d ns s hmark ih =>
    rw [holes_sequence hmark] at hh
    obtain ⟨n, hn, hh⟩ := mem_holesAll.mp hh
    have := ih n hn hh
    have := List.sizeOf_lt_of_mem hn
    simp only [Node.sequence.sizeOf_spec]
    omega

theorem refillAll_holesAll (h : ∀ n ∈ ns, refill level n ((holes level n).map Hole.operand) = n) :
    refillAll level ns ((holesAll level ns).map Hole.operand) = ns := by
  induction ns with
  | nil => rfl
  | cons n ns ih =>
    obtain ⟨hn, hns⟩ := List.forall_mem_cons.mp h
    rw [holesAll, refillAll, List.map_append, List.take_left' (by simp), List.drop_left' (by simp), hn, ih hns]

theorem refill_holes (level : Nat) (n : Node) : refill level n ((holes level n).map Hole.operand) = n := by
  induction level, n using induct with
  | symbol level name s => rfl
  | literal level value s => rfl
  | hole level head hs operand s h => rw [holes_hole h, refill_hole h]; rfl
  | mark level head hs operand s h ih => rw [holes_mark h, refill_mark h, ih]
  | sequence level d ns s h ih => rw [holes_sequence h, refill_sequence h, refillAll_holesAll ih]

theorem holesAll_refillAll (h : ∀ n ∈ ns, ∀ operands : List Node, operands.length = (holes level n).length →
      (holes level (refill level n operands)).map Hole.operand = operands)
    (hlength : operands.length = (holesAll level ns).length) :
    (holesAll level (refillAll level ns operands)).map Hole.operand = operands := by
  induction ns generalizing operands with
  | nil =>
    rw [holesAll, List.length_nil, List.length_eq_zero_iff] at hlength
    rw [hlength]
    rfl
  | cons n ns ih =>
    obtain ⟨hn, hns⟩ := List.forall_mem_cons.mp h
    rw [holesAll, List.length_append] at hlength
    rw [refillAll, holesAll, List.map_append, hn _ (by rw [List.length_take]; omega),
      ih hns (by rw [List.length_drop]; omega), List.take_append_drop]

theorem holes_refill (level : Nat) (n : Node) : ∀ operands : List Node, operands.length = (holes level n).length →
    (holes level (refill level n operands)).map Hole.operand = operands := by
  induction level, n using induct with
  | symbol level name s | literal level value s =>
    intro operands hlength
    obtain rfl := List.length_eq_zero_iff.mp hlength
    rfl
  | hole level head hs operand s h =>
    intro operands hlength
    rw [holes_hole h] at hlength
    obtain ⟨m, rfl⟩ := List.length_eq_one_iff.mp hlength
    rw [refill_hole h, holes_hole h]
    rfl
  | mark level head hs operand s h ih =>
    intro operands hlength
    rw [holes_mark h] at hlength
    rw [refill_mark h, holes_mark h, ih operands hlength]
  | sequence level d ns s h ih =>
    intro operands hlength
    rw [holes_sequence h] at hlength
    rw [refill_sequence h, holes_sequence fun hmark ↦ h (isMark_of_refillAll hmark), holesAll_refillAll ih hlength]

end MacroLisp.Template
