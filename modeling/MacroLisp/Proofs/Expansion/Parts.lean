import MacroLisp.Proofs.Expansion.Fuel
import MacroLisp.Proofs.Expansion.Holes
import Mathlib.Logic.Relation

namespace MacroLisp

open Relation (ReflTransGen)

namespace Node

variable {n m : Node} {ms : List Node}

/-- What is evaluated of a form apart from itself: no quoted data, of a template the operands of its holes, and the
items of any other sequence. -/
def parts (n : Node) : List Node :=
  if n.isCallTo "quote" then []
  else if n.isCallTo "quasiquote" then (Template.holes 0 n).map Template.Hole.operand
  else n.items?.getD []

def withItems (ms : List Node) : Node → Node
  | sequence d _ s => sequence d ms s
  | n => n

def rebuild (n : Node) (ms : List Node) : Node :=
  if n.isCallTo "quote" then n
  else if n.isCallTo "quasiquote" then Template.refill 0 n ms
  else n.withItems ms

/-- The second stands at an evaluated position of the first. -/
def Evaluated (n m : Node) : Prop := ReflTransGen (fun a b : Node ↦ b ∈ a.parts) n m

theorem rebuild_parts (n : Node) : n.rebuild n.parts = n := by
  unfold rebuild parts
  split
  · rfl
  split
  · exact Template.refill_holes 0 n
  · cases n <;> rfl

theorem parts_rebuild (hlength : ms.length = n.parts.length) (hhead : (n.rebuild ms).head? = n.head?) :
    (n.rebuild ms).parts = ms := by
  have hcall : ∀ name, (n.rebuild ms).isCallTo name = n.isCallTo name := fun name ↦ by rw [isCallTo, hhead, isCallTo]
  rw [parts] at hlength
  rw [parts, hcall, hcall]
  by_cases hquote : n.isCallTo "quote" = true
  · rw [if_pos hquote] at hlength ⊢
    exact (List.length_eq_zero_iff.mp hlength).symm
  rw [if_neg hquote] at hlength ⊢
  by_cases htemplate : n.isCallTo "quasiquote" = true
  · rw [if_pos htemplate] at hlength ⊢
    rw [rebuild, if_neg hquote, if_pos htemplate]
    exact Template.holes_refill 0 n ms (by simpa using hlength)
  · rw [if_neg htemplate] at hlength ⊢
    rw [rebuild, if_neg hquote, if_neg htemplate]
    cases n with
    | sequence d ns s => rfl
    | symbol name s => exact (List.length_eq_zero_iff.mp hlength).symm
    | literal value s => exact (List.length_eq_zero_iff.mp hlength).symm

theorem sizeOf_lt_of_mem_parts (h : m ∈ n.parts) : sizeOf m < sizeOf n := by
  unfold parts at h
  split at h
  · cases h
  split at h
  · obtain ⟨hole, hh, rfl⟩ := List.mem_map.mp h
    exact Template.sizeOf_lt_of_mem_holes hh
  · cases n with
    | sequence d ns s =>
      have hm : m ∈ ns := h
      have := List.sizeOf_lt_of_mem hm
      simp only [sequence.sizeOf_spec]
      omega
    | symbol name s => cases h
    | literal value s => cases h

end Node

namespace Expanded

def parts (e : Expanded) : List Node := if e.verbatim then [] else e.node.parts

def rebuild (e : Expanded) (ms : List Node) : Node := if e.verbatim then e.node else e.node.rebuild ms

end Expanded

section Monad

variable {M : Type → Type} [Monad M] [LawfulMonad M] {α β γ : Type}

theorem mapM_bind_congr {f : α → M β} {as : List α} {g g' : List β → M γ}
    (h : ∀ bs, bs.length = as.length → g bs = g' bs) : as.mapM f >>= g = as.mapM f >>= g' := by
  induction as generalizing g g' with
  | nil =>
    rw [List.mapM_nil, pure_bind, pure_bind]
    exact h [] rfl
  | cons a as ih =>
    simp only [List.mapM_cons, bind_assoc, pure_bind]
    refine bind_congr fun b ↦ ih fun bs hbs ↦ h (b :: bs) ?_
    rw [List.length_cons, List.length_cons, hbs]

theorem mapM_eq_pure {f : α → M α} {as : List α} (h : ∀ a ∈ as, f a = pure a) : as.mapM f = pure as := by
  induction as with
  | nil => rfl
  | cons a as ih =>
    obtain ⟨ha, has⟩ := List.forall_mem_cons.mp h
    rw [List.mapM_cons, ha, ih has, pure_bind, pure_bind]

end Monad

namespace Expansion

variable {x : Expansion} {expand : Node → ExpandM Node} {fuel : Nat} {n m : Node} {ns : List Node}

open Template (Hole holes holesAll refill refillAll IsHole IsMark levelIn)

theorem template_hole {level : Nat} {head : String} {hs s : Span} {operand : Node} (h : IsHole head level) :
    template expand level (.form [.symbol head hs, operand] s) =
      (fun m ↦ Node.form [.symbol head hs, m] s) <$> expand operand := by
  simp only [Node.form, template, if_pos h.1, if_pos h.2, map_eq_pure_bind]

theorem template_mark {level : Nat} {head : String} {hs s : Span} {operand : Node} (h : ¬IsHole head level) :
    template expand level (.form [.symbol head hs, operand] s) =
      (fun m ↦ Node.form [.symbol head hs, m] s) <$> template expand (levelIn head level) operand := by
  simp only [Node.form, template, levelIn, map_eq_pure_bind]
  split
  · next hhead => rw [if_neg fun hlevel ↦ h ⟨hhead, hlevel⟩]
  · split <;> rfl

theorem template_sequence {level : Nat} {d : Delimiter} {s : Span} (h : ¬IsMark d ns) :
    template expand level (.sequence d ns s) = (fun ms ↦ Node.sequence d ms s) <$> templateItems expand level ns := by
  rw [template, map_eq_pure_bind]
  exact fun head hs operand hd hns ↦ h ⟨head, hs, operand, hd, hns⟩

theorem templateItems_eq {level : Nat}
    (h : ∀ n ∈ ns, template expand level n = refill level n <$> ((holes level n).map Hole.operand).mapM expand) :
    templateItems expand level ns = refillAll level ns <$> ((holesAll level ns).map Hole.operand).mapM expand := by
  induction ns with
  | nil =>
    rw [templateItems, holesAll, List.map_nil, List.mapM_nil, map_pure]
    rfl
  | cons n ns ih =>
    obtain ⟨hn, hns⟩ := List.forall_mem_cons.mp h
    rw [templateItems, holesAll, List.map_append, List.mapM_append, hn, ih hns]
    simp only [map_eq_pure_bind, bind_assoc, pure_bind]
    refine mapM_bind_congr fun ms hms ↦ ?_
    rw [List.length_map] at hms
    simp only [refillAll, List.take_left' hms, List.drop_left' hms]

theorem template_eq (expand : Node → ExpandM Node) (level : Nat) (n : Node) :
    template expand level n = refill level n <$> ((holes level n).map Hole.operand).mapM expand := by
  induction level, n using Template.induct with
  | symbol level name s | literal level value s =>
    unfold template
    rfl
  | hole level head hs operand s h =>
    rw [template_hole h, Template.holes_hole h]
    simp only [List.map_cons, List.map_nil, List.mapM_cons, List.mapM_nil, pure_bind, map_eq_pure_bind, bind_assoc]
    exact congrArg _ (funext fun m ↦ by rw [Template.refill_hole h, List.headD_cons])
  | mark level head hs operand s h ih =>
    rw [template_mark h, ih, Template.holes_mark h, Functor.map_map]
    exact congrArg (· <$> _) (funext fun ms ↦ (Template.refill_mark h).symm)
  | sequence level d ns s h ih =>
    rw [template_sequence h, templateItems_eq ih, Template.holes_sequence h, Functor.map_map]
    exact congrArg (· <$> _) (funext fun ms ↦ (Template.refill_sequence h).symm)

theorem map_rebuild_parts (expand : Node → ExpandM Node) (n : Node) :
    n.rebuild <$> n.parts.mapM expand =
      if n.isCallTo "quote" then return n
      else if n.isCallTo "quasiquote" then template expand 0 n
      else match n with
        | .sequence d items span => do return .sequence d (← items.mapM expand) span
        | n => return n := by
  by_cases hquote : n.isCallTo "quote" = true
  · have hrebuild : n.rebuild = fun _ ↦ n := funext fun ms ↦ if_pos hquote
    have hparts : n.parts = [] := if_pos hquote
    rw [if_pos hquote, hrebuild, hparts]
    rfl
  rw [if_neg hquote]
  by_cases htemplate : n.isCallTo "quasiquote" = true
  · have hrebuild : n.rebuild = refill 0 n := funext fun ms ↦ by rw [Node.rebuild, if_neg hquote, if_pos htemplate]
    have hparts : n.parts = (holes 0 n).map Hole.operand := by rw [Node.parts, if_neg hquote, if_pos htemplate]
    rw [if_pos htemplate, hrebuild, hparts, template_eq]
  · have hrebuild : n.rebuild = (n.withItems ·) := funext fun ms ↦ by rw [Node.rebuild, if_neg hquote, if_neg htemplate]
    have hparts : n.parts = n.items?.getD [] := by rw [Node.parts, if_neg hquote, if_neg htemplate]
    rw [if_neg htemplate, hrebuild, hparts]
    cases n with
    | sequence d ns s => exact map_eq_pure_bind ..
    | symbol name s => rfl
    | literal value s => rfl

theorem all_succ (fuel : Nat) (n : Node) :
    x.all (fuel + 1) n = x.head fuel .value 0 n >>= fun e ↦ e.rebuild <$> e.parts.mapM (x.all fuel) := by
  rw [all]
  refine bind_congr fun e ↦ ?_
  obtain ⟨n, verbatim⟩ := e
  cases verbatim with
  | true => rfl
  | false => exact (map_rebuild_parts (x.all fuel) n).symm

theorem all_extends_succ (fuel : Nat) (n : Node) : Process.Extends (x.all fuel n) (x.all (fuel + 1) n) := by
  induction fuel generalizing n with
  | zero => exact .unfinished _
  | succ fuel ih =>
    rw [all_succ, all_succ]
    exact (head_extends_succ fuel .value 0 n).bind fun e ↦ (Process.Extends.mapM e.parts ih).map e.rebuild

theorem all_steady (n : Node) : Process.Steady (x.all · n) := .of_succ fun fuel ↦ all_extends_succ fuel n

theorem all_of_settled (h : ∀ m, n.Evaluated m → x.callee? m = none) (hfuel : sizeOf n ≤ fuel) :
    x.all (fuel + 2) n = pure n := by
  induction fuel generalizing n with
  | zero => cases n <;> simp at hfuel
  | succ fuel ih =>
    have hparts : ∀ m ∈ n.parts, x.all (fuel + 2) m = pure m := by
      intro m hm
      have hlt := Node.sizeOf_lt_of_mem_parts hm
      exact ih (fun k hk ↦ h k (.head hm hk)) (by omega)
    rw [all_succ, head_of_callee_none (h n .refl), pure_bind]
    change n.rebuild <$> n.parts.mapM _ = _
    rw [mapM_eq_pure hparts, map_pure, n.rebuild_parts]

end Expansion

end MacroLisp
