import MacroLisp.Lowering.Model
import Mathlib.Data.List.Forall2

namespace MacroLisp.Lowering

open Host (Expr Constant)

inductive Built
  | tree (n : Node)
  | list (items : List Node)
  | constant (c : Constant)
  | library
  | models
  | constructor (kind : String)
  | listing

namespace Built

def tree? : Built → Option Node
  | tree n => some n
  | _ => none

def list? : Built → Option (List Node)
  | list ns => some ns
  | _ => none

def construct? : String → Built → Option Node
  | "Symbol", constant (.string name) => some (.symbol name .nowhere)
  | "Keyword", constant (.string name) => some (.literal (.keyword name) .nowhere)
  | "String", constant (.string value) => some (.literal (.string value) .nowhere)
  | "Integer", constant (.int value) => some (.literal (.int value) .nowhere)
  | "Float", constant (.float value) => some (.literal (.float value) .nowhere)
  | "Expression", list ns => some (.sequence .paren ns .nowhere)
  | "List", list ns => some (.sequence .bracket ns .nowhere)
  | "Dict", list ns => some (.sequence .brace ns .nowhere)
  | _, _ => none

def member? : Built → String → Option Built
  | library, "models" => some models
  | models, kind => some (constructor kind)
  | _, _ => none

/-- Calling `list` gives the items of a list or a sequence. -/
def call? : Built → Built → Option Built
  | constructor kind, v => (construct? kind v).map tree
  | listing, list ns => some (list ns)
  | listing, tree n => n.items?.map list
  | _, _ => none

end Built

section Evaluation

variable (env : String → Option Node)

mutual

def build? : Expr → Option Built
  | .constant c => some (.constant c)
  | .name id _ =>
    if id = "hy" then some .library
    else if id = "list" then some .listing
    else (env id).map .tree
  | .member value attr _ => do (← build? value).member? attr
  | .binary left .add right => do
    let ns ← (← build? left).list?
    let ms ← (← build? right).list?
    return .list (ns ++ ms)
  | .list items => (buildAll? items).map .list
  | .call func [arg] [] => do
    let f ← build? func
    f.call? (← build? arg)
  | _ => none

def buildAll? : List Expr → Option (List Node)
  | [] => some []
  | e :: es => do
    let n ← (← build? e).tree?
    let ns ← buildAll? es
    return n :: ns

end

end Evaluation

variable {env : String → Option Node} {e e' arg : Expr} {es : List Expr} {n : Node} {ns ms : List Node}

def Builds (env : String → Option Node) (e : Expr) (n : Node) : Prop := build? env e = some (.tree n)

/-- The expression builds a list of these nodes. -/
def BuildsList (env : String → Option Node) (e : Expr) (ns : List Node) : Prop := build? env e = some (.list ns)

theorem builds_model {kind : String} {v : Built} (ha : build? env arg = some v)
    (hc : Built.construct? kind v = some n) : Builds env (model kind arg) n := by
  simp [Builds, model, Expr.load, Expr.attr, build?, Built.member?, Built.call?, ha, hc]

theorem builds_load {id : String} (hy : id ≠ "hy") (hl : id ≠ "list") (h : env id = some n) :
    Builds env (.load id) n := by
  simp [Builds, Expr.load, build?, hy, hl, h]

theorem builds_quotedLiteral (l : Literal) : Builds env (quotedLiteral l) (.literal l .nowhere) := by
  cases l <;> exact builds_model rfl rfl

theorem builds_symbol (name : String) : Builds env (model "Symbol" (.string name)) (.symbol name .nowhere) :=
  builds_model rfl rfl

theorem buildsList_list (h : List.Forall₂ (Builds env) es ns) : BuildsList env (.list es) ns := by
  have hall : buildAll? env es = some ns := by
    induction h with
    | nil => rfl
    | cons he _ ih =>
      rw [Builds] at he
      simp [buildAll?, he, ih, Built.tree?]
  simp [BuildsList, build?, hall]

theorem BuildsList.add (h : BuildsList env e ns) (h' : BuildsList env e' ms) :
    BuildsList env (.binary e .add e') (ns ++ ms) := by
  rw [BuildsList] at h h'
  simp [BuildsList, build?, h, h', Built.list?]

theorem buildsList_sum {nss : List (List Node)} (he : BuildsList env e ns)
    (h : List.Forall₂ (BuildsList env) es nss) :
    BuildsList env (es.foldl (fun left right ↦ .binary left .add right) e) (ns ++ nss.flatten) := by
  induction h generalizing e ns with
  | nil => simpa using he
  | cons h _ ih => simpa using ih (he.add h)

theorem buildsList_concatenation {nss : List (List Node)} (h : List.Forall₂ (BuildsList env) es nss) :
    BuildsList env (concatenation es) nss.flatten := by
  cases h with
  | nil => exact buildsList_list .nil
  | cons he hes => exact buildsList_sum he hes

inductive Piece.Adds (env : String → Option Node) : Piece → List Node → Prop
  | item {e : Expr} {n : Node} (h : Builds env e n) : Adds env (.item e) [n]
  | splice {e : Expr} {n : Node} {ns : List Node} (h : Builds env e n) (hn : n.items? = some ns) : Adds env (.splice e) ns

theorem buildsList_call_list (h : Builds env e n) (hn : n.items? = some ns) :
    BuildsList env (.call (.load "list") [e] []) ns := by
  rw [Builds] at h
  simp [BuildsList, Expr.load, build?, Built.call?, h, hn]

theorem exists_run {run : List Expr} (hr : List.Forall₂ (Builds env) run ns) :
    ∃ mss, List.Forall₂ (BuildsList env) (if run.isEmpty then [] else [.list run]) mss ∧ mss.flatten = ns := by
  cases hr with
  | nil => exact ⟨[], .nil, rfl⟩
  | cons hu hus => exact ⟨[_], .cons (buildsList_list (.cons hu hus)) .nil, by simp⟩

theorem exists_chunks {run : List Expr} {pieces : List Piece} {nss : List (List Node)}
    (hr : List.Forall₂ (Builds env) run ns) (h : List.Forall₂ (Piece.Adds env) pieces nss) :
    ∃ mss, List.Forall₂ (BuildsList env) (chunks run pieces) mss ∧ mss.flatten = ns ++ nss.flatten := by
  induction h generalizing run ns with
  | nil => simpa [chunks] using exists_run hr
  | @cons _ items _ _ hp _ ih =>
    cases hp with
    | item he =>
      obtain ⟨mss, hm, hflat⟩ := ih (List.rel_append hr (.cons he .nil))
      exact ⟨mss, hm, by simpa using hflat⟩
    | splice he hn =>
      obtain ⟨lss, hl, hlflat⟩ := exists_run hr
      obtain ⟨mss, hm, hflat⟩ := ih .nil
      refine ⟨lss ++ items :: mss, List.rel_append hl (.cons (buildsList_call_list he hn) hm), ?_⟩
      simp [hlflat, hflat]

theorem builds_quotedSequence {d : Delimiter} {pieces : List Piece} {nss : List (List Node)}
    (h : List.Forall₂ (Piece.Adds env) pieces nss) :
    Builds env (quotedSequence d pieces) (.sequence d nss.flatten .nowhere) := by
  obtain ⟨mss, hm, hflat⟩ := exists_chunks .nil h
  have hlist := buildsList_concatenation hm
  rw [hflat, List.nil_append] at hlist
  cases d <;> exact builds_model hlist rfl

end MacroLisp.Lowering
