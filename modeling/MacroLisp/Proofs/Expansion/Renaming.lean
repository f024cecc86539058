import MacroLisp.Proofs.Expansion.Answers
import MacroLisp.Proofs.Name.Fresh
import MacroLisp.Proofs.Node.Bare
import MacroLisp.Proofs.Node.Subnodes
import Mathlib.Data.List.Forall2
import Mathlib.Data.List.Nodup

namespace MacroLisp.Core

variable {ω α : Type} {σ : String → Node → Prop} {renames : List (String × Node)} {listed : List String}
  {name : String} {n : Node} {ns : List Node} {d : Delimiter} {s : Span}

/-- The second tree is the first with other nodes for the symbols that have one. Calls of `quote` stay as they are, and so
does all that is no symbol: literals, delimiters and places. -/
inductive Renames (σ : String → Node → Prop) : Node → Node → Prop
  | listed {name : String} {n : Node} (s : Span) : σ name n → Renames σ (.symbol name s) n
  | unlisted {name : String} (s : Span) : (∀ n, ¬σ name n) → Renames σ (.symbol name s) (.symbol name s)
  | literal (l : Literal) (s : Span) : Renames σ (.literal l s) (.literal l s)
  | quoted {n : Node} : n.isCallTo "quote" = true → Renames σ n n
  | sequence {ns ms : List Node} (d : Delimiter) (s : Span) : (Node.sequence d ns s).isCallTo "quote" = false →
      List.Forall₂ (Renames σ) ns ms → Renames σ (.sequence d ns s) (.sequence d ms s)

def Stands (listed : List String) (φ : String → String) (name : String) (n : Node) : Prop :=
  name ∈ listed ∧ n = .symbol (φ name) .nowhere

theorem forall₂_map {R : Node → Node → Prop} {f : Node → Node} (h : ∀ n ∈ ns, R n (f n)) :
    List.Forall₂ R ns (ns.map f) :=
  List.forall₂_map_right_iff.mpr (List.forall₂_same.mpr h)

theorem rename_quote (h : (Node.sequence d ns s).isCallTo "quote" = true) :
    rename renames (.sequence d ns s) = .sequence d ns s := by
  rw [rename, if_pos h]

theorem rename_sequence (h : (Node.sequence d ns s).isCallTo "quote" = false) :
    rename renames (.sequence d ns s) = .sequence d (ns.map (rename renames)) s := by
  simp [rename, h]

theorem renames_rename (h : ∀ name m, renames.lookup name = some m ↔ σ name m) (n : Node) :
    Renames σ n (rename renames n) := by
  induction n using Node.induct with
  | symbol name s =>
    rw [rename]
    cases hm : renames.lookup name with
    | none => exact .unlisted s fun m hσ ↦ by simp [(h name m).mpr hσ] at hm
    | some m => exact .listed s ((h name m).mp hm)
  | literal l s => exact .literal l s
  | sequence d ns s ih =>
    cases hq : (Node.sequence d ns s).isCallTo "quote" with
    | true =>
      rw [rename_quote hq]
      exact .quoted hq
    | false =>
      rw [rename_sequence hq]
      exact .sequence d s hq (forall₂_map ih)

def entries (old new : String → String) (listed : List String) : List (String × Node) :=
  listed.map fun name ↦ (old name, .symbol (new name) .nowhere)

theorem lookup_eq_some_iff_mem {l : List (String × Node)} (hnodup : (l.map Prod.fst).Nodup) :
    l.lookup name = some n ↔ (name, n) ∈ l := by
  rw [List.lookup_eq_some_iff]
  constructor
  · rintro ⟨l₁, l₂, rfl, -⟩
    exact List.mem_append_right l₁ List.mem_cons_self
  · intro hmem
    obtain ⟨l₁, l₂, rfl⟩ := List.append_of_mem hmem
    refine ⟨l₁, l₂, rfl, fun p hp ↦ bne_iff_ne.mpr ?_⟩
    rw [List.map_append, List.nodup_append] at hnodup
    exact (hnodup.2.2 p.1 (List.mem_map_of_mem hp) name List.mem_cons_self).symm

theorem lookup_entries_reverse {φ : String → String} (hnodup : listed.Nodup) :
    (entries id φ listed).reverse.lookup name = some n ↔ Stands listed φ name n := by
  have hkeys : ((entries id φ listed).reverse.map Prod.fst).Nodup := by
    rw [List.map_reverse, List.nodup_reverse, entries, List.map_map]
    exact hnodup.map Function.injective_id
  rw [lookup_eq_some_iff_mem hkeys, List.mem_reverse]
  simp [entries, Stands, eq_comm]

theorem lookup_entries_back {φ : String → String} (hnodup : listed.Nodup) (hφ : Set.InjOn φ {name | name ∈ listed}) :
    (entries φ id listed).lookup name = some n ↔ ∃ old ∈ listed, φ old = name ∧ n = .symbol old .nowhere := by
  have hkeys : ((entries φ id listed).map Prod.fst).Nodup := by
    rw [entries, List.map_map]
    exact hnodup.map_on fun a ha b hb ↦ hφ ha hb
  rw [lookup_eq_some_iff_mem hkeys]
  simp [entries, eq_comm]

theorem head?_paren_cons : (Node.sequence .paren (n :: ns) s).head? = n.symbol? := by
  cases n <;> rfl

theorem isCallTo_quote_rename (h : ∀ name m, renames.lookup name = some m → m.symbol? ≠ some "quote")
    (hq : (Node.sequence d ns s).isCallTo "quote" = false) :
    (Node.sequence d (ns.map (rename renames)) s).isCallTo "quote" = false := by
  cases d with
  | bracket | brace => rfl
  | paren =>
    cases ns with
    | nil => rfl
    | cons n ns =>
      rw [Node.isCallTo, head?_paren_cons, beq_eq_false_iff_ne] at hq
      rw [Node.isCallTo, List.map_cons, head?_paren_cons, beq_eq_false_iff_ne]
      cases n with
      | symbol name s =>
        rw [rename]
        cases hm : renames.lookup name with
        | none => exact hq
        | some m => exact h name m hm
      | literal l s => exact hq
      | sequence d items s =>
        unfold rename
        split <;> exact nofun

section Back

variable {φ : String → String} (hnodup : listed.Nodup)

include hnodup

theorem rename_back_symbol (hφ : Set.InjOn φ {name | name ∈ listed}) (hname : ∀ old ∈ listed, φ old ≠ name) (s : Span) :
    Renames (Stands listed id) (.symbol name s)
      (rename (entries φ id listed) (rename (entries id φ listed).reverse (.symbol name s))) := by
  rw [rename]
  by_cases hmem : name ∈ listed
  · have hnew : (entries id φ listed).reverse.lookup name = some (.symbol (φ name) .nowhere) :=
      (lookup_entries_reverse hnodup).mpr ⟨hmem, rfl⟩
    have hold : (entries φ id listed).lookup (φ name) = some (.symbol name .nowhere) :=
      (lookup_entries_back hnodup hφ).mpr ⟨name, hmem, rfl, rfl⟩
    rw [hnew, Option.getD_some, rename, hold, Option.getD_some]
    exact .listed s ⟨hmem, rfl⟩
  · have hnew : (entries id φ listed).reverse.lookup name = none :=
      Option.eq_none_iff_forall_ne_some.mpr fun m hm ↦ hmem ((lookup_entries_reverse hnodup).mp hm).1
    have hold : (entries φ id listed).lookup name = none := by
      refine Option.eq_none_iff_forall_ne_some.mpr fun m hm ↦ ?_
      obtain ⟨old, hmem, hold, -⟩ := (lookup_entries_back hnodup hφ).mp hm
      exact hname old hmem hold
    rw [hnew, Option.getD_none, rename, hold, Option.getD_none]
    exact .unlisted s fun m hm ↦ hmem hm.1

theorem rename_back (hφ : Set.InjOn φ {name | name ∈ listed}) (hquote : ∀ name, φ name ≠ "quote")
    (hn : ∀ name ∈ listed, ¬n.Mentions (φ name)) :
    Renames (Stands listed id) n (rename (entries φ id listed) (rename (entries id φ listed).reverse n)) := by
  induction n using Node.induct with
  | symbol name s => exact rename_back_symbol hnodup hφ (fun old hold he ↦ hn old hold (Node.mentions_symbol.mpr he)) s
  | literal l s => exact .literal l s
  | sequence d ns s ih =>
    cases hq : (Node.sequence d ns s).isCallTo "quote" with
    | true =>
      rw [rename_quote hq, rename_quote hq]
      exact .quoted hq
    | false =>
      -- On the way back the walk must not stop at a form that it went through before.
      have hq' : (Node.sequence d (ns.map (rename (entries id φ listed).reverse)) s).isCallTo "quote" = false := by
        refine isCallTo_quote_rename (fun name m hm ↦ ?_) hq
        rw [((lookup_entries_reverse hnodup).mp hm).2]
        exact fun he ↦ hquote name (Option.some.inj he)
      rw [rename_sequence hq, rename_sequence hq', List.map_map]
      refine .sequence d s hq (forall₂_map fun n hmem ↦ ih n hmem fun name hname hm ↦ ?_)
      exact hn name hname (Node.mentions_sequence.mpr ⟨n, hmem, hm⟩)

end Back

/-- The name that a supply gives out for a listed name, after those for the names in front of it. -/
def generated (names : NameSupply) (listed : List String) (name : String) : String :=
  (NameSupply.fresh { names with count := names.count + listed.idxOf name } name).1

theorem generated_head (names : NameSupply) (name : String) (rest : List String) :
    generated names (name :: rest) name = (names.fresh name).1 := by
  simp [generated]

theorem generated_tail {other : String} (names : NameSupply) (hne : name ≠ other) (rest : List String) :
    generated names (name :: rest) other = generated (names.fresh name).2 rest other := by
  rw [generated, generated, List.idxOf_cons_ne rest hne, Nat.add_succ, ← Nat.succ_add]
  rfl

theorem generated_ne_quote (names : NameSupply) (listed : List String) (name : String) :
    generated names listed name ≠ "quote" := by
  intro he
  have hreserved : NameSupply.isReserved (generated names listed name) = true := NameSupply.isReserved_fresh _ name
  rw [he] at hreserved
  exact absurd hreserved (by decide)

theorem map_generated (hnodup : listed.Nodup) (names : NameSupply) :
    listed.map (generated names listed) = names.freshAll listed := by
  induction listed generalizing names with
  | nil => rfl
  | cons name rest ih =>
    obtain ⟨hname, hnodup⟩ := List.nodup_cons.mp hnodup
    rw [List.map_cons, generated_head, NameSupply.freshAll, ← ih hnodup]
    congr 1
    exact List.map_congr_left fun other hother ↦ generated_tail names (ne_of_mem_of_not_mem hother hname).symm rest

theorem injOn_generated (hnodup : listed.Nodup) {names : NameSupply} (hmangle : names.mangle = Name.mangle) :
    Set.InjOn (generated names listed) {name | name ∈ listed} := by
  obtain ⟨mangle, count⟩ := names
  cases hmangle
  have hfresh := NameSupply.freshAll_nodup count listed
  rw [← map_generated hnodup] at hfresh
  exact fun a ha b hb ↦ List.inj_on_of_nodup_map hfresh ha hb

theorem entries_eq_zip (hnodup : listed.Nodup) (names : NameSupply) :
    entries id (generated names listed) listed = listed.zip ((names.freshAll listed).map fun g ↦ .symbol g .nowhere) := by
  rw [← map_generated hnodup, List.map_map, entries, ← List.zip_map', List.map_id]
  rfl

theorem freshNames_run (nested : Bool → Node → Process ω ExpansionError Node) (names : List (String × Span))
    (renames : List (String × Node)) (k : List (String × Node) → α) (w : World) :
    Action.run nested (do return k (← freshNames renames (names.map fun p ↦ .symbol p.1 p.2))) w =
      some ⟨.ok (k (((names.map Prod.fst).zip
          ((w.names.freshAll (names.map Prod.fst)).map fun g ↦ .symbol g .nowhere)).reverse ++ renames)), [],
        { w with names := { w.names with count := w.names.count + names.length } }⟩ := by
  induction names generalizing renames w with
  | nil => rfl
  | cons p names ih =>
    change Action.run nested (.fresh p.1 fun n ↦ do return k (← freshNames ((p.1, n) :: renames) _)) w = _
    rw [Action.run, Process.bind_of_ok (Process.gensym_apply p.1 w), ih, List.map_cons, NameSupply.freshAll,
      List.map_cons, List.zip_cons_cons, List.reverse_cons, List.append_assoc, List.length_cons,
      Nat.add_comm names.length, ← Nat.add_assoc]
    rfl

/-- Given a list of different names and a body, the macro answers with the body, in a block unless it is one form, in which
one generated symbol stands for each listed name wherever that is not quoted, and nothing else has changed. Symbols are
drawn in the order of the list. Under the default mangling they are different for different names; and if they are, and none
of them occurs in the body, renaming them back gives the body again, but for the places of the symbols renamed. -/
theorem withGensyms_renames (nested : Bool → Node → Process ω ExpansionError Node) (w : World) {call : MacroCall}
    {names : List (String × Span)} {place : Span} {body : List Node}
    (hargs : call.args = .sequence .bracket (names.map fun p ↦ .symbol p.1 p.2) place :: body)
    (hnodup : (names.map Prod.fst).Nodup) :
    let listed := names.map Prod.fst
    let φ := generated w.names listed
    ∃ body', (expandWithGensyms call).run nested w =
        some ⟨.ok (.form (block body' call.form.span)), [],
          { w with names := { w.names with count := w.names.count + names.length } }⟩ ∧
      listed.map φ = w.names.freshAll listed ∧ List.Forall₂ (Renames (Stands listed φ)) body body' ∧
      (w.names.mangle = Name.mangle → Set.InjOn φ {name | name ∈ listed}) ∧
      (Set.InjOn φ {name | name ∈ listed} → (∀ name ∈ listed, ∀ n ∈ body, ¬n.Mentions (φ name)) →
        List.Forall₂ (Renames (Stands listed id)) body (body'.map (rename (entries φ id listed)))) := by
  intro listed φ
  refine ⟨body.map (rename (entries id φ listed).reverse), ?_, map_generated hnodup w.names, ?_, injOn_generated hnodup,
    fun hφ hfresh ↦ ?_⟩
  · have hcall : expandWithGensyms call = do
        return .form (block (renameAll (← freshNames [] (names.map fun p ↦ .symbol p.1 p.2)) body) call.form.span) := by
      simp only [expandWithGensyms, atLeastOne, hargs]
      rfl
    rw [hcall, freshNames_run, renameAll_eq_map, List.append_nil, ← entries_eq_zip hnodup]
  · exact forall₂_map fun n _ ↦ renames_rename (fun name m ↦ lookup_entries_reverse hnodup) n
  · rw [List.map_map]
    exact forall₂_map fun n hn ↦
      rename_back hnodup hφ (generated_ne_quote w.names listed) fun name hname ↦ hfresh name hname n hn

/-- Two names, one of them called and quoted as well. -/
theorem withGensyms_renames_call_and_datum :
    let w : World := ⟨⟨Name.mangle, 3⟩, none⟩
    let names : List (String × Span) := [("a", .nowhere), ("b", .nowhere)]
    let body : List Node := [.form [.symbol "a" .nowhere, .sequence .bracket [.symbol "b" .nowhere] .nowhere,
      .form [.symbol "quote" .nowhere, .symbol "a" .nowhere] .nowhere] .nowhere]
    let call : MacroCall :=
      ⟨module, .form [] .nowhere, .sequence .bracket (names.map fun p ↦ .symbol p.1 p.2) .nowhere :: body⟩
    let φ := generated w.names ["a", "b"]
    (names.map Prod.fst).Nodup ∧ ∀ nested : Bool → Node → Process Unit ExpansionError Node,
      ∃ body', (expandWithGensyms call).run nested w =
          some ⟨.ok (.form (block body' .nowhere)), [], { w with names := ⟨Name.mangle, 5⟩ }⟩ ∧
        List.Forall₂ (Renames (Stands ["a", "b"] φ)) body body' ∧ Set.InjOn φ {name | name ∈ ["a", "b"]} ∧
        List.Forall₂ (Renames (Stands ["a", "b"] id)) body (body'.map (rename (entries φ id ["a", "b"]))) := by
  intro w names body call φ
  have hnodup : (names.map Prod.fst).Nodup := by decide
  refine ⟨hnodup, fun nested ↦ ?_⟩
  obtain ⟨body', hrun, -, hbody, hinj, hback⟩ :=
    @withGensyms_renames Unit nested w call names .nowhere body rfl hnodup
  refine ⟨body', hrun, hbody, hinj rfl, hback (hinj rfl) fun name hname n hn ↦ ?_⟩
  obtain rfl := List.mem_singleton.mp hn
  have hnew : ∀ name ∈ ["a", "b"], φ name ≠ "a" ∧ φ name ≠ "b" ∧ φ name ≠ "quote" := by decide +kernel
  obtain ⟨ha, hb, hq⟩ := hnew name hname
  change ¬(Node.form _ _).Mentions (φ name)
  simp [ha, hb, hq]

end MacroLisp.Core
