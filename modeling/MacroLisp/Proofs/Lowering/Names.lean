import MacroLisp.Proofs.Lowering.Generated
import MacroLisp.Proofs.Lowering.Layout

namespace MacroLisp

open Host (Expr Stmt Role)

namespace Lowering

variable {S : Role → String → Prop} {μ : String → String} {p : Role × String} {e : Expr} {s : Stmt}

def IsEmitted (S : Role → String → Prop) (μ : String → String) (p : Role × String) : Prop :=
  (∃ name, S p.1 name ∧ p.2 = Name.mangle name) ∨ ∃ k, p = (.name, temporary μ k)

theorem IsValue.names (h : IsValue S μ e) : ∀ p ∈ e.names, IsEmitted S μ p := by
  have hall : ∀ {es : List Expr}, (∀ e ∈ es, ∀ p ∈ e.names, IsEmitted S μ p) →
      ∀ p ∈ Expr.namesOfAll es, IsEmitted S μ p := by
    intro es ih p hp
    obtain ⟨e, he, hp⟩ := Expr.mem_namesOfAll.mp hp
    exact ih e he p hp
  induction h with
  | constant c => exact fun p hp ↦ absurd hp List.not_mem_nil
  | load h => exact List.forall_mem_singleton.mpr (.inl ⟨_, h, rfl⟩)
  | temporary k => exact List.forall_mem_singleton.mpr (.inr ⟨k, rfl⟩)
  | attr _ h ih => exact List.forall_mem_append.mpr ⟨ih, List.forall_mem_singleton.mpr (.inl ⟨_, h, rfl⟩)⟩
  | binary op _ _ ihl ihr => exact List.forall_mem_append.mpr ⟨ihl, ihr⟩
  | unary op _ ih => exact ih
  | boolean op _ _ ih => exact hall ih
  | compare _ _ _ _ ihl ih => exact List.forall_mem_append.mpr ⟨ihl, hall ih⟩
  | conditional _ _ _ iht ihb iho =>
    exact List.forall_mem_append.mpr ⟨List.forall_mem_append.mpr ⟨iht, ihb⟩, iho⟩
  | call _ _ _ hn ihf iha ihk =>
    refine List.forall_mem_append.mpr ⟨List.forall_mem_append.mpr ⟨ihf, hall iha⟩, fun p hp ↦ ?_⟩
    obtain ⟨k, hk, rfl | hp⟩ := Expr.mem_namesOfKeywords.mp hp
    · exact .inl (hn k hk)
    · exact ihk k hk p hp
  | list _ ih => exact hall ih
  | tuple _ ih => exact hall ih
  | dict _ _ _ ihk ihv => exact List.forall_mem_append.mpr ⟨hall ihk, hall ihv⟩

theorem IsStatement.names (h : IsStatement S μ s) : ∀ p ∈ s.names, IsEmitted S μ p := by
  have hassign : ∀ {e place value : Expr}, place.names = e.names → IsValue S μ e → IsValue S μ value →
      ∀ p ∈ (Stmt.assign [place] value).names, IsEmitted S μ p := by
    intro e place value hplace he hv
    have hnames : (Stmt.assign [place] value).names = e.names ++ value.names := by
      simp [Stmt.names, Expr.namesOfAll, hplace]
    rw [hnames]
    exact List.forall_mem_append.mpr ⟨he.names, hv.names⟩
  induction h with
  | expr h => exact h.names
  | assign he hp hv => exact hassign (Expr.names_of_asTarget? hp) he hv
  | imports hne h =>
    intro p hp
    obtain ⟨a, ha, hp⟩ := List.mem_flatMap.mp hp
    rcases List.mem_cons.mp hp with rfl | hp
    · exact .inl (h a ha).name
    · obtain ⟨id, hid, rfl⟩ := List.mem_map.mp hp
      exact .inl ((h a ha).asName id (Option.mem_toList.mp hid))
  | ifElse k ht _ hb _ ho ihbody ihorelse =>
    have hbranch : ∀ {ss : List Stmt} {v : Expr}, (∀ s ∈ ss, ∀ p ∈ s.names, IsEmitted S μ p) → IsValue S μ v →
        ∀ p ∈ Stmt.namesOfAll (ss ++ [.assign [.name (temporary μ k) .store] v]), IsEmitted S μ p := by
      intro ss v ih hv p hp
      obtain ⟨s, hs, hp⟩ := Stmt.mem_namesOfAll.mp hp
      rcases List.mem_append.mp hs with hs | hs
      · exact ih s hs p hp
      · obtain rfl := List.mem_singleton.mp hs
        exact hassign rfl (.temporary k) hv p hp
    exact List.forall_mem_append.mpr ⟨List.forall_mem_append.mpr ⟨ht.names, hbranch ihbody hb⟩, hbranch ihorelse ho⟩

end Lowering

namespace Compiler

variable {c : Compiler} {forms : List Node} {n : Node}

/-- The nodes that come up when forms are compiled: the forms, what is in them, and what is expanded of these. -/
inductive Reached (c : Compiler) (forms : List Node) : Node → Prop
  | form {n : Node} (h : n ∈ forms) : Reached c forms n
  | part {d : Delimiter} {ns : List Node} {s : Span} {n : Node} (h : Reached c forms (.sequence d ns s)) (hn : n ∈ ns) :
    Reached c forms n
  | expansion {fuel : ℕ} {n : Node} {w w' : World} {e : Expanded} {log : List Stmt} (h : Reached c forms n)
    (hw : w.names.mangle = Name.mangle) (he : c.expand fuel n w = some ⟨.ok e, log, w'⟩) : Reached c forms e.node

/-- The roles that forms give to names, and those that any name may have which is mangled to one identifier. -/
def Given (c : Compiler) (forms : List Node) (r : Role) (name : String) : Prop :=
  Name.IsWhole name ∨ ∃ n, c.Reached forms n ∧ n.Gives r name

theorem admits_reached (c : Compiler) (forms : List Node) : Lowering.Admits (c.Given forms) (c.Reached forms) where
  part h _ hn := h.part hn
  given h hr := .inr ⟨_, h, hr⟩
  whole _ _ h := .inl h

theorem keeps_reached (c : Compiler) (forms : List Node) :
    c.Keeps (c.Given forms) (c.Reached forms) Name.mangle := by
  refine keeps fun x hx fuel n w e log w' hw hn hhead ↦ ?_
  have hquiet : ((x.head fuel .value 0 n).quietly : LowerM (Except ExpansionError Expanded)) w =
      some ⟨.ok (.ok e), [], w'⟩ := by
    simp [Process.quietly, hhead]
  have hexpand : c.expand fuel n w = some ⟨.ok e, [], w'⟩ := by simp [expand, hx, Process.bind_of_ok hquiet]
  exact hn.expansion hw hexpand

theorem Reached.allNames_ne_empty
    (hx : ∀ x, c.expansion = some x → ∀ name p b, x.lookup name = some (p, b) → NamedTemplateOrCore b.expander)
    (hforms : ∀ n ∈ forms, n.AllNames (· ≠ "")) (h : c.Reached forms n) : n.AllNames (· ≠ "") := by
  have hreserved : ∀ name, NameSupply.isReserved name = true → name ∈ {name | name ≠ ""} := by
    rintro name hr rfl
    cases hr
  have hc : c.KeepsNames (· ≠ "") Name.mangle := keepsNames fun x hxc _ _ _ _ _ _ _ hn hhead ↦
    Expansion.head_within hreserved (fun name p b hb ↦ (hx x hxc name p b hb).brings) hn hhead
  induction h with
  | form h => exact hforms _ h
  | part _ hn ih => exact Node.allNames_sequence.mp ih _ hn
  | expansion _ hw he ih => exact (hc _ _ ih _ _ _ _ hw he).result

/-- A name in a module that is compiled fits its place, unless a form that comes up gives it there as it stands: an
attribute, a keyword or another name for a module with points in it, or a module with an empty component. So the
variables of a module are identifiers, if no symbol that comes up has an empty name. -/
theorem module_names_fit (c : Compiler) (fuel : ℕ) (withLibrary : Bool) (forms : List Node) {w w' : World}
    {m : Host.Module} {log : List Stmt} (hw : w.names.mangle = Name.mangle)
    (h : c.module fuel withLibrary forms w = some ⟨.ok m, log, w'⟩) :
    (∀ r x, (r, x) ∈ m.names → ¬r.Fits x →
        ∃ n name, c.Reached forms n ∧ n.Gives r name ∧ ¬r.Accepts name ∧ x = Name.mangle name) ∧
      ((∀ n, c.Reached forms n → n.AllNames (· ≠ "")) →
        ∀ x, (.name, x) ∈ m.names → Name.isIdentifier x = true) := by
  obtain ⟨hstmts, -⟩ := emits_module_of_admits (c.admits_reached forms) (c.keeps_reached forms) hw
    (fun _ hn ↦ .form hn) h
  have hgiven : ∀ r x, (r, x) ∈ m.names → ¬r.Fits x →
      ∃ n name, c.Reached forms n ∧ n.Gives r name ∧ ¬r.Accepts name ∧ x = Name.mangle name := by
    intro r x hx hfits
    obtain ⟨s, hs, hx⟩ := Stmt.mem_namesOfAll.mp hx
    obtain ⟨name, hname, rfl⟩ | ⟨k, hk⟩ := (hstmts s hs).names _ hx
    · rw [Role.fits_mangle_iff] at hfits
      rcases hname with hwhole | ⟨n, hn, hr⟩
      · exact absurd (Role.accepts_of_isWhole hwhole) hfits
      · exact ⟨n, name, hn, hr, hfits, rfl⟩
    · cases hk
      exact absurd (NameSupply.isIdentifier_fresh_iff.mpr (by decide)) hfits
  refine ⟨hgiven, fun hne x hx ↦ ?_⟩
  by_contra hfits
  obtain ⟨n, name, hn, hr, haccepts, -⟩ := hgiven .name x hx hfits
  cases hr with
  | symbol hsingle =>
    have hname : name ≠ "" := (Node.allNames_symbol (S := (· ≠ ""))).mp (hne _ hn)
    exact haccepts ⟨hname, hsingle⟩

def whenWithAttribute : Node :=
  .form [.symbol "when" .nowhere, .symbol "a" .nowhere, .form [.symbol "f" .nowhere,
    .form [.symbol "." .nowhere, .symbol "x" .nowhere, .symbol "y.z" .nowhere] .nowhere,
    .literal (.keyword "sep") .nowhere, .literal (.int 1) .nowhere] .nowhere] .nowhere

theorem module_names_fit_whenWithAttribute :
    let c : Compiler := ⟨some Expansion.coreMacros⟩
    let w : World := ⟨.new Name.mangle, none⟩
    w.names.mangle = Name.mangle ∧ ∃ m log w', c.module 9 true [whenWithAttribute] w = some ⟨.ok m, log, w'⟩ ∧
      m.names = [(.module, "hy"), (.name, "a"), (.name, "f"), (.name, "x"), (.member, "y.z"), (.keyword, "sep")] ∧
      (∃ n name, c.Reached [whenWithAttribute] n ∧ n.Gives .member name ∧ "y.z" = Name.mangle name) ∧
      (∀ n, c.Reached [whenWithAttribute] n → n.AllNames (· ≠ "")) ∧
      ∀ x, (.name, x) ∈ m.names → Name.isIdentifier x = true := by
  intro c w
  have hx : ∀ x, c.expansion = some x → ∀ name p b, x.lookup name = some (p, b) → NamedTemplateOrCore b.expander := by
    intro x hxc name p b h
    obtain rfl := Option.some.inj hxc
    obtain ⟨b', hb, he⟩ := Option.map_eq_some_iff.mp h
    cases he
    exact .core hb
  have hforms : ∀ n ∈ [whenWithAttribute], n.AllNames (· ≠ "") := by simp [whenWithAttribute]
  have hrun : (c.module 9 true [whenWithAttribute] w).map (fun o ↦ o.result.toOption.map Host.Module.names) =
      some (some [(.module, "hy"), (.name, "a"), (.name, "f"), (.name, "x"), (.member, "y.z"), (.keyword, "sep")]) := by
    decide +kernel
  obtain ⟨m, log, w', ho, hnames⟩ := Outcome.exists_ok_of_map hrun
  have hne : ∀ n, c.Reached [whenWithAttribute] n → n.AllNames (· ≠ "") := fun _ hn ↦ hn.allNames_ne_empty hx hforms
  obtain ⟨hgiven, hvariables⟩ := module_names_fit c 9 true [whenWithAttribute] rfl ho
  obtain ⟨n, name, hn, hname, -, hy⟩ := hgiven .member "y.z" (by rw [hnames]; decide) (by decide)
  exact ⟨rfl, m, log, w', ho, hnames, ⟨n, name, hn, hname, hy⟩, hne, hvariables hne⟩

def dottedArguments : Node :=
  .form [.symbol "f" .nowhere, .form [.symbol "." .nowhere, .symbol "x" .nowhere, .symbol "a.b" .nowhere] .nowhere,
    .literal (.keyword "c.d") .nowhere, .literal (.int 1) .nowhere] .nowhere

def dottedImport : Node :=
  .form [.symbol "import" .nowhere, .symbol "e..f" .nowhere, .literal (.keyword "as") .nowhere,
    .symbol "g.h" .nowhere] .nowhere

/-- Each of the four forms puts a name into the module that is no identifier. -/
theorem module_names_dotted :
    ∃ m log w', (⟨none⟩ : Compiler).module 5 false [dottedArguments, dottedImport] ⟨.new Name.mangle, none⟩ =
        some ⟨.ok m, log, w'⟩ ∧
      m.names.filter (fun p ↦ ¬p.1.Fits p.2) =
        [(.member, "a.b"), (.keyword, "c.d"), (.module, "e..f"), (.asName, "g.h")] := by
  have hrun : ((⟨none⟩ : Compiler).module 5 false [dottedArguments, dottedImport] ⟨.new Name.mangle, none⟩).map
      (fun o ↦ o.result.toOption.map fun m ↦ m.names.filter fun p ↦ ¬p.1.Fits p.2) =
        some (some [(.member, "a.b"), (.keyword, "c.d"), (.module, "e..f"), (.asName, "g.h")]) := by decide +kernel
  exact Outcome.exists_ok_of_map hrun

end Compiler

end MacroLisp
