import MacroLisp.Proofs.Expansion.Answers
import MacroLisp.Proofs.Host.Layout
import MacroLisp.Proofs.Lowering.Shape
import MacroLisp.Proofs.Name.Qualified

namespace MacroLisp

open Host (IsPhrase Unbroken isPlain)

namespace Name

variable {name : String} {c : Char}

theorem isPlain_of_mem_mangle (h : c ∈ (mangle name).toList) : isPlain c = true := by
  rw [mangle, String.toList_ofList] at h
  rcases isIdentifierPart_or_dot_of_mem_mangleChars h with hpart | rfl
  · exact Host.isPlain_of_isIdentifierPart hpart
  · rfl

theorem isPhrase_mangle (h : name ≠ "") : IsPhrase (mangle name).toList := by
  refine Host.isPhrase_of_plain ?_ fun c hc ↦ isPlain_of_mem_mangle hc
  rw [mangle, String.toList_ofList]
  exact mangleChars_ne_nil fun hnil ↦ h (String.toList_eq_nil_iff.mp hnil)

theorem unbroken_mangle (name : String) : Unbroken (mangle name).toList := by
  by_cases h : name = ""
  · subst h
    decide
  · exact (isPhrase_mangle h).unbroken

end Name

namespace Lowering

open Host (Expr Stmt Alias)

theorem isPhrase_temporary (k : ℕ) : IsPhrase (temporary Name.mangle k).toList := by
  refine Host.isPhrase_of_plain ?_ fun c hc ↦ ?_
  · have hr := NameSupply.isReserved_fresh ⟨Name.mangle, k⟩ "if"
    intro hnil
    rw [NameSupply.isReserved, ← temporary, hnil] at hr
    cases hr
  · rw [temporary, NameSupply.fresh, String.toList_ofList] at hc
    rcases NameSupply.mem_withReserved hc with hc | hc
    · have hplain : NameSupply.reserved.all isPlain = true := by decide
      exact List.all_eq_true.mp hplain c hc
    · exact Name.isPlain_of_mem_mangle hc

variable {μ : String → String} {e target value : Expr} {s : Stmt}

theorem isLaid_assign (ht : target.IsOnLine) (hv : value.IsOnLine) : (Stmt.assign [target] value).IsLaid := by
  refine .assign ?_
  simp only [Stmt.text, List.map_cons, List.map_nil, String.intercalate_singleton, String.toList_append]
  exact (ht.toIsLineText.append (by decide)).append_phrase hv

theorem isPhrase_alias {a : Alias} (h : IsAlias (ofNames (· ≠ "")) a) : IsPhrase a.source.toList := by
  obtain ⟨path, hpath, hname⟩ := h.name
  unfold Alias.source
  split
  · next as has =>
    obtain ⟨name, hne, rfl⟩ := h.asName as has
    rw [hname]
    simp only [String.toList_append]
    exact ((Name.isPhrase_mangle hpath).toIsLineText.append (by decide)).append_phrase (Name.isPhrase_mangle hne)
  · rw [hname]
    exact Name.isPhrase_mangle hpath

theorem isLaid_imports {names : List Alias} (hne : names ≠ []) (h : ∀ a ∈ names, IsAlias (ofNames (· ≠ "")) a) :
    (Stmt.imports names).IsLaid := by
  obtain ⟨a, as, rfl⟩ := List.exists_cons_of_ne_nil hne
  obtain ⟨ha, has⟩ := List.forall_mem_cons.mp h
  have htext : (Stmt.imports (a :: as)).text.toList = ("import ".toList ++ a.source.toList) ++
      as.flatMap fun a ↦ Host.commaBlank ++ a.source.toList := by
    simp [Stmt.text, Text.intercalate_cons, Host.commaBlank, List.flatMap_map]
  refine .imports ?_
  rw [htext]
  have hfirst : IsPhrase ("import ".toList ++ a.source.toList) :=
    (by decide : Host.IsLineText "import ".toList).append_phrase (isPhrase_alias ha)
  exact hfirst.append_flatMap fun b hb ↦ ⟨_, _, rfl, by decide, isPhrase_alias (has b hb)⟩

section Names

variable (hμ : ∀ k : ℕ, IsPhrase (Lowering.temporary μ k).toList)

include hμ

theorem IsValue.isOnLine (h : IsValue (ofNames (· ≠ "")) μ e) : e.IsOnLine := by
  induction h with
  | constant c => exact Host.isPhrase_text c
  | load h => exact Name.isPhrase_mangle h
  | temporary k => exact hμ k
  | attr _ h ih => exact Expr.isOnLine_member _ ih (Name.isPhrase_mangle h)
  | binary op _ _ ihl ihr => exact Expr.isOnLine_binary op ihl ihr
  | unary op _ ih => exact Expr.isOnLine_unary op ih
  | boolean op hlen _ ih => exact Expr.isOnLine_boolean op (List.ne_nil_of_length_pos (by omega)) ih
  | compare _ _ _ _ ihl ih => exact Expr.isOnLine_compare _ ihl ih
  | conditional _ _ _ iht ihb iho => exact Expr.isOnLine_conditional iht ihb iho
  | call _ _ _ hn ihf iha ihk =>
    refine Expr.isOnLine_call ihf iha ihk fun k hk ↦ ?_
    obtain ⟨name, -, hname⟩ := hn k hk
    rw [hname]
    exact Name.unbroken_mangle name
  | list _ ih => exact Expr.isOnLine_list ih
  | tuple _ ih => exact Expr.isOnLine_tuple ih
  | dict _ _ _ ihk ihv => exact Expr.isOnLine_dict ihk ihv

theorem IsStatement.isLaid (h : IsStatement (ofNames (· ≠ "")) μ s) : s.IsLaid := by
  have hplace : ∀ e place : Expr, e.asTarget? = some place → e.IsOnLine → place.IsOnLine := by
    intro e place hp he
    cases e <;> cases hp <;> simpa only [Expr.IsOnLine, Expr.source] using he
  have hassign : ∀ k e, IsValue (ofNames (· ≠ "")) μ e →
      (Stmt.assign [.name (Lowering.temporary μ k) .store] e).IsLaid :=
    fun k e he ↦ isLaid_assign (hμ k) (he.isOnLine hμ)
  induction h with
  | expr h => exact .expr (h.isOnLine hμ)
  | assign he hp hv => exact isLaid_assign (hplace _ _ hp (he.isOnLine hμ)) (hv.isOnLine hμ)
  | imports hne h => exact isLaid_imports hne h
  | ifElse k ht _ hb _ ho ihbody ihorelse =>
    refine .ifElse (ht.isOnLine hμ).unbroken (by simp) ?_ ?_
    · exact List.forall_mem_append.mpr ⟨ihbody, List.forall_mem_singleton.mpr (hassign k _ hb)⟩
    · exact List.forall_mem_append.mpr ⟨ihorelse, List.forall_mem_singleton.mpr (hassign k _ ho)⟩

end Names

end Lowering

/-- Template macros in whose bodies no symbol has an empty name, and the core macros. -/
inductive NamedTemplateOrCore : Expander → Prop
  | template (t : Template) : t.body.AllNames (· ≠ "") → NamedTemplateOrCore t.expander
  | core {name : String} {b : MacroBinding} : Core.table.getMangled? name = some b → NamedTemplateOrCore b.expander

theorem NamedTemplateOrCore.brings {e : Expander} (h : NamedTemplateOrCore e) : e.Brings {name | name ≠ ""} := by
  cases h with
  | template t hbody => exact t.brings.mono hbody
  | core hb =>
    refine (Core.brings_of_table hb).mono ?_
    rintro name (rfl | rfl | rfl) <;> decide

/-- A template macro under a name, and the core macros. -/
def Template.withCore (name : String) (t : Template) : Expansion where
  lookup key :=
    if key = name then some (.module, ⟨name, "__main__", t.expander, none⟩)
    else (Core.table.getMangled? key).map fun b ↦ (.core, b)
  mangle := Name.mangle
  limit := none

namespace Template

variable {name key : String} {t : Template} {p : Provenance} {b : MacroBinding}

theorem lookup_withCore (h : (t.withCore name).lookup key = some (p, b)) :
    b.expander = t.expander ∨ Core.table.getMangled? key = some b := by
  unfold withCore at h
  dsimp only at h
  split at h
  · obtain ⟨-, rfl⟩ := Prod.mk.inj (Option.some.inj h)
    exact .inl rfl
  · obtain ⟨b', hb, he⟩ := Option.map_eq_some_iff.mp h
    cases he
    exact .inr hb

theorem anyTemplateOrCore_withCore (h : (t.withCore name).lookup key = some (p, b)) : AnyTemplateOrCore b.expander := by
  rcases lookup_withCore h with he | hb
  · rw [he]
    exact .template t
  · exact .core hb

theorem namedTemplateOrCore_withCore (ht : t.body.AllNames (· ≠ "")) (h : (t.withCore name).lookup key = some (p, b)) :
    NamedTemplateOrCore b.expander := by
  rcases lookup_withCore h with he | hb
  · rw [he]
    exact .template t ht
  · exact .core hb

end Template

namespace Compiler

/-- The layout of a module that is compiled, with template and core macros or without, shows its statements: each line is
indented by its level and has a text of its own, and grouping the lines gives back the statements. No symbol of the
program may have an empty name, and generated names have to stay on their lines, as they do under the usual mangling. -/
theorem module_source_read_back (c : Compiler) (fuel : ℕ) (withLibrary : Bool) {forms : List Node} {w w' : World}
    {m : Host.Module} {log : List Host.Stmt}
    (hx : ∀ x, c.expansion = some x → ∀ name p b, x.lookup name = some (p, b) → NamedTemplateOrCore b.expander)
    (hforms : ∀ n ∈ forms, n.AllNames (· ≠ "")) (hμ : ∀ k, IsPhrase (Lowering.temporary w.names.mangle k).toList)
    (h : c.module fuel withLibrary forms w = some ⟨.ok m, log, w'⟩) :
    (∀ cs ∈ Host.lineTexts m.source, ∃ l : Host.Line, cs = l.chars ∧ Host.IsLineText l.text.toList) ∧
      Host.Outline.read? m.source = some (m.body.map Host.Stmt.outline) := by
  have hreserved : ∀ name, NameSupply.isReserved name = true → name ∈ {name | name ≠ ""} := by
    rintro name hr rfl
    cases hr
  have hc : c.KeepsNames (· ≠ "") w.names.mangle := keepsNames fun x hxc _ _ _ _ _ _ _ hn hhead ↦
    Expansion.head_within hreserved (fun name p b hb ↦ (hx x hxc name p b hb).brings) hn hhead
  obtain ⟨hstmts, -⟩ := emits_module (fun _ hne ↦ hne) hc rfl hforms h
  exact Host.Module.read?_source fun s hs ↦ (hstmts s hs).isLaid hμ

def pick : Template where
  params := ⟨["test", "yes", "no"], none⟩
  body := .form [.symbol "quasiquote" .nowhere, .form [.symbol "if" .nowhere,
    .form [.symbol "unquote" .nowhere, .symbol "test" .nowhere] .nowhere,
    .form [.symbol "unquote" .nowhere, .symbol "yes" .nowhere] .nowhere,
    .form [.symbol "unquote" .nowhere, .symbol "no" .nowhere] .nowhere] .nowhere] .nowhere
  doc := none

/-- `(pick a (setv r "else:\n") (when b (setv c 1)))`. -/
def pickOrWhen : Node :=
  .form [.symbol "pick" .nowhere, .symbol "a" .nowhere,
    .form [.symbol "setv" .nowhere, .symbol "r" .nowhere, .literal (.string "else:\n") .nowhere] .nowhere,
    .form [.symbol "when" .nowhere, .symbol "b" .nowhere,
      .form [.symbol "setv" .nowhere, .symbol "c" .nowhere, .literal (.int 1) .nowhere] .nowhere] .nowhere] .nowhere

theorem module_source_read_back_pickOrWhen :
    let w : World := ⟨.new Name.mangle, none⟩
    (∀ name p b, (pick.withCore "pick").lookup name = some (p, b) → NamedTemplateOrCore b.expander) ∧
      (∀ n ∈ [pickOrWhen], n.AllNames (· ≠ "")) ∧ (∀ k, IsPhrase (Lowering.temporary w.names.mangle k).toList) ∧
      ∃ m log w', (⟨some (pick.withCore "pick")⟩ : Compiler).module 9 true [pickOrWhen] w = some ⟨.ok m, log, w'⟩ ∧
        (Host.Stmt.linesOfAll 0 m.body).map Host.Line.level = [0, 0, 1, 1, 0, 1, 2, 2, 1, 2, 1, 0] ∧
        (∀ cs ∈ Host.lineTexts m.source, ∃ l : Host.Line, cs = l.chars ∧ Host.IsLineText l.text.toList) ∧
        Host.Outline.read? m.source = some (m.body.map Host.Stmt.outline) := by
  intro w
  have hpick : ∀ name p b, (pick.withCore "pick").lookup name = some (p, b) → NamedTemplateOrCore b.expander :=
    fun _ _ _ ↦ Template.namedTemplateOrCore_withCore (by simp [pick])
  have hx : ∀ x, (⟨some (pick.withCore "pick")⟩ : Compiler).expansion = some x → ∀ name p b, x.lookup name = some (p, b) →
      NamedTemplateOrCore b.expander := by
    intro x hxc
    obtain rfl := Option.some.inj hxc
    exact hpick
  have hforms : ∀ n ∈ [pickOrWhen], n.AllNames (· ≠ "") := by simp [pickOrWhen]
  have hμ : ∀ k, IsPhrase (Lowering.temporary w.names.mangle k).toList := Lowering.isPhrase_temporary
  have hrun : ((⟨some (pick.withCore "pick")⟩ : Compiler).module 9 true [pickOrWhen] w).map
      (fun o ↦ o.result.toOption.map fun m ↦ (Host.Stmt.linesOfAll 0 m.body).map Host.Line.level) =
        some (some [0, 0, 1, 1, 0, 1, 2, 2, 1, 2, 1, 0]) := by decide +kernel
  obtain ⟨m, log, w', ho, hlevels⟩ := Outcome.exists_ok_of_map hrun
  have hread := module_source_read_back (w := w) _ 9 true hx hforms hμ ho
  exact ⟨hpick, hforms, hμ, m, log, w', ho, hlevels, hread⟩

/-- `(vanish)` becomes the symbol without a name. -/
def vanish : Template where
  params := ⟨[], none⟩
  body := .form [.symbol "quasiquote" .nowhere, .symbol "" .nowhere] .nowhere
  doc := none

def callVanish : Node := .form [.symbol "vanish" .nowhere] .nowhere

/-- `(setv if (if a (setv b 1) c))`. -/
def setBranch : Node :=
  .form [.symbol "setv" .nowhere, .symbol "if" .nowhere, .form [.symbol "if" .nowhere, .symbol "a" .nowhere,
    .form [.symbol "setv" .nowhere, .symbol "b" .nowhere, .literal (.int 1) .nowhere] .nowhere,
    .symbol "c" .nowhere] .nowhere] .nowhere

/-- A symbol without a name that a template writes leaves its line empty. A generated name with a line break in it does
not stay on its line, and one that ends with a colon makes an assignment to `if` look like a header. -/
theorem module_source_not_read_back :
    let shown (m : Host.Module) : Prop :=
      (∀ cs ∈ Host.lineTexts m.source, ∃ l : Host.Line, cs = l.chars ∧ Host.IsLineText l.text.toList) ∧
        Host.Outline.read? m.source = some (m.body.map Host.Stmt.outline)
    (∀ name p b, (vanish.withCore "vanish").lookup name = some (p, b) → AnyTemplateOrCore b.expander) ∧
      callVanish.AllNames (· ≠ "") ∧ setBranch.AllNames (· ≠ "") ∧
      (∃ m log w', (⟨some (vanish.withCore "vanish")⟩ : Compiler).module 9 false [callVanish] ⟨.new Name.mangle, none⟩ =
        some ⟨.ok m, log, w'⟩ ∧ m.source = "\n" ∧ ¬shown m) ∧
      (∃ m log w', (⟨none⟩ : Compiler).module 9 false [setBranch] ⟨.new (· ++ "\n"), none⟩ = some ⟨.ok m, log, w'⟩ ∧
        ¬shown m) ∧
      ∃ m log w', (⟨none⟩ : Compiler).module 9 false [setBranch] ⟨.new (· ++ ":"), none⟩ = some ⟨.ok m, log, w'⟩ ∧
        ¬shown m := by
  intro shown
  -- A line that reads as none is enough to refute the layout.
  have hline : ∀ m cs, cs ∈ Host.lineTexts m.source → Host.Line.ofChars? cs = none → ¬shown m :=
    fun m cs hcs hnone h ↦ Host.Line.not_chars_of_ofChars? hnone (h.1 cs hcs)
  have hempty : ((⟨some (vanish.withCore "vanish")⟩ : Compiler).module 9 false [callVanish] ⟨.new Name.mangle, none⟩).map
      (fun o ↦ o.result.toOption.map Host.Module.source) = some (some "\n") := by decide +kernel
  have hcut : ((⟨none⟩ : Compiler).module 9 false [setBranch] ⟨.new (· ++ "\n"), none⟩).map
      (fun o ↦ o.result.toOption.map fun m ↦ Host.lineTexts m.source |>.contains " = None".toList) =
        some (some true) := by decide +kernel
  have hheader : ((⟨none⟩ : Compiler).module 9 false [setBranch] ⟨.new (· ++ ":"), none⟩).map
      (fun o ↦ o.result.toOption.map fun m ↦ ((Host.Outline.read? m.source).map (List.map Host.Outline.isBranch),
        (m.body.map Host.Stmt.outline).map Host.Outline.isBranch)) =
        some (some (some [true, true], [true, false])) := by decide +kernel
  refine ⟨fun _ _ _ ↦ Template.anyTemplateOrCore_withCore, by simp [callVanish], by simp [setBranch], ?_, ?_, ?_⟩
  · obtain ⟨m, log, w', ho, hsource⟩ := Outcome.exists_ok_of_map hempty
    exact ⟨m, log, w', ho, hsource, hline m [] (by rw [hsource]; decide) rfl⟩
  · obtain ⟨m, log, w', ho, hmem⟩ := Outcome.exists_ok_of_map hcut
    exact ⟨m, log, w', ho, hline m _ (List.contains_iff_mem.mp hmem) (by decide)⟩
  · obtain ⟨m, log, w', ho, hkinds⟩ := Outcome.exists_ok_of_map hheader
    obtain ⟨hread, hbody⟩ := Prod.mk.inj hkinds
    refine ⟨m, log, w', ho, fun h ↦ ?_⟩
    rw [h.2, Option.map_some, hbody] at hread
    cases hread

end Compiler

end MacroLisp
