import MacroLisp.Expansion.Template
import MacroLisp.Proofs.Expansion.Holes
import MacroLisp.Proofs.Lowering.Building
import MacroLisp.Proofs.Lowering.Preservation
import MacroLisp.Proofs.Node.Subnodes
import Mathlib.Data.List.Nodup

namespace MacroLisp

namespace Template

/-- A form that has the look of a hole is one: it has a single operand, and that is no splice. -/
def isSoundHole : Node → Bool
  | .sequence .paren (.symbol head _ :: operands) _ =>
    if head = "unquote" ∨ head = "unquote-splice" then
      match operands with
      | [operand] => !operand.isCallTo "unquote-splice"
      | _ => false
    else true
  | _ => true

end Template

namespace Lowering

open Host (Expr)
open Template (fill fillItems holes holesAll Hole isSoundHole)

variable {ι : Type} (env : String → Option Node) (scope : Scope) (lowers : ι → Node → LowerM (Option Expr))

/-- Both sides evaluate the operand of a hole to one tree, which has items if they are to be spliced in. -/
def Fits (h : Hole) : Prop :=
  ∃ e m, (∀ i, value (lowers i) h.operand = pure e) ∧ Template.eval scope h.operand = pure m ∧ Builds env e m ∧
    (h.spliced = true → ∃ ns, m.items? = some ns)

def Agrees (level : Nat) (n : Node) : Prop :=
  ∃ e m n', (∀ i, quote (lowers i) (some level) n = pure e) ∧ fill scope level n = pure m ∧ Builds env e n' ∧ n'.bare = m.bare

def AgreesAll (level : Nat) (ns : List Node) : Prop :=
  ∃ pieces ms nss, (∀ i, quoteItems (lowers i) (some level) ns = pure pieces) ∧ fillItems scope level ns = pure ms ∧
    List.Forall₂ (Piece.Adds env) pieces nss ∧ nss.flatten.map Node.bare = ms.map Node.bare

variable {env scope lowers} {lower : Node → LowerM (Option Expr)} {level : Nat} {n operand : Node} {ns : List Node} {d : Delimiter} {s hs : Span}
  {head : String}

def IsSplice (n : Node) : Prop := ∃ hs operand s, n = .form [.symbol "unquote-splice" hs, operand] s

theorem quoteItems_item {level : Option Nat} (h : ¬(level = some 1 ∧ IsSplice n)) :
    quoteItems lower level (n :: ns) = (do
      let e ← quote lower level n
      return .item e :: (← quoteItems lower level ns)) := by
  conv_lhs => unfold quoteItems
  split
  · next h' => cases h'
  · next h' =>
    cases h'
    rw [if_neg]
    rintro ⟨rfl, hl⟩
    exact h ⟨hl, _, _, _, rfl⟩
  · next h' =>
    cases h'
    rfl

theorem quoteItems_cons (h : ¬(level = 1 ∧ n.isCallTo "unquote-splice" = true)) :
    quoteItems lower (some level) (n :: ns) = (do
      let e ← quote lower (some level) n
      return .item e :: (← quoteItems lower (some level) ns)) := by
  refine quoteItems_item fun ⟨hl, hn⟩ ↦ h ⟨by simpa using hl, ?_⟩
  obtain ⟨hs, operand, s, rfl⟩ := hn
  rfl

theorem fillItems_cons (h : ¬(level = 1 ∧ n.isCallTo "unquote-splice" = true)) :
    fillItems scope level (n :: ns) = (do return (← fill scope level n) :: (← fillItems scope level ns)) := by
  conv_lhs => unfold fillItems
  split
  · next h' => cases h'
  · next h' =>
    cases h'
    exact absurd ⟨rfl, rfl⟩ h
  · next h' =>
    cases h'
    exact absurd ⟨rfl, rfl⟩ h
  · next h' =>
    cases h'
    rfl

theorem quoteItems_splice : quoteItems lower (some 1) (.form [.symbol "unquote-splice" hs, operand] s :: ns) = (do
    let e ← value lower operand
    return .splice e :: (← quoteItems lower (some 1) ns)) := by
  conv_lhs => unfold quoteItems
  simp [Node.form]

theorem quote_of_not_mark {level : Option ℕ} {d : Delimiter} (hmark : level = none ∨ ¬Template.IsMark d ns) (s : Span) :
    quote lower level (.sequence d ns s) = (do return quotedSequence d (← quoteItems lower level ns)) := by
  conv_lhs => unfold quote
  split
  · next head hs operand =>
    rcases hmark with hlevel | hmark
    · cases hlevel
    · exact absurd ⟨head, hs, operand, rfl, rfl⟩ hmark
  · rfl

theorem fillItems_splice : fillItems scope 1 (.form [.symbol "unquote-splice" hs, operand] s :: ns) = (do
    let ms ← Template.splice (← Template.eval scope operand)
    return ms ++ (← fillItems scope 1 ns)) := by
  conv_lhs => unfold fillItems
  simp [Node.form]

theorem agreesAll_nil : AgreesAll env scope lowers level [] :=
  ⟨[], [], [], by simp [quoteItems], by simp [fillItems], .nil, rfl⟩

theorem AgreesAll.cons (hs : ¬(level = 1 ∧ n.isCallTo "unquote-splice" = true)) (h : Agrees env scope lowers level n)
    (ht : AgreesAll env scope lowers level ns) : AgreesAll env scope lowers level (n :: ns) := by
  obtain ⟨e, m, n', hq, hf, hb, he⟩ := h
  obtain ⟨pieces, ms, nss, hqs, hfs, hbs, hes⟩ := ht
  refine ⟨.item e :: pieces, m :: ms, [n'] :: nss, ?_, ?_, .cons (.item hb) hbs, by simp [he, hes]⟩
  · intro i
    rw [quoteItems_cons hs, hq, hqs]
    simp only [pure_bind]
  · rw [fillItems_cons hs, hf, hfs]
    rfl

theorem AgreesAll.splice (h : Fits env scope lowers ⟨operand, true⟩) (ht : AgreesAll env scope lowers 1 ns) :
    AgreesAll env scope lowers 1 (.form [.symbol "unquote-splice" hs, operand] s :: ns) := by
  obtain ⟨e, m, hv, he, hb, hitems⟩ := h
  obtain ⟨items, hm⟩ := hitems rfl
  obtain ⟨pieces, ms, nss, hqs, hfs, hbs, hes⟩ := ht
  refine ⟨.splice e :: pieces, items ++ ms, items :: nss, ?_, ?_, .cons (.splice hb hm) hbs, by simp [hes]⟩
  · intro i
    rw [quoteItems_splice, hv, hqs]
    simp only [pure_bind]
  · have hsplice : Template.splice m = pure items := by simp [Template.splice, hm]
    dsimp only at he
    rw [fillItems_splice, he, hfs]
    change (Template.splice m >>= _) = _
    rw [hsplice]
    rfl

def IsMark (head : String) : Prop := head = "unquote" ∨ head = "unquote-splice" ∨ head = "quasiquote"

def levelUnder (head : String) (level : Nat) : Nat := if head = "quasiquote" then level + 1 else level - 1

theorem quote_symbol (name : String) : quote lower (some level) (.symbol name s) = pure (model "Symbol" (.string name)) := by
  simp [quote]

theorem quote_sequence (h : ∀ head hs operand, d = .paren → ns = [.symbol head hs, operand] → ¬IsMark head) :
    quote lower (some level) (.sequence d ns s) = (do return quotedSequence d (← quoteItems lower (some level) ns)) := by
  conv_lhs => unfold quote
  split
  · next head hs operand h' =>
    cases h'
    have hm := h head hs operand rfl rfl
    simp only [IsMark, not_or] at hm
    rw [quoteItems_cons (by simp [Node.isCallTo, Node.head?]), quote_symbol]
    simp [hm]
  · rfl

theorem fill_sequence (h : ∀ head hs operand, d = .paren → ns = [.symbol head hs, operand] → ¬IsMark head) :
    fill scope level (.sequence d ns s) = (do return .sequence d (← fillItems scope level ns) s) := by
  conv_lhs => unfold fill
  split
  · exact absurd (.inl rfl) (h _ _ _ rfl rfl)
  · exact absurd (.inr (.inl rfl)) (h _ _ _ rfl rfl)
  · exact absurd (.inr (.inr rfl)) (h _ _ _ rfl rfl)
  · rfl

theorem holes_sequence (h : ∀ head hs operand, d = .paren → ns = [.symbol head hs, operand] → ¬IsMark head) :
    holes level (.sequence d ns s) = holesAll level ns := by
  conv_lhs => unfold holes
  split
  · next head hs operand =>
    have hm := h head hs operand rfl rfl
    simp only [IsMark, not_or] at hm
    simp [hm, holesAll, holes]
  · rfl

theorem Agrees.sequence (h : ∀ head hs operand, d = .paren → ns = [.symbol head hs, operand] → ¬IsMark head)
    (hns : AgreesAll env scope lowers level ns) : Agrees env scope lowers level (.sequence d ns s) := by
  obtain ⟨pieces, ms, nss, hqs, hfs, hbs, hes⟩ := hns
  refine ⟨quotedSequence d pieces, .sequence d ms s, .sequence d nss.flatten .nowhere, ?_, ?_,
    builds_quotedSequence hbs, by simp [Node.bare, hes]⟩
  · intro i
    rw [quote_sequence h, hqs, pure_bind]
  · rw [fill_sequence h, hfs]
    rfl

section Marks

variable (hm : IsMark head) (hlevel : head = "quasiquote" ∨ level ≠ 1)

include hm hlevel

theorem quote_mark : quote lower (some level) (.form [.symbol head hs, operand] s) = (do
    return quotedSequence .paren (.item (model "Symbol" (.string head)) ::
      (← quoteItems lower (some (levelUnder head level)) [operand]))) := by
  rcases hm with rfl | rfl | rfl <;> simp_all [Node.form, quote, levelUnder]

theorem fill_mark : fill scope level (.form [.symbol head hs, operand] s) = (do
    return .form [.symbol head hs, ← fill scope (levelUnder head level) operand] s) := by
  rcases hm with rfl | rfl | rfl <;> simp_all [Node.form, fill, levelUnder]

theorem holes_mark : holes level (.form [.symbol head hs, operand] s) = holes (levelUnder head level) operand := by
  rcases hm with rfl | rfl | rfl <;> simp_all [Node.form, holes, levelUnder]

theorem Agrees.mark (hsplice : ¬(levelUnder head level = 1 ∧ operand.isCallTo "unquote-splice" = true))
    (h : Agrees env scope lowers (levelUnder head level) operand) :
    Agrees env scope lowers level (.form [.symbol head hs, operand] s) := by
  obtain ⟨e, m, n', hq, hf, hb, he⟩ := h
  have hqs : ∀ i, quoteItems (lowers i) (some (levelUnder head level)) [operand] = pure [.item e] := by
    intro i
    rw [quoteItems_cons hsplice, hq]
    simp [quoteItems]
  refine ⟨quotedSequence .paren [.item (model "Symbol" (.string head)), .item e], .form [.symbol head hs, m] s,
    .sequence .paren [.symbol head .nowhere, n'] .nowhere, ?_, ?_,
    builds_quotedSequence (.cons (.item (builds_symbol head)) (.cons (.item hb) .nil)), ?_⟩
  · intro i
    rw [quote_mark hm hlevel, hqs, pure_bind]
  · rw [fill_mark hm hlevel, hf]
    rfl
  · simp [Node.form, Node.bare, he]

end Marks

theorem Agrees.hole (h : Fits env scope lowers ⟨operand, false⟩) :
    Agrees env scope lowers 1 (.form [.symbol "unquote" hs, operand] s) := by
  obtain ⟨e, m, hv, he, hb, -⟩ := h
  exact ⟨e, m, m, by simpa [Node.form, quote] using hv, by simpa [Node.form, fill] using he, hb, rfl⟩

theorem exists_of_isCallTo (h : n.isCallTo head = true) : ∃ hs operands s, n = .form (.symbol head hs :: operands) s := by
  simp only [Node.isCallTo, beq_iff_eq] at h
  unfold Node.head? at h
  split at h
  · cases h
    exact ⟨_, _, _, rfl⟩
  · cases h

theorem agreesAll (hsound : ∀ n ∈ ns, isSoundHole n = true) (hfits : ∀ h ∈ holesAll level ns, Fits env scope lowers h)
    (h : ∀ n ∈ ns, ¬(level = 1 ∧ n.isCallTo "unquote-splice" = true) → (∀ h ∈ holes level n, Fits env scope lowers h) →
      Agrees env scope lowers level n) : AgreesAll env scope lowers level ns := by
  induction ns with
  | nil => exact agreesAll_nil
  | cons n ns ih =>
    simp only [holesAll, List.mem_append, or_imp, forall_and] at hfits
    obtain ⟨hn, hns⟩ := List.forall_mem_cons.mp h
    obtain ⟨hnsound, hnssound⟩ := List.forall_mem_cons.mp hsound
    have htail := ih hnssound hfits.2 hns
    by_cases hs : level = 1 ∧ n.isCallTo "unquote-splice" = true
    · obtain ⟨rfl, hcall⟩ := hs
      obtain ⟨hs, operands, s, rfl⟩ := exists_of_isCallTo hcall
      obtain ⟨operand, rfl⟩ : ∃ operand, operands = [operand] := by
        simp only [Node.form, isSoundHole, or_true, if_true] at hnsound
        split at hnsound
        · exact ⟨_, rfl⟩
        · cases hnsound
      exact .splice (hfits.1 ⟨operand, true⟩ (by simp [Node.form, holes])) htail
    · exact .cons hs (hn hs hfits.1) htail

theorem levelUnder_sound (hm : IsMark head) (hout : head = "quasiquote" ∨ level ≠ 1) (hlevel : 1 ≤ level)
    (hsound : isSoundHole (.form [.symbol head hs, operand] s) = true) :
    1 ≤ levelUnder head level ∧ ¬(levelUnder head level = 1 ∧ operand.isCallTo "unquote-splice" = true) := by
  by_cases hq : head = "quasiquote"
  · simp only [levelUnder, hq, if_true]
    omega
  · have hne := hout.resolve_left hq
    have hhole : head = "unquote" ∨ head = "unquote-splice" := by
      rcases hm with h | h | h
      · exact .inl h
      · exact .inr h
      · exact absurd h hq
    have hplain : operand.isCallTo "unquote-splice" = false := by
      simpa [Node.form, isSoundHole, hhole] using hsound
    simp only [levelUnder, hq, if_false, hplain]
    exact ⟨by omega, by simp⟩

theorem agrees (n : Node) (hsound : ∀ m ∈ n.subnodes, isSoundHole m = true) (hlevel : 1 ≤ level)
    (hsplice : ¬(level = 1 ∧ n.isCallTo "unquote-splice" = true)) (hfits : ∀ h ∈ holes level n, Fits env scope lowers h) :
    Agrees env scope lowers level n := by
  induction n using Node.induct generalizing level with
  | symbol name s => exact ⟨_, .symbol name s, _, by simp [quote], by simp [fill], builds_symbol name, rfl⟩
  | literal value s => exact ⟨_, .literal value s, _, by simp [quote], by simp [fill], builds_quotedLiteral value, rfl⟩
  | sequence d items s ih =>
    have hitem : ∀ n ∈ items, ∀ m ∈ n.subnodes, isSoundHole m = true := fun n hn m hm ↦
      hsound m (List.mem_cons_of_mem _ (Node.mem_subnodesAll.mpr ⟨n, hn, hm⟩))
    by_cases hmark : ∃ head hs operand, d = .paren ∧ items = [.symbol head hs, operand] ∧ IsMark head
    · obtain ⟨head, hs, operand, rfl, rfl, hm⟩ := hmark
      have hself : isSoundHole (.form [.symbol head hs, operand] s) = true := hsound _ (List.mem_cons_self ..)
      by_cases hout : head = "quasiquote" ∨ level ≠ 1
      · obtain ⟨hunder, hplain⟩ := levelUnder_sound hm hout hlevel hself
        rw [← Node.form, holes_mark hm hout] at hfits
        exact .mark hm hout hplain (ih operand (by simp) (hitem operand (by simp)) hunder hplain hfits)
      · obtain ⟨hq, rfl⟩ : head ≠ "quasiquote" ∧ level = 1 := by simpa using hout
        rcases hm with rfl | rfl | rfl
        · exact .hole (hfits ⟨operand, false⟩ (by simp [holes]))
        · exact absurd ⟨rfl, rfl⟩ hsplice
        · exact absurd rfl hq
    · have hno : ∀ head hs operand, d = .paren → items = [.symbol head hs, operand] → ¬IsMark head :=
        fun head hs operand hd hitems hm ↦ hmark ⟨head, hs, operand, hd, hitems, hm⟩
      rw [holes_sequence hno] at hfits
      exact .sequence hno (agreesAll (fun n hn ↦ hitem n hn n n.self_mem_subnodes) hfits
        fun n hn ↦ ih n hn (hitem n hn) hlevel)

/-- What the mangled names stand for at run time. -/
def environment (scope : Scope) (id : String) : Option Node := (scope.map fun p ↦ (Name.mangle p.1, p.2)).lookup id

theorem mem_keys_of_lookup {scope : Scope} {name : String} {m : Node} (h : scope.lookup name = some m) :
    name ∈ scope.map Prod.fst := by
  obtain ⟨before, after, rfl, -⟩ := List.lookup_eq_some_iff.mp h
  simp

theorem exists_lookup {scope : Scope} {name : String} (h : name ∈ scope.map Prod.fst) :
    ∃ m, scope.lookup name = some m := by
  obtain ⟨p, hp, rfl⟩ := List.mem_map.mp h
  rw [← Option.isSome_iff_exists, List.lookup_isSome_iff]
  exact ⟨p, hp, beq_self_eq_true p.1⟩

theorem environment_mangle {scope : Scope} {name : String} {m : Node}
    (hnodup : ((scope.map Prod.fst).map Name.mangle).Nodup) (h : scope.lookup name = some m) :
    environment scope (Name.mangle name) = some m := by
  induction scope with
  | nil => cases h
  | cons p scope ih =>
    obtain ⟨key, m'⟩ := p
    obtain ⟨hkey, hrest⟩ := List.nodup_cons.mp hnodup
    rw [List.lookup_cons] at h
    rw [environment, List.map_cons, List.lookup_cons]
    split at h
    · next he => simpa [eq_of_beq he] using h
    · have hne : (Name.mangle name == Name.mangle key) = false := by
        refine beq_eq_false_iff_ne.mpr fun he ↦ hkey ?_
        exact he ▸ List.mem_map_of_mem (mem_keys_of_lookup h)
      simp only [hne]
      exact ih hrest h

theorem keys_bind {p : Params} {args : List Node} (h : p.accepts args.length = true) (s : Span) :
    (p.bind args s).map Prod.fst = p.names.reverse := by
  have hle : p.required.length ≤ args.length := by
    unfold Params.accepts at h
    split at h
    · simpa using h
    · exact (eq_of_beq h).ge
  simp [Params.bind, Params.names, List.map_reverse, List.map_fst_zip hle, Function.comp_def]

structure IsParameter (p : Params) (name : String) : Prop where
  mem : name ∈ p.names
  undotted : '.' ∉ name.toList
  not_reserved : name ∉ ["None", "True", "False", "hy", "list"]

theorem lowerPlain_succ (fuel : Nat) (n : Node) : lowerPlain (fuel + 1) n = expanded (lowerPlain fuel) n := by
  rw [lowerPlain, Compiler.lower, Compiler.expand, pure_bind]
  rfl

theorem IsParameter.value_lowerPlain {p : Params} {name : String} (h : IsParameter p name) (fuel : Nat) :
    value (lowerPlain (fuel + 1)) (.symbol name s) = pure (.load (Name.mangle name)) := by
  have hconstant : Meaning.constantOf? name = none := by
    have hn := h.not_reserved
    unfold Meaning.constantOf?
    split <;> simp_all
  have hlower : lowerPlain (fuel + 1) (.symbol name s) = pure (some (.load (Name.mangle name))) := by
    rw [lowerPlain_succ, expanded, symbol_eq h.undotted]
    simp only [hconstant, ofExcept, map_pure]
  rw [value, hlower, pure_bind]
  rfl

theorem IsParameter.builds {p : Params} {name : String} {m : Node} {scope : Scope} (h : IsParameter p name)
    (hnames : ((scope.map Prod.fst).map Name.mangle).Nodup) (hm : scope.lookup name = some m) :
    Builds (environment scope) (.load (Name.mangle name)) m := by
  have hn := h.not_reserved
  refine builds_load (fun he ↦ ?_) (fun he ↦ ?_) (environment_mangle hnames hm)
  · have := Name.eq_of_mangle_eq h.undotted (by decide) he
    simp [this] at hn
  · have := Name.eq_of_mangle_eq h.undotted (by decide) he
    simp [this] at hn

/-- Lowering a template and filling it come to one tree, for any parameters and arguments. -/
theorem quasiquote_agrees {p : Params} {template : Node} {call : MacroCall} (doc : Option String) (hs s : Span)
    (hnames : (p.names.map Name.mangle).Nodup) (hsound : ∀ n ∈ template.subnodes, isSoundHole n = true)
    (hsplice : template.isCallTo "unquote-splice" = false) (harity : p.accepts call.args.length = true)
    (hholes : ∀ h ∈ holes 1 template, ∃ name s', h.operand = .symbol name s' ∧ IsParameter p name ∧
      (h.spliced = true → ∀ m, (p.bind call.args call.form.span).lookup name = some m → m.items?.isSome = true)) :
    ∃ e filled n,
      (∀ fuel w, (Compiler.mk none).module (fuel + 2) false [.form [.symbol "quasiquote" hs, template] s] w =
        some ⟨.ok ⟨[.expr e]⟩, [], w⟩) ∧
      Template.expander ⟨p, .form [.symbol "quasiquote" hs, template] s, doc⟩ call = .done (.form filled) ∧
      Builds (environment (p.bind call.args call.form.span)) e n ∧ n.bare = filled.bare := by
  have hfits : ∀ h ∈ holes 1 template, Fits (environment (p.bind call.args call.form.span))
      (p.bind call.args call.form.span) (fun fuel ↦ lowerPlain (fuel + 1)) h := by
    intro h hh
    obtain ⟨name, s', hoperand, hname, hitems⟩ := hholes h hh
    have hkeys := keys_bind harity call.form.span
    have hnodup : (((p.bind call.args call.form.span).map Prod.fst).map Name.mangle).Nodup := by
      rwa [hkeys, List.map_reverse, List.nodup_reverse]
    obtain ⟨m, hm⟩ := exists_lookup (hkeys.symm ▸ List.mem_reverse.mpr hname.mem)
    rw [Fits, hoperand]
    refine ⟨_, m, hname.value_lowerPlain, ?_, hname.builds hnodup hm, fun hspliced ↦ ?_⟩
    · simp only [Template.eval, hm]
    · exact Option.isSome_iff_exists.mp (hitems hspliced m hm)
  obtain ⟨e, filled, n, hquote, hfill, hbuilds, hbare⟩ :=
    agrees template hsound le_rfl (by simp [hsplice]) hfits
  refine ⟨e, filled, n, fun fuel w ↦ ?_, ?_, hbuilds, hbare⟩
  · have hlower : lowerPlain (fuel + 2) (.form [.symbol "quasiquote" hs, template] s) = pure (some e) := by
      rw [lowerPlain_succ]
      change some <$> quote (lowerPlain (fuel + 1)) (some 1) template = _
      rw [hquote, map_pure]
    rw [Compiler.module, Compiler.statements]
    change ((lowerPlain (fuel + 2) _ >>= _).collect >>= _) w = _
    rw [hlower, pure_bind]
    rfl
  · rw [Template.expander, if_pos harity]
    change (Template.eval _ (.sequence .paren [.symbol "quasiquote" hs, template] s) >>= _) = _
    rw [Template.eval, hfill]
    rfl

/-- A template with a hole, a hole of the first level two quasiquotes deep, and a splice. -/
def deepTemplate : Node :=
  let hole (head name : String) : Node := .form [.symbol head .nowhere, .symbol name .nowhere] .nowhere
  .form [.symbol "a" .nowhere, hole "unquote" "my-x",
    .form [.symbol "quasiquote" .nowhere, .form [.symbol "b" .nowhere,
      .form [.symbol "unquote-splice" .nowhere, hole "unquote" "my-x"] .nowhere] .nowhere] .nowhere,
    .sequence .bracket [.literal (.int 1) .nowhere, hole "unquote-splice" "ys", .literal (.keyword "k") .nowhere]
      .nowhere] .nowhere

/-- The first argument is for `my-x`, the others are for `ys`. -/
def deepCall : MacroCall where
  module := "m"
  form := .form [] .nowhere
  args := [.sequence .brace [] .nowhere, .symbol "c" .nowhere, .literal (.int 2) .nowhere]

theorem quasiquote_agrees_deepTemplate :
    (∀ n ∈ deepTemplate.subnodes, isSoundHole n = true) ∧ deepTemplate.isCallTo "unquote-splice" = false ∧
    ∃ e filled n,
      (∀ fuel w, (Compiler.mk none).module (fuel + 2) false
        [.form [.symbol "quasiquote" .nowhere, deepTemplate] .nowhere] w = some ⟨.ok ⟨[.expr e]⟩, [], w⟩) ∧
      Template.expander ⟨⟨["my-x"], some "ys"⟩, .form [.symbol "quasiquote" .nowhere, deepTemplate] .nowhere, none⟩
        deepCall = .done (.form filled) ∧
      Builds (environment ((Params.mk ["my-x"] (some "ys")).bind deepCall.args deepCall.form.span)) e n ∧
      n.bare = filled.bare := by
  have hx : IsParameter ⟨["my-x"], some "ys"⟩ "my-x" := ⟨by decide, by decide, by decide⟩
  have hys : IsParameter ⟨["my-x"], some "ys"⟩ "ys" := ⟨by decide, by decide, by decide⟩
  have hsound : ∀ n ∈ deepTemplate.subnodes, isSoundHole n = true := by decide
  refine ⟨hsound, rfl, quasiquote_agrees (p := ⟨["my-x"], some "ys"⟩) none .nowhere .nowhere (by decide) hsound rfl rfl ?_⟩
  have hholes : holes 1 deepTemplate = [⟨.symbol "my-x" .nowhere, false⟩, ⟨.symbol "my-x" .nowhere, false⟩,
    ⟨.symbol "ys" .nowhere, true⟩] := rfl
  simp only [hholes, List.mem_cons, List.not_mem_nil, or_false, forall_eq_or_imp, forall_eq]
  refine ⟨⟨"my-x", .nowhere, rfl, hx, by simp⟩, ⟨"my-x", .nowhere, rfl, hx, by simp⟩, "ys", .nowhere, rfl, hys, ?_⟩
  intro _ m hm
  cases hm
  rfl

end Lowering

end MacroLisp
