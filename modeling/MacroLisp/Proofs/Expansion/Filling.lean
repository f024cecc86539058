import MacroLisp.Expansion.Definition
import MacroLisp.Proofs.Expansion.Draws
import MacroLisp.Proofs.Expansion.Transfer

namespace MacroLisp

variable {P : Expander → Prop} {t source target : MacroTable} {env : MacroEnv} {key : String} {b : MacroBinding}
  {e : Expander}

/-- Tables into which nothing has been put but macros of the kind `P`. -/
inductive MacroTable.Filled (P : Expander → Prop) : MacroTable → Prop
  | new (module : String) (mangle : String → String) : Filled P (.new module mangle)
  | insert {t : MacroTable} {b : MacroBinding} (h : Filled P t) (hb : P b.expander) : Filled P (t.insert b)
  | erase {t : MacroTable} (h : Filled P t) (name : String) : Filled P (t.erase name)
  | setExports {t : MacroTable} (h : Filled P t) (names : List String) : Filled P (t.setExports names)
  | insertReader {t : MacroTable} (h : Filled P t) (m : ReaderMacro) : Filled P (t.insertReader m)

namespace MacroTable.Filled

theorem of_getMangled? (h : t.Filled P) (hb : t.getMangled? key = some b) : b.name = key ∧ P b.expander := by
  induction h with
  | new module mangle => simp [MacroTable.new, getMangled?] at hb
  | insert _ hP ih =>
    rw [getMangled?_insert] at hb
    split at hb
    · next hname =>
      obtain rfl := Option.some.inj hb
      exact ⟨hname, hP⟩
    · exact ih hb
  | erase _ name ih =>
    refine ih ?_
    simp only [getMangled?, MacroTable.erase, Std.TreeMap.getElem?_erase] at hb
    split at hb
    · cases hb
    · exact hb
  | setExports _ names ih => exact ih hb
  | insertReader _ m ih => exact ih hb

theorem install (h : t.Filled P) (name : String) (he : P e) (doc : Option String) : (t.install name e doc).Filled P :=
  h.insert (b := t.binding name e doc) he

theorem installTemplate (h : t.Filled P) (name : String) {template : Template} (ht : P template.expander) :
    (t.installTemplate name template).Filled P := h.install name ht template.doc

theorem load (h : t.Filled P) (htemplates : ∀ template : Template, P template.expander) (forms : List Node) :
    (t.load forms).2.Filled P := by
  induction forms generalizing t with
  | nil => exact h
  | cons form forms ih =>
    rw [MacroTable.load]
    split
    · split
      · exact h
      · next d _ => exact ih (h.installTemplate d.name (htemplates d.template))
    · exact ih h

theorem loadText (h : t.Filled P) (htemplates : ∀ template : Template, P template.expander) (text : String) :
    (t.loadText text).2.Filled P := by
  unfold MacroTable.loadText
  split
  · exact h
  · next forms _ => exact h.load htemplates forms

theorem insertAll {bs : List MacroBinding} (h : t.Filled P) (hbs : ∀ b ∈ bs, P b.expander) :
    (t.insertAll bs).Filled P := by
  induction bs generalizing t with
  | nil => exact h
  | cons b bs ih =>
    obtain ⟨hb, hbs⟩ := List.forall_mem_cons.mp hbs
    exact ih (h.insert hb) hbs

theorem require (hsource : source.Filled P) (htarget : target.Filled P) (assignments : Assignments)
    (qualifier : Option String) : (source.require assignments qualifier target).2.Filled P := by
  rw [require_snd]
  refine htarget.insertAll fun b hb ↦ ?_
  split at hb
  · exact absurd hb List.not_mem_nil
  · obtain ⟨p, -, b', hb', rfl⟩ := exists_pair_of_mem_taken hb
    exact (hsource.of_getMangled? hb').2

end MacroTable.Filled

theorem Core.filled_table (hwhen : P expandWhen) (hunless : P expandUnless)
    (hfirst : P (expandThread "->" threadFirst)) (hlast : P (expandThread "->>" threadLast))
    (hgensyms : P expandWithGensyms) : table.Filled P := by
  have h := MacroTable.Filled.new (P := P) module Name.mangle
  exact ((((h.install "when" hwhen none).install "unless" hunless none).install "->" hfirst none).install "->>" hlast
    none).install "with-gensyms" hgensyms none

inductive MacroEnv.Filled (P : Expander → Prop) : MacroEnv → Prop
  | new {t core : MacroTable} (ht : t.Filled P) (hcore : core.Filled P) : Filled P (.new t core)
  | withTable {env : MacroEnv} {t : MacroTable} (h : Filled P env) (ht : t.Filled P) : Filled P { env with table := t }
  | pushScope {env : MacroEnv} (h : Filled P env) : Filled P env.pushScope
  | popScope {env : MacroEnv} (h : Filled P env) : Filled P env.popScope
  | installLocal {env : MacroEnv} {e : Expander} (h : Filled P env) (name : String) (he : P e) :
      Filled P (env.installLocal name e)

namespace MacroEnv.Filled

theorem core (h : env.Filled P) : env.core.Filled P := by
  induction h with
  | new _ hcore => exact hcore
  | withTable _ _ ih => exact ih
  | pushScope _ ih => exact ih
  | popScope _ ih => exact ih
  | @installLocal env _ _ name _ ih =>
    unfold MacroEnv.installLocal
    cases env.scopes <;> exact ih

theorem table (h : env.Filled P) : env.table.Filled P := by
  induction h with
  | new ht _ => exact ht
  | withTable _ ht _ => exact ht
  | pushScope _ ih => exact ih
  | popScope _ ih => exact ih
  | @installLocal env _ _ name he ih =>
    unfold MacroEnv.installLocal
    cases env.scopes with
    | nil => exact ih.install name he none
    | cons scope scopes => exact ih

theorem of_mem_scopes (h : env.Filled P) {scope : Bindings} (hscope : scope ∈ env.scopes) (hb : scope[key]? = some b) :
    b.name = key ∧ P b.expander := by
  induction h generalizing scope with
  | new _ _ => exact absurd hscope List.not_mem_nil
  | withTable _ _ ih => exact ih hscope hb
  | pushScope _ ih =>
    rcases List.mem_cons.mp hscope with rfl | hscope
    · simp at hb
    · exact ih hscope hb
  | popScope _ ih => exact ih (List.mem_of_mem_drop hscope) hb
  | @installLocal env e _ name he ih =>
    obtain ⟨t, core, scopes⟩ := env
    cases scopes with
    | nil => exact absurd hscope List.not_mem_nil
    | cons innermost scopes =>
      rcases List.mem_cons.mp hscope with rfl | hscope
      · rw [Std.TreeMap.getElem?_insert] at hb
        split at hb
        · next hname =>
          obtain rfl := Option.some.inj hb
          exact ⟨Std.LawfulEqCmp.eq_of_compare hname, he⟩
        · exact ih List.mem_cons_self hb
      · exact ih (List.mem_cons_of_mem _ hscope) hb

theorem require (h : env.Filled P) (hsource : source.Filled P) (assignments : Assignments)
    (qualifier : Option String) : (env.require source assignments qualifier).2.Filled P :=
  h.withTable (hsource.require h.table assignments qualifier)

theorem of_lookup (h : env.Filled P) {provenance : Provenance} (hb : env.lookup key = some (provenance, b)) :
    b.name = key ∧ P b.expander := by
  unfold lookup at hb
  split at hb
  · next b' hlocal =>
    obtain ⟨-, rfl⟩ := Prod.mk.inj (Option.some.inj hb)
    obtain ⟨scope, hscope, hget⟩ := List.exists_of_findSome?_eq_some hlocal
    exact h.of_mem_scopes hscope hget
  · split at hb
    · next b' hmodule =>
      obtain ⟨-, rfl⟩ := Prod.mk.inj (Option.some.inj hb)
      exact h.table.of_getMangled? hmodule
    · obtain ⟨b', hcore, he⟩ := Option.map_eq_some_iff.mp hb
      obtain ⟨-, rfl⟩ := Prod.mk.inj he
      exact h.core.of_getMangled? hcore

end MacroEnv.Filled

end MacroLisp
