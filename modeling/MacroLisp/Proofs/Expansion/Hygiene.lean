import MacroLisp.Proofs.Expansion.Notes
import MacroLisp.Proofs.Name.Fresh
import Mathlib.Data.List.Nodup

namespace MacroLisp

open NameSupply (counterText)

variable {ε ε' α β : Type} {events log : List Event} {count : Nat}

def drawn (events : List Event) : List String := events.filterMap Event.name?

def produced (events : List Event) : List Node := events.filterMap Event.tree?

def drawnSet (events : List Event) : Set String := fun name ↦ name ∈ drawn events

theorem drawn_append (events log : List Event) : drawn (events ++ log) = drawn events ++ drawn log :=
  List.filterMap_append

theorem drawnSet_subset (events log : List Event) : drawnSet events ⊆ drawnSet (events ++ log) := by
  intro name h
  change name ∈ drawn (events ++ log)
  rw [drawn_append]
  exact List.mem_append_left _ h

theorem drawnSet_drew (events : List Event) (call : Node) (name : String) :
    drawnSet (events ++ [.drew call name]) = insert name (drawnSet events) := by
  ext name'
  change name' ∈ drawn (events ++ [.drew call name]) ↔ name' = name ∨ name' ∈ drawn events
  simp [drawn, Event.name?, or_comm]

/-- Each name is drawn once, for a call that does not have it, when no tree has it. -/
def Hygienic (events : List Event) : Prop :=
  (drawn events).Nodup ∧ ∀ before call name after, events = before ++ .drew call name :: after →
    ¬call.Mentions name ∧ ∀ n ∈ produced before, ¬n.Mentions name

theorem Hygienic.snoc (h : Hygienic events) {e : Event} (hnodup : (drawn (events ++ [e])).Nodup)
    (hlast : ∀ call name, e = .drew call name → ¬call.Mentions name ∧ ∀ n ∈ produced events, ¬n.Mentions name) :
    Hygienic (events ++ [e]) := by
  refine ⟨hnodup, fun before call name after hsplit ↦ ?_⟩
  rcases List.eq_nil_or_concat after with rfl | ⟨after, e', rfl⟩
  · obtain ⟨rfl, he⟩ := List.append_inj' hsplit rfl
    exact hlast call name (List.cons.inj he).1
  · rw [List.concat_eq_append, ← List.cons_append, ← List.append_assoc] at hsplit
    exact h.2 before call name after (List.append_inj' hsplit rfl).1

/-- What a run keeps up with a supply of names from its beginning on. -/
structure Sound (events : List Event) (count : Nat) : Prop where
  hygienic : Hygienic events
  counted : ∀ name ∈ drawn events, ∃ k ≤ count, counterText name.toList = k.repr.toList
  known : ∀ n ∈ produced events, n.Known (drawnSet events)

theorem sound_nil : Sound [] 0 where
  hygienic := ⟨List.nodup_nil, by simp⟩
  counted := by simp [drawn]
  known := by simp [produced]

theorem Sound.tree (h : Sound events count) {e : Event} {n : Node} (he : e.tree? = some n) (hname : e.name? = none)
    (hn : n.Known (drawnSet events)) : Sound (events ++ [e]) count := by
  have hdrawn : drawn (events ++ [e]) = drawn events := by simp [drawn, hname]
  refine ⟨h.hygienic.snoc ?_ ?_, ?_, ?_⟩
  · rw [hdrawn]
    exact h.hygienic.1
  · rintro call name rfl
    cases hname
  · rw [hdrawn]
    exact h.counted
  · intro m hm
    have hm' : m ∈ produced events ∨ m = n := by simpa [produced, he] using hm
    refine Node.Known.mono ?_ (drawnSet_subset events [e])
    rcases hm' with hm | rfl
    · exact h.known m hm
    · exact hn

theorem reserved_and_counter_fresh (count : Nat) (hint : String) :
    NameSupply.isReserved (NameSupply.fresh ⟨Name.mangle, count⟩ hint).1 = true ∧
      counterText (NameSupply.fresh ⟨Name.mangle, count⟩ hint).1.toList = (count + 1).repr.toList := by
  obtain ⟨t, htext, -, hcounter⟩ := NameSupply.exists_fresh count hint
  rw [NameSupply.isReserved, htext, List.isPrefixOf_iff_prefix]
  exact ⟨List.prefix_append _ _, hcounter⟩

theorem Sound.fresh_new (h : Sound events count) (hint : String) :
    (NameSupply.fresh ⟨Name.mangle, count⟩ hint).1 ∉ drawn events ∧
      ∀ n : Node, n.Known (drawnSet events) → ¬n.Mentions (NameSupply.fresh ⟨Name.mangle, count⟩ hint).1 := by
  obtain ⟨hreserved, hcounter⟩ := reserved_and_counter_fresh count hint
  have hnew : (NameSupply.fresh ⟨Name.mangle, count⟩ hint).1 ∉ drawn events := by
    intro hm
    obtain ⟨k, hk, hcounter'⟩ := h.counted _ hm
    rw [hcounter, String.toList_inj] at hcounter'
    have := Nat.repr_injective hcounter'
    omega
  exact ⟨hnew, fun n hn hm ↦ hnew (hn _ hm hreserved)⟩

theorem Sound.drew (h : Sound events count) {call : Node} (hcall : call.Known (drawnSet events)) (hint : String) :
    Sound (events ++ [.drew call (NameSupply.fresh ⟨Name.mangle, count⟩ hint).1]) (count + 1) := by
  obtain ⟨hnew, hmentions⟩ := h.fresh_new hint
  have hcounter := (reserved_and_counter_fresh count hint).2
  generalize (NameSupply.fresh ⟨Name.mangle, count⟩ hint).1 = name at hnew hmentions hcounter ⊢
  have hdrawn : drawn (events ++ [.drew call name]) = drawn events ++ [name] := by simp [drawn, Event.name?]
  refine ⟨h.hygienic.snoc ?_ ?_, ?_, ?_⟩
  · rw [hdrawn]
    exact List.Nodup.append h.hygienic.1 (List.nodup_singleton name) (List.disjoint_singleton.mpr hnew)
  · rintro _ _ ⟨⟩
    exact ⟨hmentions call hcall, fun n hn ↦ hmentions n (h.known n hn)⟩
  · rw [hdrawn]
    intro name' hm
    rcases List.mem_append.mp hm with hm | hm
    · obtain ⟨k, hk, hcounter'⟩ := h.counted name' hm
      exact ⟨k, by omega, hcounter'⟩
    · obtain rfl := List.mem_singleton.mp hm
      exact ⟨count + 1, le_rfl, hcounter⟩
  · intro n hn
    have hn' : n ∈ produced events := by simpa [produced, Event.tree?] using hn
    exact (h.known n hn').mono (drawnSet_subset events _)

/-- After a sound beginning the process comes to an outcome, goes on soundly until then, and what it returns has
the property. -/
def Keeps (events : List Event) (p : Noted ε α) (Q : Set String → α → Prop) : Prop :=
  ∀ w, w.names.mangle = Name.mangle → Sound events w.names.count →
    ∃ o, p w = some o ∧ o.world.names.mangle = Name.mangle ∧ Sound (events ++ o.log) o.world.names.count ∧
      ∀ a, o.result = .ok a → Q (drawnSet (events ++ o.log)) a

namespace Keeps

variable {p : Noted ε α} {f : α → Noted ε β} {Q : Set String → α → Prop} {R : Set String → β → Prop} {a : α}

theorem pure (h : Q (drawnSet events) a) : Keeps events (Pure.pure a : Noted ε α) Q := by
  intro w hw hs
  refine ⟨⟨.ok a, [], w⟩, rfl, hw, ?_, ?_⟩
  · rwa [List.append_nil]
  · rintro _ ⟨⟩
    rwa [List.append_nil]

theorem throw (e : Option ε) : Keeps events (.throw e : Noted ε α) Q := by
  intro w hw hs
  refine ⟨⟨.error e, [], w⟩, rfl, hw, ?_, by rintro _ ⟨⟩⟩
  rwa [List.append_nil]

theorem bind (h : Keeps events p Q)
    (hf : ∀ log a, Q (drawnSet (events ++ log)) a → Keeps (events ++ log) (f a) R) : Keeps events (p >>= f) R := by
  intro w hw hs
  obtain ⟨⟨r, log, w'⟩, hp, hw', hs', hq⟩ := h w hw hs
  cases r with
  | error e => exact ⟨⟨.error e, log, w'⟩, Process.bind_of_error hp, hw', hs', by rintro _ ⟨⟩⟩
  | ok a =>
    obtain ⟨o, ho, hrest⟩ := hf log a (hq a rfl) w' hw' hs'
    refine ⟨{ o with log := log ++ o.log }, ?_, ?_⟩
    · rw [Process.bind_of_ok hp, ho]
      rfl
    · rwa [List.append_assoc] at hrest

theorem mapError (h : Keeps events p Q) (g : Option ε → Option ε') : Keeps events (p.mapError g) Q := by
  intro w hw hs
  obtain ⟨⟨r, log, w'⟩, hp, hw', hs', hq⟩ := h w hw hs
  refine ⟨⟨r.mapError g, log, w'⟩, by simp [Process.mapError, hp], hw', hs', fun a ha ↦ hq a ?_⟩
  cases r with
  | error e => cases ha
  | ok a' =>
    cases ha
    rfl

theorem tree {e : Event} {n : Node} (he : e.tree? = some n) (hname : e.name? = none) (hn : n.Known (drawnSet events)) :
    Keeps events (.record e : Noted ε Unit) fun _ _ ↦ True :=
  fun w hw hs ↦ ⟨⟨.ok (), [e], w⟩, rfl, hw, hs.tree he hname hn, fun _ _ ↦ trivial⟩

theorem draw {call : Node} (hcall : call.Known (drawnSet events)) (hint : String) {f : String → Noted ε β}
    (hf : ∀ name, Keeps (events ++ [.drew call name]) (f name) R) :
    Keeps events (.freshName hint >>= fun name ↦ .record (.drew call name) >>= fun _ ↦ f name) R := by
  rintro ⟨⟨mangle, count⟩, resolver⟩ (rfl : mangle = Name.mangle) hs
  obtain ⟨o, ho, hrest⟩ := hf _ ⟨⟨Name.mangle, count + 1⟩, resolver⟩ rfl (hs.drew hcall hint)
  refine ⟨{ o with log := .drew call (NameSupply.fresh ⟨Name.mangle, count⟩ hint).1 :: o.log }, ?_, ?_⟩
  · rw [Process.bind_of_ok rfl, Process.bind_of_ok rfl, Option.map_map]
    exact Option.map_eq_some_iff.mpr ⟨o, ho, rfl⟩
  · rwa [List.append_assoc] at hrest

end Keeps

theorem keeps_note {a : Action α} {Q : Set String → α → Prop} {call : Node} (h : a.Draws Q (drawnSet events))
    (hcall : call.Known (drawnSet events)) : Keeps events (a.note call) Q := by
  induction a generalizing events with
  | done a => exact .pure h
  | fail why => exact .throw _
  | fresh hint next ih =>
    refine .draw hcall hint fun name ↦ ih _ ?_ (hcall.mono (drawnSet_subset events _))
    rw [drawnSet_drew]
    exact h name
  | expand once form next => exact h.elim
  | resolve query next => exact h.elim

namespace Expansion

variable {x : Expansion} {n : Node} {ns : List Node}

theorem keeps_built (h : n.Known (drawnSet events)) :
    Keeps events (noteBuilt n) fun D m ↦ m.Known D := by
  refine (Keeps.tree rfl rfl h).bind fun log _ _ ↦ .pure (h.mono (drawnSet_subset events log))

theorem keeps_head (hx : ∀ name p b, x.lookup name = some (p, b) → b.expander.DrawsKnown) (fuel : Nat) (mode : Mode)
    (steps : Nat) (h : n.Known (drawnSet events)) :
    Keeps events (x.noteHead fuel mode steps n) fun D e ↦ e.node.Known D := by
  induction fuel generalizing events n steps with
  | zero => exact .throw none
  | succ fuel ih =>
    rw [noteHead]
    rcases hc : x.callee? n with _ | ⟨provenance, b⟩
    · exact .pure h
    have hb : b.expander.DrawsKnown := by
      obtain ⟨head, -, hlookup⟩ := Option.bind_eq_some_iff.mp hc
      exact hx _ _ _ hlookup
    dsimp only
    split
    · exact .throw _
    · refine ((keeps_note (hb _ _ h (Node.AllNames.args h)) h).mapError _).bind fun log out hout ↦ ?_
      obtain ⟨output, rfl, hknown⟩ := hout
      have hplaced := (Node.known_placedAt (s := n.span)).mpr hknown
      refine (Keeps.tree rfl rfl hplaced).bind fun log' _ _ ↦ ?_
      have hplaced' := hplaced.mono (drawnSet_subset _ log')
      split
      · exact .pure hplaced'
      · exact ih _ hplaced'

theorem keeps_mapM {f : Node → Noted ExpansionError Node}
    (hf : ∀ n ∈ ns, ∀ events, n.Known (drawnSet events) → Keeps events (f n) fun D m ↦ m.Known D)
    (h : ∀ n ∈ ns, n.Known (drawnSet events)) : Keeps events (ns.mapM f) fun D ms ↦ ∀ m ∈ ms, m.Known D := by
  induction ns generalizing events with
  | nil => exact .pure (by simp)
  | cons n ns ih =>
    obtain ⟨hfn, hfns⟩ := List.forall_mem_cons.mp hf
    obtain ⟨hn, hns⟩ := List.forall_mem_cons.mp h
    rw [List.mapM_cons]
    refine (hfn _ hn).bind fun log m hm ↦ ?_
    refine (ih hfns fun n hn ↦ (hns n hn).mono (drawnSet_subset events log)).bind fun log' ms hms ↦ .pure ?_
    exact List.forall_mem_cons.mpr ⟨hm.mono (drawnSet_subset _ log'), hms⟩

section Walk

variable {expand : Node → Noted ExpansionError Node}
  (he : ∀ n events, n.Known (drawnSet events) → Keeps events (expand n) fun D m ↦ m.Known D)

include he

theorem keeps_template (level : Nat) (h : n.Known (drawnSet events)) :
    Keeps events (noteTemplate expand level n) fun D m ↦ m.Known D := by
  induction n using Node.induct generalizing events level with
  | symbol name s =>
    unfold noteTemplate
    exact .pure h
  | literal value s =>
    unfold noteTemplate
    exact .pure h
  | sequence d items span ih =>
    have hknown := Node.known_sequence.mp h
    unfold noteTemplate
    split
    · next head s operand _ hshape =>
      cases hshape
      obtain ⟨hhead, hoperand⟩ : (Node.symbol head s).Known (drawnSet events) ∧ operand.Known (drawnSet events) :=
        ⟨hknown _ (by simp), hknown _ (by simp)⟩
      have hmark : ∀ p : Noted ExpansionError Node, Keeps events p (fun D m ↦ m.Known D) →
          Keeps events (p >>= fun m ↦ pure (.form [.symbol head s, m] span)) fun D (m : Node) ↦ m.Known D := by
        intro p hp
        refine hp.bind fun log m hm ↦ .pure (Node.known_form.mpr ?_)
        simpa using ⟨hhead.mono (drawnSet_subset events log), hm⟩
      split
      · split
        · exact hmark _ (he _ _ hoperand)
        · exact hmark _ (ih operand (by simp) _ hoperand)
      · split <;> exact hmark _ (ih operand (by simp) _ hoperand)
    · next hshape =>
      cases hshape
      rw [noteTemplateItems_eq_mapM]
      refine (keeps_mapM (fun n hn events ↦ ih n hn _) hknown).bind fun log ms hms ↦ .pure ?_
      exact Node.known_sequence.mpr hms
    · exact .pure h

theorem keeps_parts {e : Expanded} (h : e.node.Known (drawnSet events)) :
    Keeps events (noteParts expand e) fun D m ↦ m.Known D := by
  unfold noteParts
  split
  · exact .pure h
  split
  · exact keeps_template he 0 h
  split
  · next hnode =>
    rw [hnode] at h
    exact (keeps_mapM (fun n _ ↦ he n) (Node.known_sequence.mp h)).bind fun log ms hms ↦ .pure (Node.known_sequence.mpr hms)
  · exact .pure h

end Walk

section Run

variable (hx : ∀ name p b, x.lookup name = some (p, b) → b.expander.DrawsKnown)

include hx

theorem keeps_all (fuel : Nat) (h : n.Known (drawnSet events)) :
    Keeps events (x.noteAll fuel n) fun D m ↦ m.Known D := by
  induction fuel generalizing events n with
  | zero => exact .throw none
  | succ fuel ih =>
    refine (keeps_head hx fuel .value 0 h).bind fun log e hexp ↦ ?_
    exact (keeps_parts (fun n events ↦ ih) hexp).bind fun log' m hm ↦ keeps_built hm

theorem keeps_macroexpand (fuel : Nat) (h : n.Known (drawnSet events)) :
    Keeps events (x.noteMacroexpand fuel n) fun D m ↦ m.Known D :=
  (keeps_head hx fuel .full 0 h).bind fun _ _ hexp ↦ keeps_built hexp

end Run

end Expansion

/-- A session with one supply of names from its start on. It expands forms of a list and what came of them, at
their head or as a whole, each time with a limit and a number of steps of its own. -/
inductive Session (x : Expansion) (forms : List Node) : List Event → World → Prop
  | start (resolver : Option Resolver) : Session x forms [] ⟨.new Name.mangle, resolver⟩
  | macroexpand {events : List Event} {w : World} {o : Outcome Event (Option ExpansionError) Node} (limit : Option Nat)
    (fuel : Nat) (n : Node) : Session x forms events w → n ∈ forms ∨ n ∈ produced events →
    Expansion.noteMacroexpand { x with limit } fuel n w = some o → Session x forms (events ++ o.log) o.world
  | all {events : List Event} {w : World} {o : Outcome Event (Option ExpansionError) Node} (limit : Option Nat)
    (fuel : Nat) (n : Node) : Session x forms events w → n ∈ forms ∨ n ∈ produced events →
    Expansion.noteAll { x with limit } fuel n w = some o → Session x forms (events ++ o.log) o.world

/-- Template macros whose bodies have no generated symbols, and the core macros. -/
inductive TemplateOrCore : Expander → Prop
  | template (t : Template) : t.body.Plain → TemplateOrCore t.expander
  | core {name : String} {b : MacroBinding} : Core.table.getMangled? name = some b → TemplateOrCore b.expander

theorem TemplateOrCore.drawsKnown {e : Expander} (h : TemplateOrCore e) : e.DrawsKnown := by
  cases h with
  | template t hbody => exact t.drawsKnown hbody
  | core hb => exact Core.drawsKnown_of_table hb

theorem Sound.known_of_mem {forms : List Node} {n : Node} (hs : Sound events count) (hforms : ∀ n ∈ forms, n.Plain)
    (hn : n ∈ forms ∨ n ∈ produced events) : n.Known (drawnSet events) :=
  hn.elim (fun hn ↦ (hforms n hn).known) (hs.known n)

theorem Keeps.sound {p : Noted ε α} {Q : Set String → α → Prop} {w : World} {o : Outcome Event (Option ε) α}
    (h : Keeps events p Q) (hw : w.names.mangle = Name.mangle ∧ Sound events w.names.count) (ho : p w = some o) :
    o.world.names.mangle = Name.mangle ∧ Sound (events ++ o.log) o.world.names.count := by
  obtain ⟨o', ho', hw', hs', -⟩ := h w hw.1 hw.2
  obtain rfl := Option.some.inj (ho'.symm.trans ho)
  exact ⟨hw', hs'⟩

theorem Session.sound {x : Expansion} {forms : List Node} {w : World}
    (hx : ∀ name p b, x.lookup name = some (p, b) → b.expander.DrawsKnown) (hforms : ∀ n ∈ forms, n.Plain)
    (h : Session x forms events w) : w.names.mangle = Name.mangle ∧ Sound events w.names.count := by
  induction h with
  | start resolver => exact ⟨rfl, sound_nil⟩
  | macroexpand limit fuel n _ hn ho ih =>
    exact (Expansion.keeps_macroexpand (x := { x with limit }) hx fuel (ih.2.known_of_mem hforms hn)).sound ih ho
  | all limit fuel n _ hn ho ih =>
    exact (Expansion.keeps_all (x := { x with limit }) hx fuel (ih.2.known_of_mem hforms hn)).sound ih ho

/-- With template and core macros the notes are those of expansion itself, every session can go on, and in it each
generated symbol is new: it is not in the call that it is drawn for, in no tree produced before, and is drawn
once. -/
theorem session_hygienic {x : Expansion} {forms : List Node}
    (hx : ∀ name p b, x.lookup name = some (p, b) → TemplateOrCore b.expander) (hforms : ∀ n ∈ forms, n.Plain) :
    (∀ limit fuel n,
      Notes (Expansion.noteMacroexpand { x with limit } fuel n) (Expansion.macroexpand { x with limit } fuel n) ∧
      Notes (Expansion.noteAll { x with limit } fuel n) (Expansion.all { x with limit } fuel n)) ∧
    ∀ events w, Session x forms events w →
      (∀ limit fuel n, n ∈ forms ∨ n ∈ produced events →
        (∃ o, Expansion.noteMacroexpand { x with limit } fuel n w = some o) ∧
        ∃ o, Expansion.noteAll { x with limit } fuel n w = some o) ∧
      (drawn events).Nodup ∧ ∀ before call name after, events = before ++ .drew call name :: after →
        ¬call.Mentions name ∧ ∀ n ∈ produced before, ¬n.Mentions name := by
  have hdraws : ∀ name p b, x.lookup name = some (p, b) → b.expander.DrawsKnown :=
    fun name p b h ↦ (hx name p b h).drawsKnown
  refine ⟨fun limit fuel n ↦ ⟨?_, ?_⟩, fun events w h ↦ ?_⟩
  · exact Expansion.notes_macroexpand (x := { x with limit }) hdraws fuel n
  · exact Expansion.notes_all (x := { x with limit }) hdraws fuel n
  · obtain ⟨hw, hs⟩ := h.sound hdraws hforms
    refine ⟨fun limit fuel n hn ↦ ?_, hs.hygienic⟩
    have hknown := hs.known_of_mem hforms hn
    obtain ⟨o, ho, -⟩ := Expansion.keeps_macroexpand (x := { x with limit }) hdraws fuel hknown w hw hs
    obtain ⟨o', ho', -⟩ := Expansion.keeps_all (x := { x with limit }) hdraws fuel hknown w hw hs
    exact ⟨⟨o, ho⟩, o', ho'⟩

def keep : Template where
  params := ⟨["x"], none⟩
  body := .form [.symbol "with-gensyms" .nowhere, .sequence .bracket [.symbol "g" .nowhere] .nowhere,
    .form [.symbol "quasiquote" .nowhere, .form [.symbol "let" .nowhere,
      .form [.symbol "unquote" .nowhere, .symbol "g" .nowhere] .nowhere,
      .form [.symbol "unquote" .nowhere, .symbol "x" .nowhere] .nowhere] .nowhere] .nowhere] .nowhere
  doc := none

def keeping : Expansion where
  lookup name :=
    if name = "keep" then some (.module, ⟨"keep", "m", keep.expander, none⟩)
    else if name = "with_gensyms" then some (.core, ⟨"with_gensyms", Core.module, Core.expandWithGensyms, none⟩)
    else none
  mangle := Name.mangle
  limit := none

def keepOne : Node := .form [.symbol "keep" .nowhere, .literal (.int 1) .nowhere] .nowhere

def renameAndKeep : Node :=
  .form [.symbol "with-gensyms" .nowhere, .sequence .bracket [.symbol "a" .nowhere] .nowhere,
    .form [.symbol "keep" .nowhere, .symbol "a" .nowhere] .nowhere] .nowhere

theorem plain_keeping : keep.body.Plain ∧ ∀ n ∈ [keepOne, renameAndKeep], n.Plain := by
  unfold keep keepOne renameAndKeep
  simp only [Node.plain_form, Node.plain_sequence, Node.plain_symbol, Node.plain_literal, List.forall_mem_cons,
    List.not_mem_nil, IsEmpty.forall_iff, implies_true, and_true]
  decide

theorem templateOrCore_keeping {name : String} {p : Provenance} {b : MacroBinding}
    (h : keeping.lookup name = some (p, b)) : TemplateOrCore b.expander := by
  have htable : Core.table.getMangled? "with_gensyms" =
      some ⟨"with_gensyms", Core.module, Core.expandWithGensyms, none⟩ := rfl
  unfold keeping at h
  dsimp only at h
  split at h
  · obtain ⟨-, rfl⟩ := Prod.mk.inj (Option.some.inj h)
    exact .template keep plain_keeping.1
  split at h
  · obtain ⟨-, rfl⟩ := Prod.mk.inj (Option.some.inj h)
    exact .core htable
  · cases h

theorem noteMacroexpand_keepOne : (keeping.noteMacroexpand 5 keepOne ⟨.new Name.mangle, none⟩).map
    (fun o ↦ (drawn o.log, o.world)) = some (["_hy_gensym_g_1"], ⟨⟨Name.mangle, 1⟩, none⟩) := rfl

theorem noteAll_renameAndKeep : (keeping.noteAll 9 renameAndKeep ⟨⟨Name.mangle, 1⟩, none⟩).map
    (fun o ↦ drawn o.log) = some ["_hy_gensym_a_2", "_hy_gensym_g_3"] := rfl

/-- A session in which a fresh name is the argument of the next macro. -/
theorem session_hygienic_keeping :
    (∀ n ∈ [keepOne, renameAndKeep], n.Plain) ∧ ∃ events w, Session keeping [keepOne, renameAndKeep] events w ∧
      drawn events = ["_hy_gensym_g_1", "_hy_gensym_a_2", "_hy_gensym_g_3"] ∧ (drawn events).Nodup ∧
      ∀ before call name after, events = before ++ .drew call name :: after →
        ¬call.Mentions name ∧ ∀ n ∈ produced before, ¬n.Mentions name := by
  obtain ⟨o₁, ho₁, h₁⟩ := Option.map_eq_some_iff.mp noteMacroexpand_keepOne
  obtain ⟨hdrawn₁, hworld⟩ := Prod.mk.inj h₁
  obtain ⟨o₂, ho₂, hdrawn₂⟩ := Option.map_eq_some_iff.mp noteAll_renameAndKeep
  rw [← hworld] at ho₂
  have hsession : Session keeping [keepOne, renameAndKeep] (([] ++ o₁.log) ++ o₂.log) o₂.world :=
    .all none 9 renameAndKeep (.macroexpand none 5 keepOne (.start none) (.inl (by simp)) ho₁) (.inl (by simp)) ho₂
  refine ⟨plain_keeping.2, _, _, hsession, ?_,
    ((session_hygienic (fun _ _ _ h ↦ templateOrCore_keeping h) plain_keeping.2).2 _ _ hsession).2⟩
  rw [drawn_append, drawn_append, hdrawn₁, hdrawn₂]
  rfl

end MacroLisp
