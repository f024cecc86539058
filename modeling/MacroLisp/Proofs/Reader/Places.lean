import MacroLisp.Proofs.Node.Subnodes
import MacroLisp.Proofs.Reader.Relayout

namespace MacroLisp

open Cursor (byteLength isBlank)

variable {source before w cs ds inner : List Char} {c : Char} {p q last stop : Cursor} {form : Form} {n m : Node}
  {ns : List Node} {s : Span}

/-- The characters lead from the one place to the other. -/
structure Cursor.Passes (p : Cursor) (cs : List Char) (q : Cursor) : Prop where
  rest : p.rest = cs ++ q.rest
  offset : q.offset = p.offset + byteLength cs

def Span.Covers (source : List Char) (s : Span) (cs : List Char) : Prop :=
  ∃ before after, source = before ++ cs ++ after ∧ s = ⟨byteLength before, byteLength before + byteLength cs⟩

namespace Cursor

/-- A place in the text, after as many bytes as its offset says. -/
def IsIn (source : List Char) (p : Cursor) : Prop := ∃ before, (ofList source).Passes before p

namespace Passes

theorem refl (p : Cursor) : p.Passes [] p := ⟨rfl, rfl⟩

theorem trans (h : p.Passes cs q) (h' : q.Passes ds last) : p.Passes (cs ++ ds) last := by
  refine ⟨by rw [h.rest, h'.rest, List.append_assoc], ?_⟩
  rw [h'.offset, h.offset, byteLength_append, Nat.add_assoc]

theorem isIn (h : p.Passes cs q) (hp : p.IsIn source) : q.IsIn source := by
  obtain ⟨before, hbefore⟩ := hp
  exact ⟨before ++ cs, hbefore.trans h⟩

theorem covers (h : p.Passes cs q) (hp : p.IsIn source) : Span.Covers source ⟨p.offset, q.offset⟩ cs := by
  obtain ⟨before, hbefore⟩ := hp
  have hoffset : p.offset = byteLength before := hbefore.offset.trans (Nat.zero_add _)
  have hsource : source = before ++ p.rest := hbefore.rest
  refine ⟨before, q.rest, ?_, ?_⟩
  · rw [hsource, h.rest, List.append_assoc]
  · rw [h.offset, hoffset]

theorem offset_le (h : p.Passes cs q) : p.offset ≤ q.offset := by
  have := h.offset
  omega

end Passes

theorem byteLength_pos (h : cs ≠ []) : 0 < byteLength cs := by
  obtain ⟨c, cs, rfl⟩ := List.exists_cons_of_ne_nil h
  have := c.utf8Size_pos
  rw [byteLength_cons]
  omega

theorem length_le_byteLength (cs : List Char) : cs.length ≤ byteLength cs := by
  induction cs with
  | nil => rfl
  | cons c cs ih =>
    have := c.utf8Size_pos
    rw [List.length_cons, byteLength_cons]
    omega

theorem byteLength_toList (s : String) : byteLength s.toList = s.utf8ByteSize := by
  have hofList : ∀ cs : List Char, (String.ofList cs).utf8ByteSize = byteLength cs := by
    intro cs
    induction cs with
    | nil => rfl
    | cons c cs ih => rw [String.ofList_cons, String.utf8ByteSize_append, ih, byteLength_cons]; simp
  rw [← hofList, String.ofList_toList]

theorem passes_advance (p : Cursor) (n : ℕ) : p.Passes (p.rest.take n) (p.advance n) :=
  ⟨(List.take_append_drop n p.rest).symm, rfl⟩

theorem exists_passes_skipFrom (b : Bool) (o : ℕ) (cs : List Char) :
    ∃ w, (⟨o, cs⟩ : Cursor).Passes w (skipFrom b o cs) ∧
      Layout ((if b then [';'] else []) ++ w ++ if (skipFrom b o cs).rest = [] then ['\n'] else []) := by
  induction cs generalizing b o with
  | nil =>
    refine ⟨[], .refl _, ?_⟩
    cases b
    · exact .blank rfl .nil
    · exact .comment [] (by simp) .nil
  | cons c cs ih =>
    have hnext : (⟨o, c :: cs⟩ : Cursor).Passes [c] ⟨o + c.utf8Size, cs⟩ := ⟨rfl, rfl⟩
    cases b with
    | true =>
      rw [skipFrom, if_pos rfl]
      obtain ⟨w, hw, hlayout⟩ := ih (c ≠ '\n') (o + c.utf8Size)
      refine ⟨c :: w, hnext.trans hw, ?_⟩
      generalize (if (skipFrom _ _ cs).rest = [] then ['\n'] else []) = e at hlayout ⊢
      by_cases hc : c = '\n'
      · subst hc
        exact .comment [] (by simp) hlayout
      · simp only [hc, ne_eq, not_false_eq_true, decide_true, if_true, List.cons_append, List.nil_append] at hlayout ⊢
        -- The comment that goes on behind the character began before it.
        generalize w ++ e = v at hlayout ⊢
        cases hlayout with
        | blank hblank => exact absurd hblank (by decide)
        | comment text htext h => exact .comment (c :: text) (by simp [htext, Ne.symm hc]) h
    | false =>
      by_cases hblank : isBlank c = true
      · rw [skipFrom, if_neg (by decide), if_pos hblank]
        obtain ⟨w, hw, hlayout⟩ := ih false (o + c.utf8Size)
        exact ⟨c :: w, hnext.trans hw, .blank hblank hlayout⟩
      by_cases hsemicolon : c = ';'
      · rw [skipFrom, if_neg (by decide), if_neg hblank, if_pos hsemicolon]
        obtain ⟨w, hw, hlayout⟩ := ih true (o + c.utf8Size)
        subst hsemicolon
        exact ⟨';' :: w, hnext.trans hw, hlayout⟩
      · rw [skipFrom, if_neg (by decide), if_neg hblank, if_neg hsemicolon]
        exact ⟨[], .refl _, .nil⟩

theorem exists_passes_skip (p : Cursor) :
    ∃ w, p.Passes w p.skip ∧ Layout (w ++ if p.skip.rest = [] then ['\n'] else []) :=
  exists_passes_skipFrom false p.offset p.rest

theorem exists_layout_of_rest_skip_ne (h : p.skip.rest ≠ []) : ∃ w, p.Passes w p.skip ∧ Layout w := by
  obtain ⟨w, hw, hlayout⟩ := p.exists_passes_skip
  rw [if_neg h, List.append_nil] at hlayout
  exact ⟨w, hw, hlayout⟩

theorem start_of_rest_skipFrom (b : Bool) (o : ℕ) (cs : List Char) (h : (skipFrom b o cs).rest = c :: ds) :
    isBlank c = false ∧ c ≠ ';' := by
  induction cs generalizing b o with
  | nil => cases h
  | cons c' cs ih =>
    simp only [skipFrom] at h
    split_ifs at h with hb hblank hsemicolon
    · exact ih _ _ h
    · exact ih _ _ h
    · exact ih _ _ h
    · obtain ⟨rfl, -⟩ := List.cons.inj h
      exact ⟨by simpa using hblank, hsemicolon⟩

theorem rest_skip_eq_nil_iff (p : Cursor) : p.skip.rest = [] ↔ Layout (p.rest ++ ['\n']) := by
  constructor
  · intro h
    obtain ⟨w, hw, hlayout⟩ := p.exists_passes_skip
    rw [if_pos h] at hlayout
    rwa [hw.rest, h, List.append_nil]
  · intro h
    by_contra hne
    obtain ⟨w, hw, hlayout⟩ := exists_layout_of_rest_skip_ne hne
    obtain ⟨c, cs, hcs⟩ := List.exists_cons_of_ne_nil hne
    obtain ⟨hblank, hsemicolon⟩ := start_of_rest_skipFrom false p.offset p.rest hcs
    have hall := h.rest_skip_append []
    rw [List.append_nil, hw.rest, List.append_assoc, hlayout.rest_skip_append, hcs] at hall
    simp [ofList, skip, skipFrom, hblank, hsemicolon] at hall

end Cursor

def Mark.sign : Mark → List Char
  | quote => ['\'']
  | quasiquote => ['\x60']
  | unquote => ['~']
  | unquoteSplice => ['~', '@']
  | unpackIterable => ['#', '*']
  | unpackMapping => ['#', '*', '*']

namespace Node

/-- The items of a sequence. A leaf has none. -/
def children (n : Node) : List Node := n.items?.getD []

/-- How the parts of a node lie in its place. A form with delimiters has its items between them, one after the other. A form
with a mark has a head that stands for the whole, and its body behind the mark. -/
inductive Nested (source : List Char) : Node → Prop
  | symbol (name : String) (s : Span) : Nested source (.symbol name s)
  | literal (value : Literal) (s : Span) : Nested source (.literal value s)
  | delimited {d : Delimiter} {items : List Node} {s : Span} (inner : List Char)
    (htext : s.Covers source (d.opening :: inner ++ [d.closing]))
    (hinside : ∀ n ∈ items, s.start < n.span.start ∧ n.span.start < n.span.stop ∧ n.span.stop < s.stop)
    (hordered : items.Pairwise fun n m ↦ n.span.stop ≤ m.span.start) : Nested source (.sequence d items s)
  | marked {mark : Mark} {body : Node} {s : Span} (behind : List Char) (htext : s.Covers source (mark.sign ++ behind))
    (hinside : s.start + byteLength mark.sign ≤ body.span.start ∧ body.span.start < body.span.stop ∧
      body.span.stop = s.stop) : Nested source (.form [.symbol mark.head s, body] s)

/-- A node that was read from the one place to the other. -/
structure Stands (source : List Char) (p stop : Cursor) (n : Node) : Prop where
  passes : ∃ cs, cs ≠ [] ∧ p.Passes cs stop
  span : n.span = ⟨p.offset, stop.offset⟩
  nested : ∀ m ∈ n.subnodes, m.Nested source

structure AllStand (source : List Char) (p last : Cursor) (ns : List Node) : Prop where
  passes : ∃ cs, p.Passes cs last
  inside : ∀ n ∈ ns, p.offset ≤ n.span.start ∧ n.span.start < n.span.stop ∧ n.span.stop ≤ last.offset
  ordered : ns.Pairwise fun n m ↦ n.span.stop ≤ m.span.start
  nested : ∀ n ∈ ns, ∀ m ∈ n.subnodes, m.Nested source

theorem Stands.offset_lt (h : n.Stands source p stop) : p.offset < stop.offset := by
  obtain ⟨cs, hne, hcs⟩ := h.passes
  have := hcs.offset
  have := Cursor.byteLength_pos hne
  omega

theorem stands_leaf (hcs : cs ≠ []) (hpass : p.Passes cs stop) (hleaf : n.items? = none)
    (hspan : n.span = ⟨p.offset, stop.offset⟩) : n.Stands source p stop := by
  refine ⟨⟨cs, hcs, hpass⟩, hspan, fun m hm ↦ ?_⟩
  cases n with
  | symbol name s =>
    obtain rfl := List.mem_singleton.mp hm
    exact .symbol name s
  | literal value s =>
    obtain rfl := List.mem_singleton.mp hm
    exact .literal value s
  | sequence d items s => cases hleaf

theorem Stands.marked {mark : Mark} (hp : p.IsIn source) (hsign : p.Passes mark.sign q) (hgap : q.Passes w last)
    (h : n.Stands source last stop) :
    (Node.form [.symbol mark.head ⟨p.offset, stop.offset⟩, n] ⟨p.offset, stop.offset⟩).Stands source p stop := by
  obtain ⟨cs, hne, hcs⟩ := h.passes
  have hpass := hsign.trans (hgap.trans hcs)
  refine ⟨⟨_, by simp [hne], hpass⟩, rfl, fun m hm ↦ ?_⟩
  obtain rfl | rfl | hpart : m = .form [.symbol mark.head ⟨p.offset, stop.offset⟩, n] ⟨p.offset, stop.offset⟩ ∨
      m = .symbol mark.head ⟨p.offset, stop.offset⟩ ∨ m ∈ n.subnodes := by
    simpa [form, subnodes, subnodesAll] using hm
  · refine .marked _ (hpass.covers hp) ?_
    rw [h.span]
    have := hsign.offset
    have := hgap.offset_le
    exact ⟨by dsimp only; omega, h.offset_lt, rfl⟩
  · exact .symbol _ _
  · exact h.nested m hpart

theorem allStand_nil (hgap : p.Passes w last) : AllStand source p last [] :=
  ⟨⟨w, hgap⟩, by simp, .nil, by simp⟩

theorem Stands.cons (hgap : p.Passes w q) (h : n.Stands source q stop) (hall : AllStand source stop last ns) :
    AllStand source p last (n :: ns) := by
  obtain ⟨cs, -, hcs⟩ := h.passes
  obtain ⟨ds, hds⟩ := hall.passes
  have hstart := hgap.offset_le
  have hlt := h.offset_lt
  have hstop := hds.offset_le
  refine ⟨⟨_, hgap.trans (hcs.trans hds)⟩, List.forall_mem_cons.mpr ⟨?_, fun m hm ↦ ?_⟩,
    List.pairwise_cons.mpr ⟨fun m hm ↦ ?_, hall.ordered⟩, List.forall_mem_cons.mpr ⟨h.nested, hall.nested⟩⟩
  · rw [h.span]
    exact ⟨hstart, hlt, hstop⟩
  · obtain ⟨hfrom, hto⟩ := hall.inside m hm
    exact ⟨by omega, hto⟩
  · rw [h.span]
    exact (hall.inside m hm).1

theorem AllStand.sequence {d : Delimiter} (hp : p.IsIn source) (hopen : p.Passes [d.opening] q)
    (h : AllStand source q last ns) (hclose : last.Passes [d.closing] stop) :
    (Node.sequence d ns ⟨p.offset, stop.offset⟩).Stands source p stop := by
  obtain ⟨cs, hcs⟩ := h.passes
  have hpass := hopen.trans (hcs.trans hclose)
  refine ⟨⟨_, by simp, hpass⟩, rfl, fun m hm ↦ ?_⟩
  obtain rfl | ⟨part, hpart, hpart'⟩ : m = .sequence d ns _ ∨ ∃ part ∈ ns, m ∈ part.subnodes := by
    simpa only [subnodes, List.mem_cons, mem_subnodesAll] using hm
  · refine .delimited cs (hpass.covers hp) (fun n hn ↦ ?_) h.ordered
    obtain ⟨hfrom, hlt, hto⟩ := h.inside n hn
    have hfirst := hopen.offset
    have hlast := hclose.offset
    have hone := d.opening.utf8Size_pos
    have hone' := d.closing.utf8Size_pos
    simp only [Cursor.byteLength_cons, Cursor.byteLength_nil] at hfirst hlast
    exact ⟨by dsimp only; omega, hlt, by dsimp only; omega⟩
  · exact h.nested part hpart m hpart'

end Node

namespace Form

variable {macros : ReaderMacros} {d : Delimiter} {mark : Mark} {k fuel : ℕ}

theorem leaf_of_buildWord {kind : WordKind} (h : buildWord kind w s = .ok n) : n.items? = none ∧ n.span = s := by
  cases kind with
  | keyword | float | symbol =>
    cases h
    exact ⟨rfl, rfl⟩
  | integer =>
    rw [buildWord] at h
    split at h
    · cases h
      exact ⟨rfl, rfl⟩
    · cases h

theorem isInner_of_stringInner {o : ℕ} (h : stringInner o cs = some (inner, stop)) :
    IsInner inner ∧ (⟨o, cs⟩ : Cursor).Passes (inner ++ ['"']) stop := by
  fun_induction stringInner o cs generalizing inner stop with
  | case1 => cases h
  | case2 => cases h
  | case3 o c cs ih =>
    obtain ⟨⟨inner', stop'⟩, hinner, he⟩ := Option.map_eq_some_iff.mp h
    obtain ⟨rfl, rfl⟩ := Prod.mk.inj he
    obtain ⟨hinside, hpass⟩ := ih hinner
    have hescape : (⟨o, '\\' :: c :: cs⟩ : Cursor).Passes ['\\', c] ⟨o + 1 + c.utf8Size, cs⟩ :=
      ⟨rfl, by simp [show '\\'.utf8Size = 1 from rfl, Nat.add_assoc]⟩
    exact ⟨.escape c hinside, hescape.trans hpass⟩
  | case4 =>
    cases h
    exact ⟨.nil, rfl, rfl⟩
  | case5 o c cs hlast hbackslash hquote ih =>
    obtain ⟨⟨inner', stop'⟩, hinner, he⟩ := Option.map_eq_some_iff.mp h
    obtain ⟨rfl, rfl⟩ := Prod.mk.inj he
    obtain ⟨hinside, hpass⟩ := ih hinner
    have hnext : (⟨o, c :: cs⟩ : Cursor).Passes [c] ⟨o + c.utf8Size, cs⟩ := ⟨rfl, rfl⟩
    refine ⟨.char hquote ?_ hinside, hnext.trans hpass⟩
    -- A backslash would have taken the next character with it.
    rintro rfl
    cases cs with
    | nil => exact hlast rfl rfl
    | cons c cs => exact hbackslash c cs rfl rfl

theorem stands_word? (h : word? p = some (form, stop)) (hn : build macros form = .ok n) : n.Stands source p stop := by
  unfold word? at h
  dsimp only at h
  split at h
  · cases h
  · next hne =>
    cases h
    obtain ⟨hleaf, hspan⟩ := leaf_of_buildWord (by rwa [build] at hn)
    refine Node.stands_leaf ?_ (p.passes_advance _) hleaf hspan
    have hword : wordAt p.rest ≠ [] := fun hnil ↦ by simp [hnil] at hne
    have hrest : p.rest ≠ [] := fun hnil ↦ hword (by rw [hnil]; rfl)
    simp [hword, hrest]

theorem stands_leaf? (h : leaf? p = some (form, stop)) (hn : build macros form = .ok n) : n.Stands source p stop := by
  by_cases hquote : p.rest.head? = some '"'
  · obtain ⟨cs, hcs⟩ := List.head?_eq_some_iff.mp hquote
    rw [leaf?_of_quote hcs] at h
    obtain ⟨⟨inner, stop'⟩, hinner, he⟩ := Option.map_eq_some_iff.mp h
    cases he
    have hstart : p.Passes ['"'] ⟨p.offset + 1, cs⟩ := ⟨hcs, rfl⟩
    rw [build] at hn
    cases hn
    exact Node.stands_leaf (by simp) (hstart.trans (isInner_of_stringInner hinner).2) rfl rfl
  · rw [leaf?_of_ne hquote] at h
    exact stands_word? h hn

theorem take_of_mark? (h : mark? cs = some (mark, k)) : cs.take k = mark.sign := by
  unfold mark? at h
  split at h <;> cases h <;> rfl

theorem take_of_opened (h : cs.head?.bind opened? = some d) : cs.take 1 = [d.opening] := by
  cases cs with
  | nil => cases h
  | cons c cs =>
    rw [List.head?_cons, Option.bind_some] at h
    unfold opened? at h
    split at h <;> cases h <;> rfl

/-- Whatever is built of a form that was found stands where it was found, and so do the items of a sequence. -/
theorem stands (fuel : ℕ) :
    (∀ p form stop n, p.IsIn source → (attempt fuel p).result = some (form, stop) → build ∅ form = .ok n →
      n.Stands source p stop) ∧
    ∀ p ns, p.IsIn source → buildAll ∅ (attemptItems fuel p).1 = .ok ns →
      Node.AllStand source p (attemptItems fuel p).2.1 ns := by
  induction fuel with
  | zero =>
    refine ⟨fun p form stop n _ h ↦ by simp [attempt] at h, fun p ns _ h ↦ ?_⟩
    cases h
    obtain ⟨w, hw, -⟩ := p.exists_passes_skip
    exact Node.allStand_nil hw
  | succ fuel ih =>
    obtain ⟨ihForm, ihItems⟩ := ih
    constructor
    · intro p form stop n hp h hn
      cases hmark : mark? p.rest with
      | some found =>
        obtain ⟨mark, k⟩ := found
        rw [result_attempt_of_mark hmark] at h
        split at h
        · next body stop' hbody =>
          cases h
          have hsign := p.passes_advance k
          rw [take_of_mark? hmark] at hsign
          obtain ⟨w, hgap, -⟩ := (p.advance k).exists_passes_skip
          obtain ⟨m, hm, rfl⟩ := exists_of_build_marked hn
          exact .marked hp hsign hgap (ihForm _ _ _ _ (hgap.isIn (hsign.isIn hp)) hbody hm)
        · exact stands_leaf? h hn
      | none =>
        cases htag : isTag (wordAt p.rest) with
        | true =>
          rw [result_attempt_of_tag hmark htag] at h
          obtain ⟨⟨body, stop'⟩, -, he⟩ := Option.map_eq_some_iff.mp h
          cases he
          exact absurd hn build_tagged_ne_ok
        | false =>
          cases hopened : p.rest.head?.bind opened? with
          | some d =>
            rw [result_attempt_of_opened hmark htag hopened] at h
            dsimp only at h
            split at h
            · next hclosed =>
              cases h
              have hopen := p.passes_advance 1
              rw [take_of_opened hopened] at hopen
              have hclose := (attemptItems fuel (p.advance 1)).2.1.passes_advance 1
              obtain ⟨cs, hcs⟩ := List.head?_eq_some_iff.mp hclosed
              rw [hcs] at hclose
              obtain ⟨ms, hms, rfl⟩ := exists_of_build_sequence hn
              exact (ihItems _ _ (hopen.isIn hp) hms).sequence hp hopen hclose
            · cases h
          | none =>
            rw [result_attempt_of_leaf hmark htag hopened] at h
            exact stands_leaf? h hn
    · intro p ns hp hns
      obtain ⟨w, hgap, -⟩ := p.exists_passes_skip
      simp only [attemptItems] at hns ⊢
      cases hform : (attempt fuel p.skip).result with
      | none =>
        rw [hform] at hns
        cases hns
        exact Node.allStand_nil hgap
      | some found =>
        obtain ⟨form, stop⟩ := found
        rw [hform] at hns
        obtain ⟨m, ms, hm, hms, rfl⟩ := exists_of_buildAll_cons hns
        have hfirst := ihForm _ _ _ _ (hgap.isIn hp) hform hm
        obtain ⟨cs, -, hcs⟩ := hfirst.passes
        exact hfirst.cons hgap (ihItems _ _ (hcs.isIn (hgap.isIn hp)) hms)

end Form

end MacroLisp
