import MacroLisp.Node.Printer
import MacroLisp.Proofs.Node.Bare
import MacroLisp.Proofs.Reader.Leaf
import MacroLisp.Reader.Basic

namespace MacroLisp

open Cursor (isBlank isTerminator isSymbolChar byteLength)

def isSymbolName (w : List Char) : Bool :=
  !w.isEmpty && w.all isSymbolChar && !WordKind.isInteger w && !WordKind.isFloat w &&
    (w.head? ≠ some ':' || w == [':']) && (w.head? ≠ some '#' || w == ['#'])

def Literal.isReadable : Literal → Bool
  | string value => value.toList.all Text.Quoted.isPlain
  | int _ => true
  | float value => value.isFinite
  | keyword name => !name.toList.isEmpty && name.toList.all isSymbolChar

mutual

/-- Whether every symbol, keyword, number and string of a node is of those that the text of the node shows
in full. -/
def Node.isReadable : Node → Bool
  | .symbol name _ => isSymbolName name.toList
  | .literal value _ => value.isReadable
  | .sequence _ items _ => allReadable items

def Node.allReadable : List Node → Bool
  | [] => true
  | n :: ns => n.isReadable && allReadable ns

end

@[simp] theorem Node.allReadable_eq_true (ns : List Node) :
    allReadable ns = true ↔ ∀ n ∈ ns, n.isReadable = true := by
  induction ns with
  | nil => simp [allReadable]
  | cons n ns ih => simp [allReadable, ih]

namespace Form

variable {cs rest : List Char} {n : Node} {ns : List Node} {d : Delimiter}

/-- In front of any end of words `cs` is read as `n`. -/
structure ReadsAs (cs : List Char) (n : Node) : Prop where
  ne_nil : cs ≠ []
  start : ∀ c ∈ cs.head?, isBlank c = false ∧ c ≠ ';'
  result : ∀ macros rest fuel o, IsEnd rest → cs.length ≤ fuel →
    ∃ form m, (attempt fuel ⟨o, cs ++ rest⟩).result = some (form, ⟨o + byteLength cs, rest⟩) ∧
      form.build macros = .ok m ∧ m.bare = n.bare

theorem skip_of_start (hne : cs ≠ []) (h : ∀ c ∈ cs.head?, isBlank c = false ∧ c ≠ ';') (o : ℕ)
    (rest : List Char) : (⟨o, cs ++ rest⟩ : Cursor).skip = ⟨o, cs ++ rest⟩ := by
  obtain ⟨c, cs, rfl⟩ := List.exists_cons_of_ne_nil hne
  obtain ⟨hb, hs⟩ := h c rfl
  simp [Cursor.skip, Cursor.skipFrom, hb, hs]

theorem start_of_isWord (h : IsWord cs) : ∀ c ∈ cs.head?, isBlank c = false ∧ c ≠ ';' := by
  intro c hc
  have ht := not_terminator_of_isSymbolChar (h.chars c (List.mem_of_head? hc))
  simp only [isTerminator, decide_eq_false_iff_not, not_or] at ht
  exact ⟨by simpa using ht.1, ht.2.2.2.2.2.2.2.2⟩

theorem readsAs_of_isWord (kind : WordKind) (h : IsWord cs)
    (hkind : ∀ rest, IsEnd rest → WordKind.classify cs rest = kind)
    (hbuild : ∀ s, ∃ m, buildWord kind cs s = .ok m ∧ m.bare = n.bare) : ReadsAs cs n := by
  refine ⟨h.ne_nil, start_of_isWord h, fun macros rest fuel o hr hf ↦ ?_⟩
  obtain ⟨fuel, rfl⟩ : ∃ k, fuel = k + 1 := by
    have := List.length_pos_iff.mpr h.ne_nil
    exact ⟨fuel - 1, by omega⟩
  obtain ⟨m, hm, hb⟩ := hbuild ⟨o, o + byteLength cs⟩
  refine ⟨_, m, h.attempt_result hr.endsWord fuel o, ?_, hb⟩
  rw [build, hkind rest hr, hm]

theorem readsAs_symbol {name : String} {s : Span} (h : isSymbolName name.toList = true) :
    ReadsAs name.toList (.symbol name s) := by
  simp only [isSymbolName, Bool.and_eq_true, Bool.not_eq_true', Bool.or_eq_true, decide_eq_true_eq,
    beq_iff_eq, List.all_eq_true, List.isEmpty_eq_false_iff] at h
  obtain ⟨⟨⟨⟨⟨hne, hchars⟩, hint⟩, hfloat⟩, hcolon⟩, hsign⟩ := h
  have hkeyword : WordKind.isKeyword name.toList = false := by
    unfold WordKind.isKeyword
    split
    · next he => simp [he] at hcolon
    · rfl
  refine readsAs_of_isWord .symbol ⟨hne, hchars, fun hs ↦ hsign.resolve_left (absurd hs)⟩
    (fun rest hr ↦ ?_) fun s ↦ ⟨_, rfl, ?_⟩
  · simp [classify_of_isEnd hr, hkeyword, hint, hfloat]
  · simp [Node.bare]

theorem readsAs_keyword {name : String} {s : Span} (hne : name.toList ≠ [])
    (hchars : ∀ c ∈ name.toList, isSymbolChar c = true) :
    ReadsAs (':' :: name.toList) (.literal (.keyword name) s) := by
  have hword : IsWord (':' :: name.toList) := by
    refine ⟨by simp, fun c hc ↦ ?_, by simp⟩
    rcases List.mem_cons.mp hc with rfl | hc
    · decide
    · exact hchars c hc
  have hkeyword : WordKind.isKeyword (':' :: name.toList) = true := by
    obtain ⟨c, cs, he⟩ := List.exists_cons_of_ne_nil hne
    rw [he]
    rfl
  refine readsAs_of_isWord .keyword hword (fun rest hr ↦ ?_) fun s ↦ ⟨_, rfl, ?_⟩
  · simp [classify_of_isEnd hr, hkeyword]
  · simp [Node.bare]

theorem readsAs_float {x : Binary64} {s : Span} (hx : x.isFinite = true) :
    ReadsAs x.text.toList (.literal (.float x) s) := by
  obtain ⟨⟨hword, hkeyword⟩, hfloat, hvalue⟩ := float_word hx
  refine readsAs_of_isWord .float hword (fun rest hr ↦ ?_) fun s ↦ ⟨_, rfl, ?_⟩
  · simp [classify_of_isEnd hr, hkeyword, hfloat]
  · simp [Node.bare, hvalue]

theorem readsAs_int {i : Int64} {s : Span} : ReadsAs (toString i.toInt).toList (.literal (.int i) s) := by
  obtain ⟨⟨hword, hkeyword⟩, hfloat, hint, hvalue⟩ := int_word i.toInt
  have hrange : inInt64 i.toInt = true := by
    simp only [inInt64, Bool.and_eq_true, decide_eq_true_eq]
    exact ⟨i.minValue_le_toInt, i.toInt_le⟩
  refine readsAs_of_isWord .integer hword (fun rest hr ↦ ?_) fun s ↦ ⟨.literal (.int i) s, ?_, rfl⟩
  · simp only [classify_of_isEnd hr, hkeyword, hfloat, hint, Bool.false_eq_true, if_false, if_true]
  · simp only [buildWord, hvalue, hrange, if_true, Int64.ofInt_toInt]

theorem readsAs_string {value : String} {s : Span} (h : value.toList.all Text.Quoted.isPlain = true) :
    ReadsAs (Text.Quoted.literal value).toList (.literal (.string value) s) := by
  have htext : (Text.Quoted.literal value).toList = '"' :: (Text.Quoted.encode value.toList ++ ['"']) := by
    simp [Text.Quoted.literal]
  rw [htext]
  refine ⟨by simp, by simp [isBlank], fun macros rest fuel o hr hf ↦ ?_⟩
  obtain ⟨fuel, rfl⟩ : ∃ k, fuel = k + 1 := ⟨fuel - 1, by simp at hf; omega⟩
  have hread := attempt_string h fuel o rest
  have hbuild : build macros (.string (Text.Quoted.encode value.toList)
      ⟨o, o + 1 + byteLength (Text.Quoted.encode value.toList) + 1⟩) = .ok (.literal (.string value)
      ⟨o, o + 1 + byteLength (Text.Quoted.encode value.toList) + 1⟩) := by
    rw [build, Text.Quoted.decode_encode h, String.ofList_toList]
  refine ⟨_, _, ?_, hbuild, rfl⟩
  simpa [Nat.add_assoc, show '"'.utf8Size = 1 from rfl] using hread

theorem attempt_closing (d : Delimiter) (fuel o : ℕ) (rest : List Char) :
    (attempt fuel ⟨o, d.closing :: rest⟩).result = none := by
  cases fuel with
  | zero => rfl
  | succ fuel =>
    have hword : wordAt (d.closing :: rest) = [] := List.takeWhile_cons_of_neg (by cases d <;> decide)
    cases d <;> simp_all [attempt, mark?, isTag, opened?, attemptLeaf, leaf?, word?, Delimiter.closing]

theorem isEnd_closing (d : Delimiter) (rest : List Char) : IsEnd (d.closing :: rest) := by
  intro c hc
  obtain rfl : d.closing = c := by simpa using hc
  cases d <;> rfl

theorem isEnd_blank (rest : List Char) : IsEnd (' ' :: rest) := by
  intro c hc
  obtain rfl : ' ' = c := by simpa using hc
  rfl

def joined (ns : List Node) : List Char := [' '].intercalate (ns.map fun n ↦ n.text.toList)

theorem toList_text_sequence (d : Delimiter) (ns : List Node) (s : Span) :
    (Node.sequence d ns s).text.toList = d.opening :: (joined ns ++ [d.closing]) := by
  simp [Node.text, Delimiter.wrap, joined, Function.comp_def]

theorem skip_joined (h : ∀ n ∈ ns, ReadsAs n.text.toList n) (d : Delimiter) (o : ℕ) (rest : List Char) :
    (⟨o, joined ns ++ d.closing :: rest⟩ : Cursor).skip = ⟨o, joined ns ++ d.closing :: rest⟩ := by
  cases ns with
  | nil => cases d <;> simp [joined, Cursor.skip, Cursor.skipFrom, isBlank, Delimiter.closing]
  | cons n ns =>
    have hn := h n (by simp)
    simp only [joined, List.map_cons, Text.intercalate_cons, List.append_assoc]
    exact skip_of_start hn.ne_nil hn.start o _

theorem joined_cons (n : Node) (h : ∀ m ∈ ns, ReadsAs m.text.toList m) (d : Delimiter) (rest : List Char) (o : ℕ) :
    ∃ tail o', joined (n :: ns) ++ d.closing :: rest = n.text.toList ++ tail ∧ IsEnd tail ∧
      (⟨o + byteLength n.text.toList, tail⟩ : Cursor).skip = ⟨o', joined ns ++ d.closing :: rest⟩ ∧
      o' + byteLength (joined ns) = o + byteLength (joined (n :: ns)) ∧
      n.text.toList.length + (joined ns).length ≤ (joined (n :: ns)).length := by
  cases ns with
  | nil => exact ⟨d.closing :: rest, o + byteLength n.text.toList, by simp [joined], isEnd_closing d rest,
      skip_joined h d _ rest, by simp [joined], by simp [joined]⟩
  | cons m ns =>
    have hcons : joined (n :: m :: ns) = n.text.toList ++ ' ' :: joined (m :: ns) := by simp [joined]
    refine ⟨' ' :: (joined (m :: ns) ++ d.closing :: rest), o + byteLength n.text.toList + 1, by simp [hcons],
      isEnd_blank _, skip_joined h d _ rest, ?_, by simp [hcons]⟩
    simp [hcons, Nat.add_assoc, show ' '.utf8Size = 1 from rfl]

theorem attemptItems_joined (macros : ReaderMacros) (rest : List Char) (d : Delimiter)
    (h : ∀ n ∈ ns, ReadsAs n.text.toList n) {fuel o : ℕ} {p : Cursor}
    (hp : p.skip = ⟨o, joined ns ++ d.closing :: rest⟩) (hf : (joined ns).length < fuel) :
    (attemptItems fuel p).2.1 = ⟨o + byteLength (joined ns), d.closing :: rest⟩ ∧
      ∃ ms, buildAll macros (attemptItems fuel p).1 = .ok ms ∧ ms.map Node.bare = ns.map Node.bare := by
  obtain ⟨fuel, rfl⟩ : ∃ k, fuel = k + 1 := ⟨fuel - 1, by omega⟩
  induction ns generalizing fuel o p with
  | nil =>
    have hmiss : (attempt fuel ⟨o, joined [] ++ d.closing :: rest⟩).result = none :=
      attempt_closing d fuel o rest
    simp only [attemptItems, hp, hmiss]
    exact ⟨rfl, [], rfl, rfl⟩
  | cons n ns ih =>
    obtain ⟨hn, hns⟩ := List.forall_mem_cons.mp h
    have hpos := List.length_pos_iff.mpr hn.ne_nil
    obtain ⟨tail, o', htext, hend, hskip, hoffset, hlength⟩ := joined_cons n hns d rest o
    obtain ⟨form, m, hform, hm, hb⟩ := hn.result macros tail fuel o hend (by omega)
    obtain ⟨fuel, rfl⟩ : ∃ k, fuel = k + 1 := ⟨fuel - 1, by omega⟩
    obtain ⟨hstop, ms, hms, hbs⟩ := ih hns hskip fuel (by omega)
    rw [← htext] at hform
    rw [attemptItems]
    simp only [hp, hform]
    refine ⟨hstop.trans (by rw [hoffset]), m :: ms, ?_, by simp [hb, hbs]⟩
    simp [buildAll, hm, hms, bind, Except.bind, pure, Except.pure]

theorem attempt_opening (d : Delimiter) (fuel o : ℕ) (stop : ℕ)
    (h : (attemptItems fuel ⟨o + 1, cs⟩).2.1 = ⟨stop, d.closing :: rest⟩) :
    (attempt (fuel + 1) ⟨o, d.opening :: cs⟩).result =
      some (.sequence d (attemptItems fuel ⟨o + 1, cs⟩).1 ⟨o, stop + 1⟩, ⟨stop + 1, rest⟩) := by
  have hword : wordAt (d.opening :: cs) = [] := List.takeWhile_cons_of_neg (by cases d <;> decide)
  have hmark : mark? (d.opening :: cs) = none := by cases d <;> rfl
  have hopened : opened? d.opening = some d := by cases d <;> rfl
  have hadvance : (⟨o, d.opening :: cs⟩ : Cursor).advance 1 = ⟨o + 1, cs⟩ := by
    cases d <;> rfl
  have hclose : (⟨stop, d.closing :: rest⟩ : Cursor).advance 1 = ⟨stop + 1, rest⟩ := by
    cases d <;> rfl
  simp [attempt, hmark, hword, isTag, hopened, hadvance, h, hclose]

theorem readsAs_sequence {s : Span} (h : ∀ n ∈ ns, ReadsAs n.text.toList n) :
    ReadsAs (Node.sequence d ns s).text.toList (.sequence d ns s) := by
  rw [toList_text_sequence]
  refine ⟨by simp, ?_, fun macros rest fuel o hr hf ↦ ?_⟩
  · cases d <;> simp [isBlank, Delimiter.opening]
  simp only [List.length_cons, List.length_append, List.length_nil] at hf
  obtain ⟨fuel, rfl⟩ : ∃ k, fuel = k + 1 := ⟨fuel - 1, by omega⟩
  have hlength : (joined ns).length < fuel := by omega
  obtain ⟨hstop, ms, hms, hbs⟩ := attemptItems_joined macros rest d h (skip_joined h d (o + 1) rest) hlength
  have hread := attempt_opening d fuel o _ hstop
  have hsize : d.opening.utf8Size = 1 ∧ d.closing.utf8Size = 1 := by cases d <;> exact ⟨rfl, rfl⟩
  have hbuild : ∀ s', build macros (.sequence d (attemptItems fuel ⟨o + 1, joined ns ++ d.closing :: rest⟩).1 s') =
      .ok (.sequence d ms s') := by
    intro s'
    rw [build, hms]
    rfl
  refine ⟨_, _, ?_, hbuild ⟨o, o + 1 + byteLength (joined ns) + 1⟩, by simp [Node.bare, hbs]⟩
  simpa [hsize.1, hsize.2, Nat.add_assoc] using hread

theorem readsAs_text (n : Node) (h : n.isReadable = true) : ReadsAs n.text.toList n := by
  induction n using Node.induct with
  | symbol name s => exact readsAs_symbol h
  | literal value s =>
    cases value with
    | string value => exact readsAs_string h
    | int value => exact readsAs_int
    | float value => exact readsAs_float h
    | keyword name =>
      obtain ⟨hne, hchars⟩ : name.toList ≠ [] ∧ ∀ c ∈ name.toList, isSymbolChar c = true := by
        simpa [Node.isReadable, Literal.isReadable] using h
      have htext : (Node.literal (.keyword name) s).text.toList = ':' :: name.toList := by
        simp [Node.text, Literal.text]
      rw [htext]
      exact readsAs_keyword hne hchars
  | sequence d ns s ih =>
    rw [Node.isReadable, Node.allReadable_eq_true] at h
    exact readsAs_sequence fun n hn ↦ ih n hn (h n hn)

end Form

theorem Reader.read_of_find {r : Reader} {form : Form} {stop : Cursor} {m : Node} (hr : r.isExhausted = false)
    (hform : (Form.find r.cursor.skip).result = some (form, stop)) (hm : form.build r.macros = .ok m) :
    r.read = (.ok m, { r with cursor := stop }) := by
  simp only [read, hr, Bool.false_eq_true, if_false, hform, hm]

/-- Reading the text of a tree gives exactly that tree. -/
theorem readAll_text (n : Node) (h : n.isReadable = true) : ∃ m, readAll n.text = .ok [m] ∧ m.bare = n.bare := by
  have hread := Form.readsAs_text n h
  have hpos := List.length_pos_iff.mpr hread.ne_nil
  obtain ⟨form, m, hform, hm, hb⟩ := hread.result ∅ [] (Form.fuelFor ⟨0, n.text.toList⟩) 0 (by simp [Form.IsEnd])
    (by simp only [Form.fuelFor]; omega)
  have hskip : (Reader.ofString n.text).cursor.skip = ⟨0, n.text.toList⟩ := by
    have hskip := Form.skip_of_start hread.ne_nil hread.start 0 []
    rwa [List.append_nil] at hskip
  have hstart : (Reader.ofString n.text).isExhausted = false := by
    simp [Reader.isExhausted, hskip, hread.ne_nil]
  have hfirst : (Reader.ofString n.text).read = (.ok m, ⟨⟨0 + byteLength n.text.toList, []⟩, ∅⟩) := by
    refine Reader.read_of_find hstart ?_ hm
    rw [List.append_nil] at hform
    rw [hskip, Form.find, hform]
  obtain ⟨limit, hlimit⟩ : ∃ k, n.text.toList.length + 1 = k + 2 := ⟨n.text.toList.length - 1, by omega⟩
  refine ⟨m, ?_, hb⟩
  have hdrain : (Reader.ofString n.text).drain (limit + 2) =
      ([m], some .endOfInput, ⟨⟨0 + byteLength n.text.toList, []⟩, ∅⟩) := by
    rw [Reader.drain, hfirst]
    rfl
  have hlength : (Reader.ofString n.text).cursor.rest.length + 1 = limit + 2 := hlimit
  rw [readAll]
  simp only [hlength, hdrain]
  rfl

/-- Words, strings and brackets of every kind side by side. -/
def everyToken : Node :=
  .form [.sequence .brace [.symbol ":" ⟨3, 4⟩, .symbol "#" ⟨5, 6⟩] .nowhere, .literal (.keyword "k") .nowhere,
    .form [.literal (.float ⟨0xC004000000000000⟩) .nowhere, .literal (.string "\"\n") .nowhere,
      .literal (.int (-7)) .nowhere] ⟨1, 9⟩, .sequence .bracket [] .nowhere] .nowhere

theorem readAll_text_everyToken :
    everyToken.isReadable = true ∧ ∃ m, readAll everyToken.text = .ok [m] ∧ m.bare = everyToken.bare :=
  have h : everyToken.isReadable = true := by decide
  ⟨h, readAll_text everyToken h⟩

end MacroLisp
