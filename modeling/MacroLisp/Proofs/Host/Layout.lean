import MacroLisp.Proofs.Host.Phrase
import MacroLisp.Proofs.Text.Fields

namespace MacroLisp.Host

/-- A text behind four blanks for each level. -/
structure Line where
  level : ℕ
  text : String
  deriving DecidableEq

namespace Line

variable {l : Line}

def chars (l : Line) : List Char := List.replicate (4 * l.level) ' ' ++ l.text.toList

def ofChars? (cs : List Char) : Option Line :=
  let indentation := (cs.takeWhile (· == ' ')).length
  let text := cs.dropWhile (· == ' ')
  if indentation % 4 = 0 ∧ text ≠ [] then some ⟨indentation / 4, String.ofList text⟩ else none

def test? (l : Line) : Option String :=
  match l.text.toList with
  | 'i' :: 'f' :: ' ' :: cs => if cs.getLast? = some ':' then some (String.ofList cs.dropLast) else none
  | _ => none

def alternative (level : ℕ) : Line := ⟨level, "else:"⟩

def header (level : ℕ) (test : String) : Line := ⟨level, "if " ++ test ++ ":"⟩

theorem ofChars?_chars (h : IsLineText l.text.toList) : ofChars? l.chars = some l := by
  have hblanks : ∀ c ∈ List.replicate (4 * l.level) ' ', (c == ' ') = true := by simp
  have htext : l.text.toList.head?.any (· == ' ') = false := by
    have hopens := h.opens
    cases hl : l.text.toList with
    | nil => rfl
    | cons c cs => simpa [hl] using hopens
  obtain ⟨hrun, hrest⟩ := Text.span_append hblanks htext
  unfold ofChars? chars
  rw [hrun, hrest, List.length_replicate, if_pos ⟨Nat.mul_mod_right 4 _, h.ne_nil⟩, Nat.mul_div_cancel_left _ (by decide),
    String.ofList_toList]

theorem not_chars_of_ofChars? {cs : List Char} (h : ofChars? cs = none) :
    ¬∃ l : Line, cs = l.chars ∧ IsLineText l.text.toList := by
  rintro ⟨l, rfl, hl⟩
  rw [ofChars?_chars hl] at h
  cases h

theorem test?_header (level : ℕ) (test : String) : (header level test).test? = some test := by
  have htext : (header level test).text.toList = 'i' :: 'f' :: ' ' :: (test.toList ++ [':']) := by
    simp [header]
  simp [Line.test?, htext]

theorem test?_of_isPhrase (h : IsPhrase l.text.toList) : l.test? = none := by
  have hends := h.ends
  unfold Line.test?
  split
  · next cs hcs =>
    rw [hcs] at hends
    refine if_neg fun hlast ↦ ?_
    cases cs with
    | nil => cases hlast
    | cons c cs => simp [List.getLast?_cons_cons, hlast] at hends
  · rfl

theorem ne_alternative_of_isPhrase (h : IsPhrase l.text.toList) (level : ℕ) : l ≠ alternative level := by
  rintro rfl
  have hends : "else:".toList.getLast?.any (· != ':') = true := h.ends
  exact absurd hends (by decide)

theorem header_ne_alternative (level : ℕ) (test : String) (level' : ℕ) : header level test ≠ alternative level' := by
  intro h
  have hnone : (alternative level').test? = none := by simp [Line.test?, alternative]
  rw [← h, test?_header] at hnone
  cases hnone

end Line

/-- Statements as their layout shows them. -/
inductive Outline
  | simple (text : String)
  | branch (test : String) (body orelse : List Outline)
  deriving Repr

def Outline.isBranch : Outline → Bool
  | simple _ => false
  | branch .. => true

/-- The lines that are deeper than a level, and what follows them. -/
def block (level : ℕ) (ls : List Line) : List Line × List Line :=
  (ls.takeWhile (level < ·.level), ls.dropWhile (level < ·.level))

/-- The block of the alternative, if there is one, and what follows it. -/
def alternativeBlock (level : ℕ) : List Line → List Line × List Line
  | [] => ([], [])
  | l :: ls => if l = .alternative level then block level ls else ([], l :: ls)

theorem length_block (level : ℕ) (ls : List Line) :
    (block level ls).1.length ≤ ls.length ∧ (block level ls).2.length ≤ ls.length :=
  ⟨(List.takeWhile_sublist _).length_le, (List.dropWhile_sublist _).length_le⟩

theorem length_alternativeBlock (level : ℕ) (ls : List Line) :
    (alternativeBlock level ls).1.length ≤ ls.length ∧ (alternativeBlock level ls).2.length ≤ ls.length := by
  cases ls with
  | nil => exact ⟨Nat.le_refl 0, Nat.le_refl 0⟩
  | cons l ls =>
    obtain ⟨hblock, hrest⟩ := length_block level ls
    by_cases hl : l = .alternative level
    · rw [alternativeBlock, if_pos hl]
      exact ⟨Nat.le_succ_of_le hblock, Nat.le_succ_of_le hrest⟩
    · rw [alternativeBlock, if_neg hl]
      exact ⟨Nat.zero_le _, Nat.le_refl _⟩

/-- Groups lines into the statements of one level. All that is deeper has to belong to a conditional. -/
def outline? (level : ℕ) : List Line → Option (List Outline)
  | [] => some []
  | l :: ls =>
    if l.level = level ∧ l ≠ .alternative level then
      match l.test? with
      | none => do return .simple l.text :: (← outline? level ls)
      | some test => do
        let body ← outline? (level + 1) (block level ls).1
        let orelse ← outline? (level + 1) (alternativeBlock level (block level ls).2).1
        return .branch test body orelse :: (← outline? level (alternativeBlock level (block level ls).2).2)
    else none
termination_by ls => ls.length
decreasing_by
  all_goals
    have hblock := length_block level ls
    have halternative := length_alternativeBlock level (block level ls).2
    simp only [List.length_cons]
    omega

/-- The lines of a text. What stands behind the last line break is a line only if it is not empty. -/
def lineTexts (text : String) : List (List Char) :=
  let fields := Text.split '\n' text.toList
  if fields.getLast? = some [] then fields.dropLast else fields

def Outline.read? (text : String) : Option (List Outline) := do
  outline? 0 (← (lineTexts text).mapM Line.ofChars?)

def Line.written (l : Line) : List Char := l.chars ++ ['\n']

namespace Stmt

def text : Stmt → String
  | expr value => value.source
  | assign targets value => " = ".intercalate (targets.map Expr.source) ++ " = " ++ value.source
  | imports names => "import " ++ ", ".intercalate (names.map Alias.source)
  | ifElse test _ _ => "if " ++ test.source ++ ":"

mutual

def lines (level : ℕ) : Stmt → List Line
  | ifElse test body orelse =>
    .header level test.source :: ((if body.isEmpty then [⟨level + 1, "pass"⟩] else linesOfAll (level + 1) body) ++
      if orelse.isEmpty then [] else .alternative level :: linesOfAll (level + 1) orelse)
  | s => [⟨level, s.text⟩]

def linesOfAll (level : ℕ) : List Stmt → List Line
  | [] => []
  | s :: ss => lines level s ++ linesOfAll level ss

end

mutual

def outline : Stmt → Outline
  | ifElse test body orelse => .branch test.source (outlines body) (outlines orelse)
  | s => .simple s.text

def outlines : List Stmt → List Outline
  | [] => []
  | s :: ss => outline s :: outlines ss

end

theorem outlines_eq_map (ss : List Stmt) : outlines ss = ss.map outline := by
  induction ss with
  | nil => rfl
  | cons s ss ih => simp only [outlines, ih, List.map_cons]

variable {s : Stmt} {ss : List Stmt} {level : ℕ} {l : Line}

theorem toList_line (level : ℕ) (text : String) : (line level text).toList = (⟨level, text⟩ : Line).written := by
  simp [line, Line.written, Line.chars]

theorem toList_sources (h : ∀ s ∈ ss, ∀ level, (source level s).toList = (s.lines level).flatMap Line.written)
    (level : ℕ) : (sources level ss).toList = (linesOfAll level ss).flatMap Line.written := by
  induction ss with
  | nil => simp [sources, linesOfAll]
  | cons s ss ih =>
    obtain ⟨hs, hss⟩ := List.forall_mem_cons.mp h
    rw [sources, linesOfAll, String.toList_append, hs level, ih hss, List.flatMap_append]

theorem toList_source (level : ℕ) (s : Stmt) : (source level s).toList = (s.lines level).flatMap Line.written := by
  induction s using Stmt.induct generalizing level with
  | expr value => simp [source, lines, text, toList_line]
  | assign targets value => simp [source, lines, text, toList_line]
  | imports names => simp [source, lines, text, toList_line]
  | ifElse test body orelse hbody horelse =>
    have hb := toList_sources hbody (level + 1)
    have ho := toList_sources horelse (level + 1)
    simp only [source, lines, String.toList_append, toList_line, List.flatMap_cons, List.flatMap_append]
    cases body <;> cases orelse <;> simp_all [toList_line, Line.header, Line.alternative]

theorem forall_linesOfAll {P : Line → Prop} (h : ∀ s ∈ ss, ∀ l ∈ s.lines level, P l) :
    ∀ l ∈ linesOfAll level ss, P l := by
  induction ss with
  | nil => exact fun l hl ↦ absurd hl List.not_mem_nil
  | cons s ss ih =>
    obtain ⟨hs, hss⟩ := List.forall_mem_cons.mp h
    exact List.forall_mem_append.mpr ⟨hs, ih hss⟩

theorem forall_lines_ifElse {P : Line → Prop} {test : Expr} {body orelse : List Stmt}
    (hheader : P (.header level test.source)) (hpass : body = [] → P ⟨level + 1, "pass"⟩) (hbody : ∀ s ∈ body, ∀ l ∈ s.lines (level + 1), P l)
    (halternative : P (.alternative level)) (horelse : ∀ s ∈ orelse, ∀ l ∈ s.lines (level + 1), P l) :
    ∀ l ∈ (ifElse test body orelse).lines level, P l := by
  refine List.forall_mem_cons.mpr ⟨hheader, List.forall_mem_append.mpr ⟨?_, ?_⟩⟩
  · split
    · next hb => simpa using hpass (List.isEmpty_iff.mp hb)
    · exact forall_linesOfAll hbody
  · split
    · simp
    · exact List.forall_mem_cons.mpr ⟨halternative, forall_linesOfAll horelse⟩

theorem le_level (s : Stmt) : ∀ l ∈ s.lines level, level ≤ l.level := by
  induction s using Stmt.induct generalizing level with
  | expr value => simp [lines]
  | assign targets value => simp [lines]
  | imports names => simp [lines]
  | ifElse test body orelse hbody horelse =>
    exact forall_lines_ifElse (Nat.le_refl level) (fun _ ↦ Nat.le_succ level)
      (fun s hs l hl ↦ Nat.le_of_succ_le (hbody s hs l hl)) (Nat.le_refl level)
      (fun s hs l hl ↦ Nat.le_of_succ_le (horelse s hs l hl))

/-- Every simple statement in the statement is a phrase, and no conditional has an empty first branch. -/
inductive IsLaid : Stmt → Prop
  | expr {value : Expr} (h : IsPhrase (expr value).text.toList) : IsLaid (expr value)
  | assign {targets : List Expr} {value : Expr} (h : IsPhrase (assign targets value).text.toList) :
    IsLaid (assign targets value)
  | imports {names : List Alias} (h : IsPhrase (imports names).text.toList) : IsLaid (imports names)
  | ifElse {test : Expr} {body orelse : List Stmt} (ht : Unbroken test.source.toList) (hne : body ≠ [])
    (hbody : ∀ s ∈ body, IsLaid s) (horelse : ∀ s ∈ orelse, IsLaid s) : IsLaid (ifElse test body orelse)

theorem IsLaid.isLineText (h : s.IsLaid) : ∀ l ∈ s.lines level, IsLineText l.text.toList := by
  induction h generalizing level with
  | expr h => simpa [lines] using h.toIsLineText
  | assign h => simpa [lines] using h.toIsLineText
  | imports h => simpa [lines] using h.toIsLineText
  | @ifElse test body orelse ht hne _ _ ihbody ihorelse =>
    have hheader : IsLineText (Line.header level test.source).text.toList := by
      simp only [Line.header, String.toList_append]
      exact ((by decide : IsLineText "if ".toList).append ht).append (by decide)
    exact forall_lines_ifElse hheader (absurd · hne) (fun s hs ↦ ihbody s hs)
      (by decide : IsLineText "else:".toList) (fun s hs ↦ ihorelse s hs)

/-- What follows belongs to no branch of a conditional of this level. -/
def Resumes (level : ℕ) (ls : List Line) : Prop := ∀ l ∈ ls.head?, l.level ≤ level ∧ l ≠ .alternative level

/-- Read in front of any other statements, the lines are these statements. -/
def Shows (level : ℕ) (ls : List Line) (os : List Outline) : Prop :=
  ∀ rest, Resumes level rest → outline? level (ls ++ rest) = (outline? level rest).map (os ++ ·)

theorem resumes_nil : Resumes level [] := by simp [Resumes]

theorem Resumes.append {ls rest : List Line} (h : Resumes level ls) (hr : Resumes level rest) :
    Resumes level (ls ++ rest) := by
  cases ls with
  | nil => exact hr
  | cons l ls => exact h

theorem Shows.eq_some {ls : List Line} {os : List Outline} (h : Shows level ls os) : outline? level ls = some os := by
  have hnil := h [] resumes_nil
  rw [outline?, List.append_nil] at hnil
  simpa using hnil

theorem shows_phrase {text : String} (h : IsPhrase text.toList) : Shows level [⟨level, text⟩] [.simple text] := by
  intro rest _
  have hne := Line.ne_alternative_of_isPhrase (l := ⟨level, text⟩) h level
  rw [List.singleton_append, outline?, if_pos ⟨rfl, hne⟩, Line.test?_of_isPhrase h]
  cases outline? level rest <;> rfl

theorem block_append {ls rest : List Line} (h : ∀ l ∈ ls, level < l.level) (hr : ∀ l ∈ rest.head?, l.level ≤ level) :
    block level (ls ++ rest) = (ls, rest) := by
  have hdeeper : ∀ l ∈ ls, decide (level < l.level) = true := fun l hl ↦ decide_eq_true (h l hl)
  unfold block
  rw [List.takeWhile_append_of_pos hdeeper, List.dropWhile_append_of_pos hdeeper]
  cases rest with
  | nil => simp
  | cons l rest =>
    have hl : ¬level < l.level := Nat.not_lt.mpr (hr l rfl)
    simp [hl]

theorem outline?_header {test : String} {ls first tail second rest : List Line} {body orelse : List Outline}
    (hblock : block level ls = (first, tail)) (halternative : alternativeBlock level tail = (second, rest))
    (hbody : outline? (level + 1) first = some body) (horelse : outline? (level + 1) second = some orelse) :
    outline? level (.header level test :: ls) = (outline? level rest).map (.branch test body orelse :: ·) := by
  rw [outline?, if_pos ⟨rfl, Line.header_ne_alternative level test level⟩, Line.test?_header]
  simp only [hblock, halternative, hbody, horelse]
  cases outline? level rest <;> rfl

theorem shows_branch {test : String} {ls : List Line} {os : List Outline} (hls : ∀ l ∈ ls, level < l.level)
    (h : Shows (level + 1) ls os) : Shows level (.header level test :: ls) [.branch test os []] := by
  intro rest hr
  have halternative : alternativeBlock level rest = ([], rest) := by
    cases rest with
    | nil => rfl
    | cons l rest => exact if_neg (hr l rfl).2
  exact outline?_header (block_append hls fun l hl ↦ (hr l hl).1) halternative h.eq_some (by rw [outline?])

theorem shows_branches {test : String} {ls ls' : List Line} {os os' : List Outline} (hls : ∀ l ∈ ls, level < l.level)
    (hls' : ∀ l ∈ ls', level < l.level) (h : Shows (level + 1) ls os) (h' : Shows (level + 1) ls' os') :
    Shows level (.header level test :: (ls ++ .alternative level :: ls')) [.branch test os os'] := by
  intro rest hr
  have hblock : block level (ls ++ .alternative level :: ls' ++ rest) = (ls, .alternative level :: (ls' ++ rest)) := by
    rw [List.append_assoc]
    exact block_append hls (by simp [Line.alternative])
  have halternative : alternativeBlock level (.alternative level :: (ls' ++ rest)) = (ls', rest) :=
    (if_pos rfl).trans (block_append hls' fun l hl ↦ (hr l hl).1)
  exact outline?_header hblock halternative h.eq_some h'.eq_some

theorem IsLaid.resumes (h : s.IsLaid) : Resumes level (s.lines level) := by
  have hphrase : ∀ text : String, IsPhrase text.toList → Resumes level [⟨level, text⟩] := by
    intro text ht l hl
    obtain rfl := Option.some.inj hl
    exact ⟨Nat.le_refl level, Line.ne_alternative_of_isPhrase ht level⟩
  cases h with
  | expr h => exact hphrase _ h
  | assign h => exact hphrase _ h
  | imports h => exact hphrase _ h
  | ifElse ht hne hbody horelse =>
    intro l hl
    obtain rfl := Option.some.inj hl
    exact ⟨Nat.le_refl level, Line.header_ne_alternative level _ level⟩

theorem resumes_linesOfAll (hs : ∀ s ∈ ss, s.IsLaid) : Resumes level (linesOfAll level ss) := by
  induction ss with
  | nil => exact resumes_nil
  | cons s ss ih =>
    obtain ⟨hlaid, hss⟩ := List.forall_mem_cons.mp hs
    exact hlaid.resumes.append (ih hss)

theorem shows_linesOfAll (hs : ∀ s ∈ ss, s.IsLaid) (h : ∀ s ∈ ss, Shows level (s.lines level) [s.outline]) :
    Shows level (linesOfAll level ss) (ss.map outline) := by
  induction ss with
  | nil => exact fun rest _ ↦ by simp [linesOfAll]
  | cons s ss ih =>
    obtain ⟨-, hlaid⟩ := List.forall_mem_cons.mp hs
    obtain ⟨hshow, hshows⟩ := List.forall_mem_cons.mp h
    intro rest hr
    have hresumes : Resumes level (linesOfAll level ss ++ rest) := (resumes_linesOfAll hlaid).append hr
    rw [linesOfAll, List.append_assoc, hshow _ hresumes, ih hlaid hshows rest hr, Option.map_map]
    rfl

theorem IsLaid.shows (h : s.IsLaid) : Shows level (s.lines level) [s.outline] := by
  induction h generalizing level with
  | expr h => exact shows_phrase h
  | assign h => exact shows_phrase h
  | imports h => exact shows_phrase h
  | @ifElse test body orelse ht hne hbody horelse ihbody ihorelse =>
    have hdeeper : ∀ ss, ∀ l ∈ linesOfAll (level + 1) ss, level < l.level :=
      fun ss ↦ forall_linesOfAll fun s _ ↦ le_level s
    have hb : Shows (level + 1) (linesOfAll (level + 1) body) (body.map outline) :=
      shows_linesOfAll hbody fun s hs ↦ ihbody s hs
    have ho : Shows (level + 1) (linesOfAll (level + 1) orelse) (orelse.map outline) :=
      shows_linesOfAll horelse fun s hs ↦ ihorelse s hs
    rw [lines, outline, outlines_eq_map, outlines_eq_map, List.isEmpty_eq_false_iff.mpr hne]
    cases orelse with
    | nil => simpa using shows_branch (hdeeper body) hb
    | cons s ss => exact shows_branches (hdeeper body) (hdeeper (s :: ss)) hb ho

end Stmt

theorem ofChars?_lines {ls : List Line} (h : ∀ l ∈ ls, IsLineText l.text.toList) :
    (ls.map Line.chars).mapM Line.ofChars? = some ls := by
  induction ls with
  | nil => rfl
  | cons l ls ih =>
    obtain ⟨hl, hls⟩ := List.forall_mem_cons.mp h
    rw [List.map_cons, List.mapM_cons, Line.ofChars?_chars hl, ih hls]
    rfl

theorem split_written {ls : List Line} (h : ∀ l ∈ ls, Unbroken l.text.toList) :
    Text.split '\n' (ls.flatMap Line.written) = ls.map Line.chars ++ [[]] := by
  induction ls with
  | nil => rfl
  | cons l ls ih =>
    obtain ⟨hl, hls⟩ := List.forall_mem_cons.mp h
    have hbreak : '\n' ∉ l.chars := by
      intro hmem
      rcases List.mem_append.mp hmem with hblank | htext
      · simp at hblank
      · cases hl _ htext
    rw [List.flatMap_cons, Line.written, List.append_assoc, List.singleton_append, Text.split_append_sep hbreak, ih hls]
    rfl

theorem Module.read?_source {m : Module} (h : ∀ s ∈ m.body, s.IsLaid) :
    (∀ cs ∈ lineTexts m.source, ∃ l : Line, cs = l.chars ∧ IsLineText l.text.toList) ∧
      Outline.read? m.source = some (m.body.map Stmt.outline) := by
  have htexts : ∀ l ∈ Stmt.linesOfAll 0 m.body, IsLineText l.text.toList :=
    Stmt.forall_linesOfAll fun s hs ↦ (h s hs).isLineText
  have hlines : lineTexts m.source = (Stmt.linesOfAll 0 m.body).map Line.chars := by
    have hsource : m.source.toList = (Stmt.linesOfAll 0 m.body).flatMap Line.written :=
      Stmt.toList_sources (fun s _ level ↦ Stmt.toList_source level s) 0
    simp [lineTexts, hsource, split_written fun l hl ↦ (htexts l hl).unbroken]
  rw [Outline.read?, hlines, ofChars?_lines htexts]
  refine ⟨List.forall_mem_map.mpr fun l hl ↦ ⟨l, rfl, htexts l hl⟩, ?_⟩
  exact (Stmt.shows_linesOfAll h fun s hs ↦ (h s hs).shows).eq_some

end MacroLisp.Host
