import MacroLisp.Expansion.Definition
import MacroLisp.Proofs.Expansion.Transfer

namespace MacroLisp

variable {α β σ ε : Type} {e : ε} {s s' : σ}

/-- Finds the entries and stores them in turn, up to the first that cannot be had. -/
def storeInTurn (find : α → Except ε β) (store : σ → β → σ) : List α → σ → Except ε Unit × σ
  | [], s => (.ok (), s)
  | a :: as, s =>
    match find a with
    | .error e => (.error e, s)
    | .ok b => storeInTurn find store as (store s b)

section StoreInTurn

variable {find : α → Except ε β} {store : σ → β → σ} {as : List α} {a : α} {b : β}

theorem storeInTurn_cons_of_ok (h : find a = .ok b) (s : σ) :
    storeInTurn find store (a :: as) s = storeInTurn find store as (store s b) := by
  rw [storeInTurn, h]

theorem storeInTurn_cons_of_error (h : find a = .error e) (s : σ) :
    storeInTurn find store (a :: as) s = (.error e, s) := by
  rw [storeInTurn, h]

theorem storeInTurn_append {before : List α} {bs : List β} (h : before.map find = bs.map .ok) (as : List α) (s : σ) :
    storeInTurn find store (before ++ as) s = storeInTurn find store as (bs.foldl store s) := by
  induction before generalizing bs s with
  | nil =>
    obtain rfl := List.map_eq_nil_iff.mp h.symm
    rfl
  | cons a before ih =>
    obtain ⟨b, bs, rfl, hb, hbs⟩ := List.map_eq_cons_iff.mp h.symm
    rw [List.cons_append, storeInTurn_cons_of_ok hb.symm, ih hbs.symm, List.foldl_cons]

theorem storeInTurn_eq_error_iff : storeInTurn find store as s = (.error e, s') ↔
    ∃ (before : List α) (a : α) (after : List α) (bs : List β), as = before ++ a :: after ∧
      before.map find = bs.map .ok ∧ find a = .error e ∧ s' = bs.foldl store s := by
  constructor
  · intro h
    induction as generalizing s with
    | nil => cases h
    | cons a as ih =>
      cases ha : find a with
      | error e' =>
        rw [storeInTurn_cons_of_error ha] at h
        cases h
        exact ⟨[], a, as, [], rfl, rfl, ha, rfl⟩
      | ok b =>
        rw [storeInTurn_cons_of_ok ha] at h
        obtain ⟨before, a', after, bs, rfl, hbefore, ha', rfl⟩ := ih h
        exact ⟨a :: before, a', after, b :: bs, rfl, by rw [List.map_cons, ha, hbefore, List.map_cons], ha', rfl⟩
  · rintro ⟨before, a, after, bs, rfl, hbefore, ha, rfl⟩
    rw [storeInTurn_append hbefore, storeInTurn_cons_of_error ha]

end StoreInTurn

def foundOr (missing : α → ε) (lookup : α → Option β) (a : α) : Except ε β :=
  match lookup a with
  | none => .error (missing a)
  | some b => .ok b

section FoundOr

variable {missing : α → ε} {lookup : α → Option β} {as : List α} {bs : List β} {a : α}

theorem foundOr_eq_ok_iff {b : β} : foundOr missing lookup a = .ok b ↔ lookup a = some b := by
  unfold foundOr
  cases lookup a <;> simp

theorem foundOr_eq_error_iff : foundOr missing lookup a = .error e ↔ lookup a = none ∧ e = missing a := by
  unfold foundOr
  cases lookup a <;> simp [eq_comm]

theorem map_foundOr_eq_iff : as.map (foundOr missing lookup) = bs.map .ok ↔ as.map lookup = bs.map some := by
  induction as generalizing bs with
  | nil => cases bs <;> simp
  | cons a as ih =>
    cases bs with
    | nil => simp
    | cons b bs => simp [ih, foundOr_eq_ok_iff]

theorem storeInTurn_foundOr_eq_error_iff {store : σ → β → σ} :
    storeInTurn (foundOr missing lookup) store as s = (.error e, s') ↔
      ∃ (before : List α) (a : α) (after : List α) (bs : List β), as = before ++ a :: after ∧
        before.map lookup = bs.map some ∧ lookup a = none ∧ e = missing a ∧ s' = bs.foldl store s := by
  simp only [storeInTurn_eq_error_iff, map_foundOr_eq_iff, foundOr_eq_error_iff, and_assoc]

theorem eq_storeInTurn_foundOr {store : σ → β → σ} {f : List α → σ → Except ε Unit × σ} (hnil : ∀ s, f [] s = (.ok (), s))
    (hnone : ∀ a as s, lookup a = none → f (a :: as) s = (.error (missing a), s))
    (hsome : ∀ a b as s, lookup a = some b → f (a :: as) s = f as (store s b)) (as : List α) (s : σ) :
    f as s = storeInTurn (foundOr missing lookup) store as s := by
  induction as generalizing s with
  | nil => exact hnil s
  | cons a as ih =>
    cases ha : lookup a with
    | none => rw [hnone a as s ha, storeInTurn_cons_of_error (foundOr_eq_error_iff.mpr ⟨ha, rfl⟩)]
    | some b => rw [hsome a b as s ha, storeInTurn_cons_of_ok (foundOr_eq_ok_iff.mpr ha), ih]

end FoundOr

theorem map_fst_eq_error_iff {p : Except ε α × σ} (f : α → β) :
    (p.1.map f, p.2) = (.error e, s') ↔ p = (.error e, s') := by
  obtain ⟨e' | a, t⟩ := p
  · simp [Except.map]
  · simp [Except.map]

namespace MacroTable

variable {S T T' : MacroTable} {q : Option String}

def renamed? (S T : MacroTable) (q : Option String) (p : String × String) : Option MacroBinding :=
  (S.get? p.1).map fun b ↦ { b with name := requiredKey T q p.2 }

theorem requirePairs_eq (S T : MacroTable) (q : Option String) (pairs : List (String × String)) :
    S.requirePairs q pairs T =
      storeInTurn (foundOr (fun p ↦ .missingName p.1 S.module) (S.renamed? T q)) insert pairs T := by
  -- The keys hang on the mangling of the target, which stays the same while bindings are stored.
  have hall : ∀ T' : MacroTable, T'.mangle = T.mangle → S.requirePairs q pairs T' =
      storeInTurn (foundOr (fun p ↦ .missingName p.1 S.module) (S.renamed? T q)) insert pairs T' := by
    induction pairs with
    | nil => exact fun T' _ ↦ rfl
    | cons p pairs ih =>
      intro T' hmangle
      have hkey : requiredKey T' q p.2 = requiredKey T q p.2 := by simp only [requiredKey, hmangle]
      cases hp : S.get? p.1 with
      | none =>
        have hnone : S.renamed? T q p = none := by rw [renamed?, hp, Option.map_none]
        rw [storeInTurn_cons_of_error (foundOr_eq_error_iff.mpr ⟨hnone, rfl⟩)]
        simp only [requirePairs, hp]
      | some b =>
        have hsome : S.renamed? T q p = some { b with name := requiredKey T q p.2 } := by
          rw [renamed?, hp, Option.map_some]
        rw [storeInTurn_cons_of_ok (foundOr_eq_ok_iff.mpr hsome), ← ih _ (by exact hmangle)]
        simp only [requirePairs, hp, hkey]
  exact hall T rfl

theorem requireReaderTags_eq (S T : MacroTable) (tags : List String) :
    S.requireReaderTags tags T =
      storeInTurn (foundOr (RequireError.missingName · S.module) S.getReader?) insertReader tags T := by
  refine eq_storeInTurn_foundOr (fun _ ↦ rfl) (fun tag tags T htag ↦ ?_) (fun tag m tags T htag ↦ ?_) tags T
  · simp only [requireReaderTags, htag]
  · simp only [requireReaderTags, htag]

theorem enableTags_eq (S : MacroTable) (tags : List String) (r : Reader) :
    S.enableTags tags r = storeInTurn (foundOr .undefinedReader S.getReader?) Reader.enable tags r := by
  refine eq_storeInTurn_foundOr (fun _ ↦ rfl) (fun tag tags r htag ↦ ?_) (fun tag m tags r htag ↦ ?_) tags r
  · simp only [enableTags, htag]
  · simp only [enableTags, htag]

def define (t : MacroTable) (d : Definition) : MacroTable := t.installTemplate d.name d.template

theorem load_eq (T : MacroTable) (forms : List Node) :
    T.load forms =
      ((storeInTurn Definition.ofNode define (forms.filter Node.isDefinition) T).1.map fun _ ↦
          forms.filter fun form ↦ !form.isDefinition,
        (storeInTurn Definition.ofNode define (forms.filter Node.isDefinition) T).2) := by
  induction forms generalizing T with
  | nil => rfl
  | cons form forms ih =>
    by_cases hform : form.isDefinition = true
    · rw [load, if_pos hform, List.filter_cons_of_pos hform, List.filter_cons_of_neg (by simp [hform])]
      cases hd : Definition.ofNode form with
      | error e =>
        rw [storeInTurn_cons_of_error hd]
        rfl
      | ok d =>
        rw [storeInTurn_cons_of_ok hd]
        exact ih _
    · rw [load, if_neg hform, List.filter_cons_of_neg hform, List.filter_cons_of_pos (by simp [hform]), ih]
      cases (storeInTurn Definition.ofNode define (forms.filter Node.isDefinition) T).1 <;> rfl

theorem renamed?_eq_none_iff {p : String × String} : S.renamed? T q p = none ↔ S.get? p.1 = none :=
  Option.map_eq_none_iff

theorem require_eq_error_iff {assignments : Assignments} {e : RequireError} :
    S.require assignments q T = (.error e, T') ↔ S.module ≠ T.module ∧
      ∃ (before : List (String × String)) (p : String × String) (after : List (String × String))
        (bs : List MacroBinding), assignments.pairs S = before ++ p :: after ∧
        before.map (S.renamed? T q) = bs.map some ∧ S.get? p.1 = none ∧ e = .missingName p.1 S.module ∧
        T' = T.insertAll bs := by
  unfold require
  dsimp only
  split
  · next hnothing =>
    refine ⟨fun h ↦ by simp at h, ?_⟩
    rintro ⟨hmodule, before, p, after, bs, has, -⟩
    rw [hnothing.resolve_left hmodule] at has
    simp at has
  · next hsome =>
    rw [map_fst_eq_error_iff, requirePairs_eq, storeInTurn_foundOr_eq_error_iff]
    simp only [renamed?_eq_none_iff]
    exact (and_iff_right fun hmodule ↦ hsome (.inl hmodule)).symm

theorem requireReaders_eq_error_iff {assignments : ReaderAssignments} {e : RequireError} :
    S.requireReaders assignments T = (.error e, T') ↔ S.module ≠ T.module ∧
      ∃ (before : List String) (tag : String) (after : List String) (ms : List ReaderMacro),
        assignments.tags S = before ++ tag :: after ∧ before.map S.getReader? = ms.map some ∧
        S.getReader? tag = none ∧ e = .missingName tag S.module ∧ T' = ms.foldl insertReader T := by
  unfold requireReaders
  dsimp only
  split
  · next hmodule => exact ⟨fun h ↦ by simp at h, fun h ↦ absurd hmodule h.1⟩
  · next hmodule =>
    rw [map_fst_eq_error_iff, requireReaderTags_eq, storeInTurn_foundOr_eq_error_iff]
    exact (and_iff_right hmodule).symm

theorem enableReaders_eq_error_iff {assignments : ReaderAssignments} {e : RequireError} {r r' : Reader} :
    S.enableReaders assignments r = (.error e, r') ↔
      ∃ (before : List String) (tag : String) (after : List String) (ms : List ReaderMacro),
        assignments.tags S = before ++ tag :: after ∧ before.map S.getReader? = ms.map some ∧
        S.getReader? tag = none ∧ e = .undefinedReader tag ∧ r' = ms.foldl Reader.enable r := by
  rw [enableReaders, enableTags_eq, storeInTurn_foundOr_eq_error_iff]

theorem load_eq_error_iff {forms : List Node} {e : DefinitionError} :
    T.load forms = (.error e, T') ↔
      ∃ (before : List Node) (form : Node) (after : List Node) (ds : List Definition),
        forms = before ++ form :: after ∧ (before.filter Node.isDefinition).map Definition.ofNode = ds.map .ok ∧
        form.isDefinition = true ∧ Definition.ofNode form = .error e ∧ T' = ds.foldl define T := by
  rw [load_eq, map_fst_eq_error_iff, storeInTurn_eq_error_iff]
  constructor
  · rintro ⟨before, form, after, ds, hforms, hbefore, hform, rfl⟩
    obtain ⟨front, back, rfl, rfl, hback⟩ := List.filter_eq_append_iff.mp hforms
    obtain ⟨skipped, rest, rfl, hskipped, hdefinition, -⟩ := List.filter_eq_cons_iff.mp hback
    refine ⟨front ++ skipped, form, rest, ds, by simp, ?_, hdefinition, hform, rfl⟩
    rw [List.filter_append, List.filter_eq_nil_iff.mpr hskipped, List.append_nil, hbefore]
  · rintro ⟨before, form, after, ds, rfl, hbefore, hdefinition, hform, rfl⟩
    refine ⟨before.filter Node.isDefinition, form, after.filter Node.isDefinition, ds, ?_, hbefore, hform, rfl⟩
    rw [List.filter_append, List.filter_cons_of_pos hdefinition]

/-- A transfer, an enabling or a load that fails does so at the first entry that is missing or malformed. The target is
what it was before, with the entries in front of that one stored in turn. -/
theorem failure_stores_what_precedes (S T : MacroTable) (r : Reader) :
    (∀ (assignments : Assignments) (q : Option String) (e : RequireError) (T' : MacroTable),
      S.require assignments q T = (.error e, T') ↔ S.module ≠ T.module ∧
        ∃ (before : List (String × String)) (p : String × String) (after : List (String × String))
          (bs : List MacroBinding), assignments.pairs S = before ++ p :: after ∧
          before.map (S.renamed? T q) = bs.map some ∧ S.get? p.1 = none ∧ e = .missingName p.1 S.module ∧
          T' = bs.foldl insert T) ∧
    (∀ (assignments : ReaderAssignments) (e : RequireError) (T' : MacroTable),
      S.requireReaders assignments T = (.error e, T') ↔ S.module ≠ T.module ∧
        ∃ (before : List String) (tag : String) (after : List String) (ms : List ReaderMacro),
          assignments.tags S = before ++ tag :: after ∧ before.map S.getReader? = ms.map some ∧
          S.getReader? tag = none ∧ e = .missingName tag S.module ∧ T' = ms.foldl insertReader T) ∧
    (∀ (assignments : ReaderAssignments) (e : RequireError) (r' : Reader),
      S.enableReaders assignments r = (.error e, r') ↔
        ∃ (before : List String) (tag : String) (after : List String) (ms : List ReaderMacro),
          assignments.tags S = before ++ tag :: after ∧ before.map S.getReader? = ms.map some ∧
          S.getReader? tag = none ∧ e = .undefinedReader tag ∧ r' = ms.foldl Reader.enable r) ∧
    ∀ (forms : List Node) (e : DefinitionError) (T' : MacroTable), T.load forms = (.error e, T') ↔
      ∃ (before : List Node) (form : Node) (after : List Node) (ds : List Definition),
        forms = before ++ form :: after ∧ (before.filter Node.isDefinition).map Definition.ofNode = ds.map .ok ∧
        form.isDefinition = true ∧ Definition.ofNode form = .error e ∧ T' = ds.foldl define T :=
  ⟨fun _ _ _ _ ↦ require_eq_error_iff, fun _ _ _ ↦ requireReaders_eq_error_iff, fun _ _ _ ↦ enableReaders_eq_error_iff,
    fun _ _ _ ↦ load_eq_error_iff⟩

/-- Each of the four fails at its second entry, and the first is stored by then. -/
theorem first_entry_stored_before_failure :
    let S := ((new "lib" Name.mangle).install "a" (fun _ ↦ .refuse "") none).installReader "up" .ok
    let T := new "main" Name.mangle
    let r := Reader.ofString ""
    let definition (name : Node) : Node :=
      .form [.symbol "defmacro" .nowhere, name, .sequence .bracket [] .nowhere, .symbol "x" .nowhere] .nowhere
    let forms := [definition (.symbol "a" .nowhere), definition (.literal (.int 1) .nowhere)]
    ((S.require (.names [("a", "a"), ("b", "b")]) none T).1 = .error (.missingName "b" "lib") ∧
      (S.require (.names [("a", "a"), ("b", "b")]) none T).2 ≠ T) ∧
    ((S.requireReaders (.names ["up", "down"]) T).1 = .error (.missingName "down" "lib") ∧
      (S.requireReaders (.names ["up", "down"]) T).2 ≠ T) ∧
    ((S.enableReaders (.names ["up", "down"]) r).1 = .error (.undefinedReader "down") ∧
      (S.enableReaders (.names ["up", "down"]) r).2 ≠ r) ∧
    (T.load forms).1.isOk = false ∧ (T.load forms).2 ≠ T := by
  intro S T r definition forms
  refine ⟨⟨by decide +kernel, ?_⟩, ⟨by decide +kernel, ?_⟩, ⟨by decide +kernel, ?_⟩, by decide +kernel, ?_⟩
  · exact ne_of_apply_ne (·.contains "a") (by decide +kernel)
  · exact ne_of_apply_ne readerTags (by decide +kernel)
  · exact ne_of_apply_ne (·.isEnabled "up") (by decide +kernel)
  · exact ne_of_apply_ne (·.contains "a") (by decide +kernel)

end MacroTable

end MacroLisp
