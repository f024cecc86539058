import MacroLisp.Host.Dump
import MacroLisp.Proofs.Host.Spelling

namespace MacroLisp.Host

variable {α : Type} {P : α → Prop} {f : α → List Char} {close : Char} {p q rest rest' : List Char}

def isWordChar (c : Char) : Bool := !(['(', ')', '[', ']', ',', '=', '\'', '"'].contains c)

def isWord (s : String) : Bool := !s.toList.isEmpty && s.toList.all isWordChar

def endsPart (c : Char) : Bool := [',', ')', ']'].contains c

theorem isWordChar_of_endsPart {c : Char} (h : endsPart c = true) : isWordChar c = false := by
  simp only [endsPart, List.contains_cons, List.contains_nil, Bool.or_false, Bool.or_eq_true, beq_iff_eq] at h
  rcases h with rfl | rfl | rfl <;> rfl

theorem run_append_inj {k : Char → Bool} (hp : ∀ c ∈ p, k c = true) (hq : ∀ c ∈ q, k c = true)
    (hr : rest.head?.any k = false) (hr' : rest'.head?.any k = false) (h : p ++ rest = q ++ rest') :
    p = q ∧ rest = rest' := by
  obtain ⟨hrun, hrest⟩ := Text.span_append hp hr
  obtain ⟨hrun', hrest'⟩ := Text.span_append hq hr'
  rw [h, hrun'] at hrun
  rw [h, hrest'] at hrest
  exact ⟨hrun.symm, hrest.symm⟩

theorem stringChars_append_inj {s t : List Char} (h : stringChars s ++ rest = stringChars t ++ rest') :
    s = t ∧ rest = rest' := by
  simp only [stringChars, List.cons_append, List.append_assoc, List.nil_append, List.cons.injEq] at h
  obtain ⟨hquote, hbody⟩ := h
  have hs := stringBody_escaped (isQuote_quoteFor s) s rest
  have ht := stringBody_escaped (isQuote_quoteFor t) t rest'
  rw [hbody, hquote, ht] at hs
  simpa [eq_comm] using hs

/-- The text shows which thing it is the text of, and where it ends, if a part ends there. -/
def Legible (f : α → List Char) (P : α → Prop) (x : α) : Prop :=
  ∀ y, P y → ∀ rest rest' : List Char, rest.head?.all endsPart = true → rest'.head?.all endsPart = true →
    f x ++ rest = f y ++ rest' → x = y ∧ rest = rest'

theorem ends_flatMap (hc : endsPart close = true) (xs : List α) (rest : List Char) :
    (xs.flatMap (commaBlank ++ f ·) ++ close :: rest).head?.all endsPart = true := by
  cases xs with
  | nil => exact hc
  | cons x xs => rfl

theorem flatMap_append_inj (hc : close ∈ [')', ']']) {xs ys : List α} (hx : ∀ x ∈ xs, Legible f P x)
    (hy : ∀ y ∈ ys, P y)
    (h : xs.flatMap (commaBlank ++ f ·) ++ close :: rest = ys.flatMap (commaBlank ++ f ·) ++ close :: rest') :
    xs = ys ∧ rest = rest' := by
  have hend : endsPart close = true ∧ close ≠ ',' := by
    simp only [List.mem_cons, List.not_mem_nil, or_false] at hc
    rcases hc with rfl | rfl <;> decide
  induction xs generalizing ys with
  | nil =>
    cases ys with
    | nil => simpa using h
    | cons y ys => exact absurd (List.cons.inj h).1 hend.2
  | cons x xs ih =>
    cases ys with
    | nil => exact absurd (List.cons.inj h).1.symm hend.2
    | cons y ys =>
      simp only [List.flatMap_cons, List.append_assoc, List.append_cancel_left_eq] at h
      obtain ⟨rfl, htail⟩ := hx x (by simp) y (hy y (by simp)) _ _ (ends_flatMap hend.1 xs rest)
        (ends_flatMap hend.1 ys rest') h
      obtain ⟨rfl, rfl⟩ := ih (fun x hmem ↦ hx x (by simp [hmem])) (fun y hmem ↦ hy y (by simp [hmem])) htail
      exact ⟨rfl, rfl⟩

theorem intercalate_append_inj (hc : close ∈ [')', ']']) (hhead : ∀ x, P x → (f x).head?.any endsPart = false)
    (hne : ∀ x, P x → f x ≠ []) {xs ys : List α} (hx : ∀ x ∈ xs, P x ∧ Legible f P x) (hy : ∀ y ∈ ys, P y)
    (h : commaBlank.intercalate (xs.map f) ++ close :: rest = commaBlank.intercalate (ys.map f) ++ close :: rest') :
    xs = ys ∧ rest = rest' := by
  have hend : endsPart close = true := by
    simp only [List.mem_cons, List.not_mem_nil, or_false] at hc
    rcases hc with rfl | rfl <;> rfl
  -- An empty list is followed by what closes it, and nothing else begins with that.
  have hnil : ∀ x, P x → ∀ cs us, close :: cs ≠ f x ++ us := by
    intro x hP cs us he
    obtain ⟨c, ds, hds⟩ := List.exists_cons_of_ne_nil (hne x hP)
    have hh := hhead x hP
    rw [hds] at he hh
    obtain ⟨rfl, -⟩ := List.cons.inj he
    simp [hend] at hh
  cases xs with
  | nil =>
    cases ys with
    | nil => simpa using h
    | cons y ys =>
      simp only [List.map_cons, Text.intercalate_cons, List.append_assoc] at h
      exact absurd h (hnil y (hy y (by simp)) _ _)
  | cons x xs =>
    cases ys with
    | nil =>
      simp only [List.map_cons, Text.intercalate_cons, List.append_assoc] at h
      exact absurd h.symm (hnil x (hx x (by simp)).1 _ _)
    | cons y ys =>
      simp only [List.map_cons, Text.intercalate_cons, List.append_assoc, List.flatMap_map] at h
      obtain ⟨rfl, htail⟩ := (hx x (by simp)).2 y (hy y (by simp)) _ _ (ends_flatMap hend xs rest)
        (ends_flatMap hend ys rest') h
      obtain ⟨rfl, rfl⟩ := flatMap_append_inj hc (fun x hmem ↦ (hx x (by simp [hmem])).2)
        (fun y hmem ↦ hy y (by simp [hmem])) htail
      exact ⟨rfl, rfl⟩

inductive Datum
  | word (text : String)
  | string (text : String)
  | record (kind : String) (fields : List (String × Datum))
  | list (items : List Datum)

namespace Datum

mutual

def text : Datum → String
  | word s => s
  | string s => stringText s
  | record kind fields => nodeText kind (fieldTexts fields)
  | list items => listText (texts items)

def texts : List Datum → List String
  | [] => []
  | d :: ds => text d :: texts ds

def fieldTexts : List (String × Datum) → List (String × String)
  | [] => []
  | (name, d) :: fs => (name, text d) :: fieldTexts fs

end

inductive Regular : Datum → Prop
  | word {s : String} (h : isWord s = true) : Regular (word s)
  | string (s : String) : Regular (string s)
  | record {kind : String} {fields : List (String × Datum)} (hk : isWord kind = true)
    (hn : ∀ f ∈ fields, isWord f.1 = true) (hf : ∀ f ∈ fields, Regular f.2) : Regular (record kind fields)
  | list {items : List Datum} (h : ∀ d ∈ items, Regular d) : Regular (list items)

variable {d d' : Datum} {kind : String} {fields : List (String × Datum)} {items : List Datum}

def chars (d : Datum) : List Char := d.text.toList

def fieldChars (f : String × Datum) : List Char := f.1.toList ++ '=' :: f.2.chars

theorem texts_eq_map (ds : List Datum) : texts ds = ds.map text := by
  induction ds with
  | nil => rfl
  | cons d ds ih => simp only [texts, ih, List.map_cons]

theorem fieldTexts_eq_map (fs : List (String × Datum)) : fieldTexts fs = fs.map fun f ↦ (f.1, f.2.text) := by
  induction fs with
  | nil => rfl
  | cons f fs ih => simp only [fieldTexts, ih, List.map_cons]

theorem texts_map {g : α → Datum} {t : α → String} {l : List α} (h : ∀ x ∈ l, (g x).text = t x) :
    texts (l.map g) = l.map t := by
  rw [texts_eq_map, List.map_map]
  exact List.map_congr_left h

theorem Regular.map {g : α → Datum} {l : List α} (h : ∀ x ∈ l, (g x).Regular) : (Datum.list (l.map g)).Regular := by
  refine .list fun d hd ↦ ?_
  obtain ⟨x, hx, rfl⟩ := List.mem_map.mp hd
  exact h x hx

def sign (kind : String) : Datum := record kind []

theorem text_sign (kind : String) : (sign kind).text = kind ++ "()" := by
  simp [sign, text, fieldTexts, nodeText, String.append_assoc]

theorem Regular.sign (h : isWord kind = true) : (Datum.sign kind).Regular :=
  .record h (fun f hf ↦ by cases hf) fun f hf ↦ by cases hf

theorem sign_injective : Function.Injective sign := fun _ _ h ↦ (record.inj h).1

def lead : Datum → List Char
  | word s => s.toList
  | record kind _ => kind.toList
  | _ => []

def body : Datum → List Char
  | word _ => []
  | string s => stringChars s.toList
  | record _ fields => '(' :: commaBlank.intercalate (fields.map fieldChars) ++ [')']
  | list items => '[' :: commaBlank.intercalate (items.map chars) ++ [']']

theorem chars_eq (d : Datum) : d.chars = d.lead ++ d.body := by
  have hsep : ", ".toList = commaBlank := rfl
  rw [chars]
  cases d with
  | word s => simp [text, lead, body]
  | string s => simp [text, lead, body, stringText]
  | record kind fields =>
    simp [text, nodeText, lead, body, fieldTexts_eq_map, String.toList_intercalate, hsep, Function.comp_def]
    rfl
  | list items =>
    simp [text, listText, lead, body, texts_eq_map, String.toList_intercalate, hsep, Function.comp_def]
    rfl

theorem all_of_isWord {s : String} (h : isWord s = true) : s.toList ≠ [] ∧ ∀ c ∈ s.toList, isWordChar c = true := by
  simpa [isWord] using h

theorem Regular.lead (h : d.Regular) : ∀ c ∈ d.lead, isWordChar c = true := by
  cases h with
  | word h => exact (all_of_isWord h).2
  | string s => simp [Datum.lead]
  | record hk _ _ => exact (all_of_isWord hk).2
  | list _ => simp [Datum.lead]

theorem head?_body (d : Datum) (hr : rest.head?.all endsPart = true) : (d.body ++ rest).head?.any isWordChar = false := by
  cases d with
  | word s => exact head?_any_eq_false hr fun c ↦ isWordChar_of_endsPart
  | string s =>
    have hq := isQuote_quoteFor s.toList
    simp only [isQuote, Bool.or_eq_true, beq_iff_eq] at hq
    rcases hq with hq | hq <;> simp [body, stringChars, hq, isWordChar]
  | record kind fields => simp [body, isWordChar]
  | list items => simp [body, isWordChar]

theorem head?_of_isWord {s : String} (h : isWord s = true) (cs : List Char) :
    s.toList ++ cs ≠ [] ∧ (s.toList ++ cs).head?.any endsPart = false := by
  obtain ⟨hne, hall⟩ := all_of_isWord h
  obtain ⟨c, ds, hc⟩ := List.exists_cons_of_ne_nil hne
  have hword : isWordChar c = true := hall c (by simp [hc])
  have hend : endsPart c = false := by
    by_contra he
    simp [isWordChar_of_endsPart (by simpa using he)] at hword
  simp [hc, hend]

theorem Regular.head?_chars (h : d.Regular) : d.chars ≠ [] ∧ d.chars.head?.any endsPart = false := by
  rw [chars_eq]
  cases h with
  | word h => exact head?_of_isWord h _
  | string s =>
    have hq := isQuote_quoteFor s.toList
    simp only [isQuote, Bool.or_eq_true, beq_iff_eq] at hq
    rcases hq with hq | hq <;> simp [Datum.lead, body, stringChars, hq, endsPart]
  | record hk _ _ => exact head?_of_isWord hk _
  | list _ => simp [Datum.lead, body, endsPart]

structure IsField (f : String × Datum) : Prop where
  name : isWord f.1 = true
  value : f.2.Regular

theorem legible_fieldChars {f : String × Datum} (hn : isWord f.1 = true) (hd : Legible chars Regular f.2) :
    Legible fieldChars IsField f := by
  intro g hg rest rest' hr hr' h
  simp only [fieldChars, List.append_assoc, List.cons_append] at h
  obtain ⟨hname, hvalue⟩ := run_append_inj (all_of_isWord hn).2 (all_of_isWord hg.name).2 rfl rfl h
  obtain ⟨heq, hrest⟩ := hd g.2 hg.value rest rest' hr hr' (List.cons.inj hvalue).2
  exact ⟨Prod.ext (String.toList_inj.mp hname) heq, hrest⟩

theorem Regular.append_inj (h : d.Regular) (h' : d'.Regular) (hr : rest.head?.all endsPart = true)
    (hr' : rest'.head?.all endsPart = true) (he : d.chars ++ rest = d'.chars ++ rest') :
    d.lead = d'.lead ∧ d.body ++ rest = d'.body ++ rest' := by
  rw [chars_eq, chars_eq, List.append_assoc, List.append_assoc] at he
  exact run_append_inj h.lead h'.lead (head?_body d hr) (head?_body d' hr') he

theorem quoteFor_ne (cs : List Char) : quoteFor cs ≠ '(' ∧ quoteFor cs ≠ '[' := by
  unfold quoteFor
  split <;> decide

theorem Regular.legible (h : d.Regular) : Legible chars Regular d := by
  induction h with
  | word hs =>
    intro y hy rest rest' hr hr' h
    obtain ⟨hlead, hbody⟩ := (word hs).append_inj hy hr hr' h
    cases hy with
    | word _ => exact ⟨congrArg Datum.word (String.toList_inj.mp hlead), hbody⟩
    | string t => exact absurd hlead (all_of_isWord hs).1
    | record _ _ _ =>
      obtain rfl : rest = _ := hbody
      cases hr
    | list _ => exact absurd hlead (all_of_isWord hs).1
  | string s =>
    intro y hy rest rest' hr hr' h
    obtain ⟨hlead, hbody⟩ := (string s).append_inj hy hr hr' h
    cases hy with
    | word ht => exact absurd hlead.symm (all_of_isWord ht).1
    | string t =>
      obtain ⟨htext, hrest⟩ := stringChars_append_inj hbody
      exact ⟨congrArg Datum.string (String.toList_inj.mp htext), hrest⟩
    | record hk _ _ => exact absurd hlead.symm (all_of_isWord hk).1
    | list _ => exact absurd (List.cons.inj hbody).1 (quoteFor_ne s.toList).2
  | record hk hn hf ih =>
    intro y hy rest rest' hr hr' h
    obtain ⟨hlead, hbody⟩ := (record hk hn hf).append_inj hy hr hr' h
    cases hy with
    | word _ =>
      obtain rfl : _ = rest' := hbody
      cases hr'
    | string t => exact absurd hlead (all_of_isWord hk).1
    | record _ hn' hf' =>
      simp only [body, List.cons_append, List.append_assoc, List.cons.injEq, true_and] at hbody
      obtain ⟨rfl, hrest⟩ := intercalate_append_inj (f := fieldChars) (P := IsField) (by decide)
        (fun f hf ↦ (head?_of_isWord hf.name _).2) (fun f hf ↦ (head?_of_isWord hf.name _).1)
        (fun f hmem ↦ ⟨⟨hn f hmem, hf f hmem⟩, legible_fieldChars (hn f hmem) (ih f hmem)⟩)
        (fun f hmem ↦ ⟨hn' f hmem, hf' f hmem⟩) hbody
      exact ⟨congrArg (Datum.record · _) (String.toList_inj.mp hlead), hrest⟩
    | list _ => exact absurd hlead (all_of_isWord hk).1
  | list hd ih =>
    intro y hy rest rest' hr hr' h
    obtain ⟨hlead, hbody⟩ := (list hd).append_inj hy hr hr' h
    cases hy with
    | word ht => exact absurd hlead.symm (all_of_isWord ht).1
    | string t => exact absurd (List.cons.inj hbody).1.symm (quoteFor_ne t.toList).2
    | record hk _ _ => exact absurd hlead.symm (all_of_isWord hk).1
    | list hd' =>
      simp only [body, List.cons_append, List.append_assoc, List.cons.injEq, true_and] at hbody
      obtain ⟨rfl, hrest⟩ := intercalate_append_inj (f := chars) (P := Regular) (by decide)
        (fun d hd ↦ hd.head?_chars.2) (fun d hd ↦ hd.head?_chars.1)
        (fun d hmem ↦ ⟨hd d hmem, ih d hmem⟩) hd' hbody
      exact ⟨rfl, hrest⟩

theorem eq_of_text_eq (h : d.Regular) (h' : d'.Regular) (he : d.text = d'.text) : d = d' :=
  (h.legible d' h' [] [] rfl rfl (by rw [chars, he, chars])).1

end Datum

end MacroLisp.Host
