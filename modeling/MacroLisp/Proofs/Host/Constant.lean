import MacroLisp.Proofs.Binary64.RoundTrip
import MacroLisp.Proofs.Host.Datum

namespace MacroLisp

namespace Binary64

variable {x y : Binary64}

theorem eq_of_fields_eq (hs : x.isNegative = y.isNegative) (he : x.exponentField = y.exponentField)
    (hf : x.fractionField = y.fractionField) : x = y := by
  have hx := x.bits.toNat_lt
  have hy := y.bits.toNat_lt
  have hbits : x.bits.toNat = y.bits.toNat := by
    have h63 : exp2 63 = 2 ^ 63 := rfl
    have h52 : exp2 52 = 2 ^ 52 := rfl
    have h11 : exp2 11 = 2 ^ 11 := rfl
    simp only [isNegative, exponentField, fractionField, h63, h52, h11, decide_eq_decide] at hs he hf
    omega
  exact congrArg Binary64.mk (UInt64.toNat_inj.mp hbits)

theorem eq_infinity (hx : x.isFinite = false) (hn : x.isNaN = false) : x = infinity x.isNegative := by
  obtain ⟨he, hf⟩ : x.exponentField = 2047 ∧ x.fractionField = 0 := by simp_all [isFinite, isNaN]
  cases hs : x.isNegative with
  | false => exact eq_of_fields_eq hs he hf
  | true => exact eq_of_fields_eq hs he hf

end Binary64

namespace Host

/-- The constant with one NaN in place of all. -/
def Constant.withOneNaN : Constant → Constant
  | float x => if x.isNaN then float (.nan false) else float x
  | c => c

namespace Constant

variable {c c' : Constant}

def datum : Constant → Datum
  | string s => .string s
  | c => .word c.text

theorem text_datum (c : Constant) : c.datum.text = c.text := by
  cases c <;> rfl

theorem isWordChar_of_isDigit {d : Char} (h : d.isDigit = true) : isWordChar d = true := by
  by_contra hd
  simp only [isWordChar, List.contains_cons, List.contains_nil, Bool.or_false, Bool.not_eq_true', Bool.not_eq_false,
    Bool.or_eq_true, beq_iff_eq] at hd
  rcases hd with rfl | rfl | rfl | rfl | rfl | rfl | rfl | rfl <;> cases h

theorem toList_intText (n : Int64) : (int n).text.toList =
    if n.toInt < 0 then '-' :: Nat.toDigits 10 n.toInt.natAbs else Nat.toDigits 10 n.toInt.natAbs :=
  Text.toList_toString n.toInt

theorem exists_floatText {x : Binary64} (hx : x.isFinite = true) :
    ∃ sign ws fs, (floatText x).toList = sign ++ (ws ++ '.' :: fs) ∧ (sign = [] ∨ sign = ['-']) ∧
      Binary64.AllDigits ws ∧ Binary64.AllDigits fs ∧ ws ≠ [] := by
  have hnan : x.isNaN = false := by simp_all [Binary64.isFinite, Binary64.isNaN]
  simp only [floatText, hnan, Bool.false_eq_true, if_false]
  cases hs : x.isNegative with
  | false =>
    obtain ⟨ws, fs, h⟩ := Binary64.exists_point hx hs
    exact ⟨[], ws, fs, by simp [h.text_eq], .inl rfl, h.whole, h.fraction, h.whole_ne_nil⟩
  | true =>
    obtain ⟨ws, fs, h, htext, -⟩ := Binary64.exists_signed_point hx hs
    exact ⟨['-'], ws, fs, by simp [htext], .inr rfl, h.whole, h.fraction, h.whole_ne_nil⟩

theorem floatText_of_not_finite {x : Binary64} (hx : x.isFinite = false) :
    floatText x = if x.isNaN then "nan" else if x.isNegative then "-inf" else "inf" := by
  cases hn : x.isNaN with
  | true => simp [floatText, hn]
  | false =>
    have hinf : x.isInfinite = true := by simp_all [Binary64.isFinite, Binary64.isNaN, Binary64.isInfinite]
    cases hs : x.isNegative <;> simp [floatText, hn, hinf, hs, Binary64.text, Binary64.signText]

theorem regular_datum (c : Constant) : c.datum.Regular := by
  cases c with
  | none => exact .word rfl
  | bool b => cases b <;> exact .word rfl
  | string s => exact .string s
  | int n =>
    refine .word ?_
    have hall : ∀ d ∈ Nat.toDigits 10 n.toInt.natAbs, isWordChar d = true := fun d hd ↦
      isWordChar_of_isDigit (Binary64.allDigits_toDigits _ d hd)
    rw [isWord, toList_intText]
    split
    · simpa using ⟨rfl, hall⟩
    · simpa [Nat.toDigits_ne_nil] using hall
  | float x =>
    refine .word ?_
    cases hx : x.isFinite with
    | false =>
      rw [text, floatText_of_not_finite hx]
      split
      · rfl
      · split <;> rfl
    | true =>
      obtain ⟨sign, ws, fs, htext, hsign, hw, hf, -⟩ := exists_floatText hx
      have hall : ∀ c ∈ sign ++ (ws ++ '.' :: fs), isWordChar c = true := by
        intro c hc
        simp only [List.mem_append, List.mem_cons] at hc
        rcases hc with hc | hc | rfl | hc
        · rcases hsign with rfl | rfl
          · cases hc
          · obtain rfl := List.mem_singleton.mp hc
            rfl
        · exact isWordChar_of_isDigit (hw c hc)
        · rfl
        · exact isWordChar_of_isDigit (hf c hc)
      rw [isWord, text, htext, List.all_eq_true.mpr hall]
      simp

def words : List (List Char × Constant) :=
  [("None".toList, none), ("True".toList, bool true), ("False".toList, bool false), ("nan".toList, float (.nan false)),
    ("inf".toList, float (.infinity false)), ("-inf".toList, float (.infinity true))]

def signedOfDigits (cs : List Char) : Int :=
  if cs.head? = some '-' then -(Binary64.natOfDigits cs.tail : Int) else Binary64.natOfDigits cs

def ofWord (cs : List Char) : Option Constant :=
  (words.lookup cs).or <|
    if cs.contains '.' then (Binary64.ofText? cs).map float else some (int (Int64.ofInt (signedOfDigits cs)))

theorem lookup_words {cs : List Char} (p : Char → Bool) (h : ∀ w ∈ words, w.1.any p = !cs.any p) :
    words.lookup cs = Option.none := by
  refine List.lookup_eq_none_iff.mpr fun w hw ↦ bne_iff_ne.mpr ?_
  rintro rfl
  simpa using h w hw

theorem signedOfDigits_toString (i : Int) : signedOfDigits (toString i).toList = i := by
  rw [Text.toList_toString]
  split
  · simp only [signedOfDigits, List.head?_cons, if_true, List.tail_cons, Binary64.natOfDigits_toDigits]
    omega
  · have hhead : (Nat.toDigits 10 i.natAbs).head? ≠ some '-' := by
      intro h
      have hd := Binary64.allDigits_toDigits i.natAbs '-' (List.mem_of_mem_head? h)
      cases hd
    simp only [signedOfDigits, if_neg hhead, Binary64.natOfDigits_toDigits]
    omega

theorem datum_withOneNaN (c : Constant) : c.withOneNaN.datum = c.datum := by
  cases c with
  | float x =>
    cases hx : x.isNaN with
    | false => simp [withOneNaN, hx]
    | true =>
      have hnan : (Binary64.nan false).isNaN = true := rfl
      simp [withOneNaN, hx, datum, text, floatText, hnan]
  | _ => rfl

theorem ofWord_text (c : Constant) (h : ∀ s, c ≠ string s) : ofWord c.text.toList = some c.withOneNaN := by
  cases c with
  | none => rfl
  | bool b => cases b <;> rfl
  | string s => exact absurd rfl (h s)
  | int n =>
    have hall : ∀ c ∈ (int n).text.toList, c.isDigit = true ∨ c = '-' := by
      intro c hc
      rw [toList_intText] at hc
      split at hc
      · rcases List.mem_cons.mp hc with rfl | hc
        · exact .inr rfl
        · exact .inl (Binary64.allDigits_toDigits _ c hc)
      · exact .inl (Binary64.allDigits_toDigits _ c hc)
    have hletter : (int n).text.toList.any Char.isAlpha = false := by
      rw [List.any_eq_false]
      intro c hc
      rcases hall c hc with hd | rfl
      · simp [isAlpha_of_isDigit hd]
      · decide
    have hpoint : (int n).text.toList.contains '.' = false := by
      by_contra hp
      rcases hall '.' (by simpa using hp) with hd | hd <;> cases hd
    rw [ofWord, lookup_words Char.isAlpha (by rw [hletter]; decide), hpoint, text, signedOfDigits_toString,
      Int64.ofInt_toInt]
    rfl
  | float x =>
    rw [text, withOneNaN]
    cases hx : x.isFinite with
    | true =>
      obtain ⟨sign, ws, fs, htext, -⟩ := exists_floatText hx
      have hnan : x.isNaN = false := by simp_all [Binary64.isFinite, Binary64.isNaN]
      have hpoint : '.' ∈ (floatText x).toList := by simp [htext]
      have hany : (floatText x).toList.any (· == '.') = true := by simpa using hpoint
      have hread : Binary64.ofText? (floatText x).toList = some x := by
        simpa [floatText, hnan] using Binary64.ofText?_text hx
      rw [ofWord, lookup_words (· == '.') (by rw [hany]; decide), List.contains_iff_mem.mpr hpoint, if_pos rfl, hread,
        hnan]
      rfl
    | false =>
      rw [floatText_of_not_finite hx]
      cases hn : x.isNaN with
      | true =>
        rw [if_pos rfl, if_pos rfl]
        rfl
      | false =>
        have hinf := Binary64.eq_infinity hx hn
        cases hs : x.isNegative <;> rw [hs] at hinf <;> rw [hinf] <;> rfl

theorem withOneNaN_eq {c c' : Constant} (h : c.datum = c'.datum) : c.withOneNaN = c'.withOneNaN := by
  have hword : ∀ c : Constant, ∀ w, c.datum = .word w → ofWord w.toList = some c.withOneNaN := by
    intro c w hw
    have hs : ∀ s, c ≠ string s := by
      rintro s rfl
      cases hw
    have htext : c.text = w := by rw [← text_datum, hw, Datum.text]
    rw [← htext, ofWord_text c hs]
  have hstring : ∀ c : Constant, ∀ s, c.datum = .string s → c = string s := by
    intro c s hs
    cases c <;> cases hs
    rfl
  cases hc : c.datum with
  | word w =>
    have hread := (hword c w hc).symm.trans (hword c' w (h.symm.trans hc))
    exact Option.some.inj hread
  | string s => rw [hstring c s hc, hstring c' s (h.symm.trans hc)]
  | record kind fields => cases c <;> cases hc
  | list items => cases c <;> cases hc

end Constant

end Host

end MacroLisp
