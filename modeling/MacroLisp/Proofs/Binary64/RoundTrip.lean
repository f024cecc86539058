import MacroLisp.Binary64.Text
import MacroLisp.Proofs.Binary64.Shortest
import Mathlib.Data.List.TakeWhile
import Mathlib.Data.Nat.Cast.Field

namespace MacroLisp.Binary64

variable {x : Binary64} {ws fs ds : List Char} {n : ℕ} {e : ℤ}

def AllDigits (ds : List Char) : Prop := ∀ d ∈ ds, d.isDigit = true

theorem allDigits_toDigits (n : ℕ) : AllDigits (Nat.toDigits 10 n) := fun _ hd ↦
  Nat.isDigit_of_mem_toDigits (by decide) (by decide) hd

theorem AllDigits.append (h : AllDigits ws) (h' : AllDigits fs) : AllDigits (ws ++ fs) := fun d hd ↦
  (List.mem_append.mp hd).elim (h d) (h' d)

theorem allDigits_zeros (n : ℕ) : AllDigits (List.replicate n '0') := fun d hd ↦ by
  rw [List.eq_of_mem_replicate hd]
  rfl

theorem natOfDigits_eq (ds : List Char) : natOfDigits ds = Nat.ofDigitChars 10 ds 0 := rfl

theorem natOfDigits_toDigits (n : ℕ) : natOfDigits (Nat.toDigits 10 n) = n := Nat.ofDigitChars_ten_toDigits

theorem natOfDigits_zeros_append (n : ℕ) (ds : List Char) :
    natOfDigits (List.replicate n '0' ++ ds) = natOfDigits ds := by
  rw [natOfDigits_eq, Nat.ofDigitChars_append, Nat.ofDigitChars_replicate_zero, Nat.mul_zero]
  rfl

theorem natOfDigits_append_zero (ds : List Char) : natOfDigits (ds ++ ['0']) = 10 * natOfDigits ds := by
  simp [natOfDigits]

theorem span_point (hw : AllDigits ws) (fs : List Char) :
    (ws ++ '.' :: fs).takeWhile Char.isDigit = ws ∧ (ws ++ '.' :: fs).dropWhile Char.isDigit = '.' :: fs := by
  rw [List.takeWhile_append_of_pos hw, List.takeWhile_cons_of_neg (by decide), List.append_nil,
    List.dropWhile_append_of_pos hw, List.dropWhile_cons_of_neg (by decide)]
  exact ⟨rfl, rfl⟩

theorem span_digits (hf : AllDigits fs) : fs.takeWhile Char.isDigit = fs ∧ fs.dropWhile Char.isDigit = [] :=
  ⟨List.takeWhile_eq_self_iff.mpr hf, List.dropWhile_eq_nil_iff.mpr hf⟩

theorem ofText?_point (hw : AllDigits ws) (hne : ws ≠ []) (hf : AllDigits fs) :
    ofText? (ws ++ '.' :: fs) = some (ofDecimal false (natOfDigits (ws ++ fs)) (-fs.length)) := by
  obtain ⟨ht, hd⟩ := span_point hw fs
  obtain ⟨hft, hfd⟩ := span_digits hf
  obtain ⟨w, ws', rfl⟩ := List.exists_cons_of_ne_nil hne
  have hwd := hw w (by simp)
  have hm : w ≠ '-' := by rintro rfl; simp at hwd
  have hp : w ≠ '+' := by rintro rfl; simp at hwd
  rw [List.cons_append] at ht hd
  unfold ofText?
  simp [hm, hp, ht, hd, hft, hfd]

theorem ofText?_minus_point (hw : AllDigits ws) (hne : ws ≠ []) (hf : AllDigits fs) :
    ofText? ('-' :: (ws ++ '.' :: fs)) = some (ofDecimal true (natOfDigits (ws ++ fs)) (-fs.length)) := by
  obtain ⟨ht, hd⟩ := span_point hw fs
  obtain ⟨hft, hfd⟩ := span_digits hf
  unfold ofText?
  simp [hne, ht, hd, hft, hfd]

theorem exp10_ratio (n : ℕ) (e : ℤ) : ((n * exp10 e.toNat : ℕ) : ℚ) / (exp10 (-e).toNat : ℕ) = n * 10 ^ e := by
  rw [← pow_toNat_div 10 e]
  push_cast [exp10_eq]
  ring

theorem two_pow_1200_le : (2 : ℚ) ^ 1200 ≤ 10 ^ 400 :=
  calc (2 : ℚ) ^ 1200 = (2 ^ 3) ^ 400 := pow_mul 2 3 400
    _ ≤ 10 ^ 400 := pow_le_pow_left₀ (by norm_num) (by norm_num) _

theorem exponent_le (hx : x.isFinite = true) : x.exponent ≤ 971 := by
  have h := exponentField_lt hx
  unfold exponent
  split <;> omega

theorem Near.bounds {v : ℚ} (h : x.Near v) (hx : x.isFinite = true) (hm : 0 < x.mantissa) :
    (10 : ℚ) ^ (-400 : ℤ) < v ∧ v < 10 ^ (400 : ℤ) := by
  constructor
  · have hm' : (1 : ℚ) ≤ x.mantissa := by exact_mod_cast hm
    have hr := reachBelow_le (x := x)
    have hreach : (1 / 2 : ℚ) ≤ x.mantissa - x.reachBelow := by linarith
    have hq : (2 : ℚ) ^ (-1074 : ℤ) ≤ 2 ^ x.exponent := zpow_le_zpow_right₀ one_le_two le_exponent
    calc (10 : ℚ) ^ (-400 : ℤ) = (10 ^ 400)⁻¹ := by rw [zpow_neg]; rfl
      _ ≤ (2 ^ 1200)⁻¹ := inv_anti₀ (by positivity) two_pow_1200_le
      _ = 2 ^ (-1200 : ℤ) := by rw [zpow_neg]; rfl
      _ < 2 ^ (-1075 : ℤ) := zpow_lt_zpow_right₀ one_lt_two (by norm_num)
      _ = 1 / 2 * 2 ^ (-1074 : ℤ) := by
        rw [show (-1075 : ℤ) = -1074 - 1 by norm_num, zpow_sub_one₀ two_ne_zero]
        ring
      _ ≤ (x.mantissa - x.reachBelow) * 2 ^ x.exponent := by gcongr
      _ ≤ v := h.low
  · have he := exponent_le hx
    calc v < 2 ^ (53 + x.exponent) := h.lt
      _ ≤ 2 ^ (1200 : ℤ) := zpow_le_zpow_right₀ one_le_two (by omega)
      _ ≤ 10 ^ (400 : ℤ) := two_pow_1200_le

theorem repr_length_bounds (hn : 0 < n) :
    (10 : ℚ) ^ ((n.repr.length : ℤ) - 1) ≤ n ∧ (n : ℚ) < 10 ^ (n.repr.length : ℤ) := by
  have hpos := Nat.length_repr_pos (n := n)
  have hu : n < 10 ^ n.repr.length := (Nat.length_repr_le_iff hpos).mp le_rfl
  have hl := ten_pow_length_le hn
  have he : (n.repr.length : ℤ) - 1 = ((n.repr.length - 1 : ℕ) : ℤ) := by omega
  rw [he]
  exact ⟨by exact_mod_cast hl, by exact_mod_cast hu⟩

theorem ofParts_magnitude (hs : x.isNegative = false) : ofParts false (x.bits.toNat % exp2 63) = x := by
  have hb : x.bits.toNat < exp2 63 := by simpa [isNegative] using hs
  rw [Nat.mod_eq_of_lt hb]
  simp [ofParts]

theorem ofDecimal_near (hx : x.isFinite = true) (hs : x.isNegative = false) (hm : 0 < x.mantissa)
    (h : x.Near (n * 10 ^ e)) : ofDecimal false n e = x := by
  have hv := h.pos hm
  have hn : 0 < n := by
    rcases Nat.eq_zero_or_pos n with rfl | h0
    · simp at hv
    · exact h0
  obtain ⟨hlo, hhi⟩ := h.bounds hx hm
  obtain ⟨hl, hu⟩ := repr_length_bounds hn
  have hp : (0 : ℚ) < 10 ^ e := by positivity
  have h₁ : (n.repr.length : ℤ) + e ≤ 400 := by
    have : (10 : ℚ) ^ ((n.repr.length : ℤ) - 1 + e) < 10 ^ (400 : ℤ) := by
      rw [zpow_add₀ (by norm_num)]
      exact (mul_le_mul_of_nonneg_right hl hp.le).trans_lt hhi
    have := (zpow_lt_zpow_iff_right₀ (by norm_num : (1 : ℚ) < 10)).mp this
    omega
  have h₂ : -400 ≤ (n.repr.length : ℤ) + e := by
    have : (10 : ℚ) ^ (-400 : ℤ) < 10 ^ ((n.repr.length : ℤ) + e) := by
      rw [zpow_add₀ (by norm_num)]
      exact hlo.trans (mul_lt_mul_of_pos_right hu hp)
    have := (zpow_lt_zpow_iff_right₀ (by norm_num : (1 : ℚ) < 10)).mp this
    omega
  unfold ofDecimal
  simp only
  rw [if_neg (Nat.ne_of_gt hn), if_neg (by omega), if_neg (by omega), ofRatio]
  rw [← exp10_ratio] at h
  rw [h.magnitudeOfRatio_eq (by rw [exp10_eq]; positivity) hx hm, ofParts_magnitude hs]

theorem near_absValue (x : Binary64) : x.Near x.absValue := by
  have hp : (0 : ℚ) < 2 ^ x.exponent := by positivity
  have hr : 0 < x.reachBelow := by
    unfold reachBelow
    split <;> norm_num
  have hl : (x.mantissa - x.reachBelow) * 2 ^ x.exponent < x.absValue :=
    mul_lt_mul_of_pos_right (by linarith) hp
  have hu : x.absValue < (x.mantissa + 1 / 2) * 2 ^ x.exponent :=
    mul_lt_mul_of_pos_right (by linarith) hp
  exact ⟨hl.le, hu.le, .inr ⟨hl, hu⟩⟩

theorem ratio_div (x : Binary64) : (x.ratio.1 / x.ratio.2 : ℚ) = x.absValue := by
  have h := scaled_div x.mantissa 1 (-x.exponent)
  simp only [ratio, absValue]
  rw [neg_neg] at h
  simpa [zpow_neg] using h

theorem ratio_den_pos (x : Binary64) : 0 < x.ratio.2 := by
  simp only [ratio, exp2_eq]
  positivity

theorem isIntegral_of_near (hx : x.isFinite = true) {j : ℕ} (h : x.Near j) : x.isIntegral = true := by
  have hp : (0 : ℚ) < 2 ^ x.exponent := by positivity
  suffices hd : x.ratio.2 ∣ x.ratio.1 by
    simp [isIntegral, hx, Nat.mod_eq_zero_of_dvd hd]
  rcases le_or_gt 0 x.exponent with he | he
  · have h1 : x.ratio.2 = 1 := by
      simp only [ratio, exp2_eq, Int.toNat_of_nonpos (neg_nonpos.mpr he), pow_zero]
    rw [h1]
    exact one_dvd _
  · -- In units of the last place the integer is one too, and no other is near.
    have hu : (j : ℚ) / 2 ^ x.exponent = ((j * 2 ^ (-x.exponent).toNat : ℕ) : ℚ) := by
      rw [← pow_toNat_div 2 x.exponent, Int.toNat_of_nonpos he.le]
      push_cast
      simp
    have hlow := (le_div_iff₀ hp).mpr h.low
    have hhigh := (div_le_iff₀ hp).mpr h.high
    have hr := reachBelow_le (x := x)
    rw [hu] at hlow hhigh
    have h₁ : (x.mantissa : ℚ) < ((j * 2 ^ (-x.exponent).toNat : ℕ) : ℚ) + 1 := by linarith
    have h₂ : (((j * 2 ^ (-x.exponent).toNat : ℕ) : ℚ)) < x.mantissa + 1 := by linarith
    have h₃ : x.mantissa < j * 2 ^ (-x.exponent).toNat + 1 := by exact_mod_cast h₁
    have h₄ : j * 2 ^ (-x.exponent).toNat < x.mantissa + 1 := by exact_mod_cast h₂
    have hme : x.mantissa = j * 2 ^ (-x.exponent).toNat := by omega
    simp only [ratio, exp2_eq, Int.toNat_of_nonpos he.le, pow_zero, Nat.mul_one, hme]
    exact Dvd.intro_left j rfl

/-- The two runs of digits of a number's text. -/
structure Point (x : Binary64) (ws fs : List Char) : Prop where
  text_eq : x.text.toList = ws ++ '.' :: fs
  whole : AllDigits ws
  fraction : AllDigits fs
  whole_ne_nil : ws ≠ []
  fraction_ne_nil : fs ≠ []
  value : ofDecimal false (natOfDigits (ws ++ fs)) (-fs.length) = x

theorem signText_of_not_negative (hs : x.isNegative = false) : x.signText = "" := by
  simp [signText, hs]

theorem text_of_isFinite (hx : x.isFinite = true) :
    x.text = if x.isIntegral then x.signText ++ (x.ratio.1 / x.ratio.2).repr ++ ".0"
      else x.signText ++ (x.shortest .up).positional := by
  simp only [isFinite, bne_iff_ne] at hx
  simp [text, isNaN, isInfinite, hx]

theorem exists_point_of_integral (hx : x.isFinite = true) (hs : x.isNegative = false)
    (hi : x.isIntegral = true) : ∃ ws fs, Point x ws fs := by
  have hdvd : x.ratio.2 ∣ x.ratio.1 := by
    simp only [isIntegral, Bool.and_eq_true, beq_iff_eq] at hi
    exact Nat.dvd_of_mod_eq_zero hi.2
  set n := x.ratio.1 / x.ratio.2 with hn
  refine ⟨Nat.toDigits 10 n, ['0'], ?_, allDigits_toDigits n, by simp [AllDigits], Nat.toDigits_ne_nil, by simp, ?_⟩
  · simp [text_of_isFinite hx, hi, signText_of_not_negative hs, hn]
  · rw [natOfDigits_append_zero, natOfDigits_toDigits]
    rcases Nat.eq_zero_or_pos x.mantissa with hm | hm
    · have h0 : n = 0 := by simp [hn, ratio, hm]
      have he : x.exponent = -1074 := by
        by_contra he
        have := le_mantissa (lt_of_le_of_ne le_exponent (Ne.symm he))
        omega
      have hb := ofParts_magnitude hs
      rw [magnitude_eq, hm, he] at hb
      rw [h0]
      exact hb
    · refine ofDecimal_near hx hs hm ?_
      have hv : ((10 * n : ℕ) : ℚ) * 10 ^ (-(1 : ℕ) : ℤ) = x.absValue := by
        rw [← ratio_div, ← Nat.cast_div hdvd (by exact_mod_cast (ratio_den_pos x).ne')]
        push_cast [hn]
        ring
      rw [List.length_singleton, hv]
      exact near_absValue x

theorem exponent_neg_of_not_integral (hx : x.isFinite = true) (hi : x.isIntegral = false) {d : Decimal}
    (h : x.Near d.value) : d.exponent < 0 := by
  by_contra he
  have hj : d.value = ((d.digits * 10 ^ d.exponent.toNat : ℕ) : ℚ) := by
    obtain ⟨k, hk⟩ := Int.eq_ofNat_of_zero_le (not_lt.mp he)
    simp [Decimal.value, hk]
  rw [hj] at h
  simp [isIntegral_of_near hx h] at hi

theorem Decimal.exists_positional {d : Decimal} (he : d.exponent < 0) :
    ∃ ws fs, d.positional.toList = ws ++ '.' :: fs ∧ AllDigits ws ∧ AllDigits fs ∧ ws ≠ [] ∧ fs ≠ [] ∧
      natOfDigits (ws ++ fs) = d.digits ∧ (-fs.length : ℤ) = d.exponent := by
  have hdig := allDigits_toDigits d.digits
  have hlen : d.digits.repr.length = (Nat.toDigits 10 d.digits).length := by
    rw [← String.length_toList, Nat.toList_repr]
  rw [positional, if_neg (by omega)]
  simp only [hlen, Nat.toList_repr]
  set ds := Nat.toDigits 10 d.digits with hds
  split
  · next hp =>
    refine ⟨ds.take (ds.length - (-d.exponent).toNat), ds.drop (ds.length - (-d.exponent).toNat), by simp,
      fun c hc ↦ hdig c (List.mem_of_mem_take hc), fun c hc ↦ hdig c (List.mem_of_mem_drop hc), ?_, ?_, ?_, ?_⟩
    · simp only [Ne, List.take_eq_nil_iff, not_or]
      exact ⟨by omega, Nat.toDigits_ne_nil⟩
    · simp only [Ne, List.drop_eq_nil_iff]
      omega
    · rw [List.take_append_drop, hds, natOfDigits_toDigits]
    · rw [List.length_drop]
      omega
  · next hp =>
    refine ⟨['0'], List.replicate ((-d.exponent).toNat - ds.length) '0' ++ ds, by simp [hds], by simp [AllDigits],
      (allDigits_zeros _).append hdig, by simp, by simp [hds, Nat.toDigits_ne_nil], ?_, ?_⟩
    · have hz : ['0'] ++ (List.replicate ((-d.exponent).toNat - ds.length) '0' ++ ds) =
          List.replicate ((-d.exponent).toNat - ds.length + 1) '0' ++ ds := by
        rw [List.replicate_succ]
        rfl
      rw [hz, natOfDigits_zeros_append, hds, natOfDigits_toDigits]
    · rw [List.length_append, List.length_replicate]
      omega

theorem exists_point_of_not_integral (hx : x.isFinite = true) (hs : x.isNegative = false)
    (hi : x.isIntegral = false) : ∃ ws fs, Point x ws fs := by
  have hm : 0 < x.mantissa := by
    by_contra hm
    have h0 : x.mantissa = 0 := by omega
    simp [isIntegral, hx, ratio, h0] at hi
  have hnear : x.Near (x.shortest .up).value := shortest_near hm
  obtain ⟨ws, fs, htext, hws, hfs, hw, hf, hdigits, hlength⟩ :=
    Decimal.exists_positional (exponent_neg_of_not_integral hx hi hnear)
  refine ⟨ws, fs, ?_, hws, hfs, hw, hf, ?_⟩
  · simp [text_of_isFinite hx, hi, signText_of_not_negative hs, htext]
  · rw [hdigits, hlength]
    exact ofDecimal_near hx hs hm hnear

theorem exists_point (hx : x.isFinite = true) (hs : x.isNegative = false) : ∃ ws fs, Point x ws fs := by
  cases hi : x.isIntegral with
  | true => exact exists_point_of_integral hx hs hi
  | false => exact exists_point_of_not_integral hx hs hi

theorem Point.reads (h : Point x ws fs) : ofText? (ws ++ '.' :: fs) = some x := by
  rw [ofText?_point h.whole h.whole_ne_nil h.fraction, h.value]

theorem bits_withSign (x : Binary64) : (x.withSign false).bits.toNat = x.bits.toNat % exp2 63 := by
  have hlt : x.bits.toNat % exp2 63 < UInt64.size := (Nat.mod_lt _ (by decide)).trans (by decide)
  simp only [withSign, ofParts, Bool.false_eq_true, if_false, Nat.zero_add]
  exact UInt64.toNat_ofNat_of_lt' hlt

theorem fractionField_withSign (x : Binary64) : (x.withSign false).fractionField = x.fractionField := by
  rw [fractionField, bits_withSign, fractionField]
  exact Nat.mod_mod_of_dvd _ (by decide)

theorem exponentField_withSign (x : Binary64) : (x.withSign false).exponentField = x.exponentField := by
  have h63 : exp2 63 = exp2 52 * exp2 11 := by decide
  rw [exponentField, bits_withSign, exponentField, h63, Nat.mod_mul_right_div_self, Nat.mod_mod]

theorem isNegative_withSign (x : Binary64) : (x.withSign false).isNegative = false := by
  have hlt : x.bits.toNat % exp2 63 < exp2 63 := Nat.mod_lt _ (by decide)
  simp only [isNegative, bits_withSign, decide_eq_false_iff_not, not_le, hlt]

theorem isFinite_withSign (x : Binary64) : (x.withSign false).isFinite = x.isFinite := by
  rw [isFinite, exponentField_withSign, isFinite]

theorem text_of_isNegative (hx : x.isFinite = true) (hs : x.isNegative = true) :
    x.text = "-" ++ (x.withSign false).text := by
  have hm : (x.withSign false).mantissa = x.mantissa := by
    rw [mantissa, exponentField_withSign, fractionField_withSign, mantissa]
  have he : (x.withSign false).exponent = x.exponent := by
    rw [exponent, exponentField_withSign, exponent]
  have hr : (x.withSign false).ratio = x.ratio := by
    rw [ratio, hm, he, ratio]
  have hi : (x.withSign false).isIntegral = x.isIntegral := by
    rw [isIntegral, isFinite_withSign, hr, isIntegral]
  have hd : (x.withSign false).shortest .up = x.shortest .up := by
    have hinterval : (x.withSign false).interval = x.interval := by
      simp only [interval, hm, he, fractionField_withSign, exponentField_withSign]
    rw [shortest, hinterval, shortest]
  have hsign : x.signText = "-" := by simp [signText, hs]
  rw [text_of_isFinite hx, text_of_isFinite (by rw [isFinite_withSign, hx]), hi, hr, hd, hsign,
    signText_of_not_negative (isNegative_withSign x)]
  split <;> simp [String.append_assoc]

theorem bits_ofParts {m : ℕ} (h : m < exp2 63) : (ofParts false m).bits.toNat = m := by
  simp only [ofParts, Bool.false_eq_true, if_false, Nat.zero_add]
  exact UInt64.toNat_ofNat_of_lt' (h.trans (by decide))

theorem exists_ofDecimal (n : ℕ) (e : ℤ) :
    ∃ m < exp2 63, ∀ negative, ofDecimal negative n e = ofParts negative m := by
  have hinf : infinityMagnitude < exp2 63 := by decide
  have hratio : ∀ num den, magnitudeOfRatio num den < exp2 63 := by
    intro num den
    unfold magnitudeOfRatio
    split
    · decide
    · exact (Nat.min_le_right _ _).trans_lt hinf
  unfold ofDecimal
  simp only
  split
  · exact ⟨0, by decide, fun _ ↦ rfl⟩
  · split
    · exact ⟨infinityMagnitude, hinf, fun _ ↦ rfl⟩
    · split
      · exact ⟨0, by decide, fun _ ↦ rfl⟩
      · exact ⟨_, hratio _ _, fun _ ↦ rfl⟩

theorem ofParts_of_isNegative (hs : x.isNegative = true) : ofParts true (x.bits.toNat % exp2 63) = x := by
  have hle : exp2 63 ≤ x.bits.toNat := by simpa [isNegative] using hs
  have hlt : x.bits.toNat < exp2 63 + exp2 63 := x.bits.toNat_lt.trans_eq (by decide)
  have hmod : x.bits.toNat % exp2 63 = x.bits.toNat - exp2 63 := by
    rw [Nat.mod_eq_sub_mod hle, Nat.mod_eq_of_lt (by omega)]
  simp only [ofParts, if_true, hmod, Nat.add_sub_cancel' hle, UInt64.ofNat_toNat]

theorem exists_signed_point (hx : x.isFinite = true) (hs : x.isNegative = true) :
    ∃ ws fs, Point (x.withSign false) ws fs ∧ x.text.toList = '-' :: (ws ++ '.' :: fs) ∧
      ofText? ('-' :: (ws ++ '.' :: fs)) = some x := by
  obtain ⟨ws, fs, h⟩ := exists_point ((isFinite_withSign x).trans hx) (isNegative_withSign x)
  refine ⟨ws, fs, h, ?_, ?_⟩
  · rw [text_of_isNegative hx hs, String.toList_append, h.text_eq]
    rfl
  obtain ⟨m, hm, hall⟩ := exists_ofDecimal (natOfDigits (ws ++ fs)) (-fs.length)
  have habs : ofParts false m = ofParts false (x.bits.toNat % exp2 63) := (hall false).symm.trans h.value
  have hbits := congrArg (fun y : Binary64 ↦ y.bits.toNat) habs
  simp only [bits_ofParts hm, bits_ofParts (Nat.mod_lt _ (by decide))] at hbits
  rw [ofText?_minus_point h.whole h.whole_ne_nil h.fraction, hall, hbits, ofParts_of_isNegative hs]

theorem ofText?_text (hx : x.isFinite = true) : ofText? x.text.toList = some x := by
  cases hs : x.isNegative with
  | false =>
    obtain ⟨ws, fs, h⟩ := exists_point hx hs
    rw [h.text_eq, h.reads]
  | true =>
    obtain ⟨ws, fs, -, htext, hread⟩ := exists_signed_point hx hs
    rw [htext, hread]

end MacroLisp.Binary64
