import MacroLisp.Binary64.Basic
import Mathlib.Algebra.Order.Field.Rat
import Mathlib.Algebra.Order.Field.Power
import Mathlib.Tactic.Linarith
import Mathlib.Tactic.FieldSimp
import Mathlib.Tactic.Ring
import Mathlib.Tactic.NormNum
import Mathlib.Tactic.Positivity

namespace MacroLisp.Binary64

theorem exp2_eq (n : Nat) : exp2 n = 2 ^ n := rfl

theorem exp10_eq (n : Nat) : exp10 n = 10 ^ n := rfl

theorem pow_toNat_div (b : ℚ) (e : ℤ) : b ^ e.toNat / b ^ (-e).toNat = b ^ e := by
  rcases le_total 0 e with h | h
  · obtain ⟨n, rfl⟩ := Int.eq_ofNat_of_zero_le h
    simp
  · obtain ⟨n, hn⟩ := Int.eq_ofNat_of_zero_le (neg_nonneg.mpr h)
    obtain rfl : e = -n := by omega
    simp

theorem scaled_div (num den : ℕ) (e : ℤ) :
    ((num * exp2 (-e).toNat : ℕ) : ℚ) / (den * exp2 e.toNat : ℕ) = num / den / 2 ^ e := by
  rw [← pow_toNat_div 2 e]
  push_cast [exp2_eq]
  have h := pow_ne_zero e.toNat (two_ne_zero (α := ℚ))
  have h' := pow_ne_zero (-e).toNat (two_ne_zero (α := ℚ))
  field_simp

theorem scaled_lt_iff {num den : ℕ} (hden : 0 < den) (e : ℤ) :
    num * exp2 (-e).toNat < den * exp2 e.toNat ↔ (num / den : ℚ) < 2 ^ e := by
  have hp : (0 : ℚ) < (den * exp2 e.toNat : ℕ) := by
    rw [exp2_eq]
    positivity
  rw [← Nat.cast_lt (α := ℚ), ← div_lt_one hp, scaled_div, div_lt_one (by positivity)]

theorem log2_bounds {n : ℕ} (h : 0 < n) : (2 : ℚ) ^ (n.log2 : ℤ) ≤ n ∧ (n : ℚ) < 2 ^ ((n.log2 : ℤ) + 1) := by
  have hl : 2 ^ n.log2 ≤ n := Nat.log2_self_le (Nat.ne_of_gt h)
  have hu : n < 2 ^ (n.log2 + 1) := Nat.lt_log2_self
  exact ⟨by exact_mod_cast hl, by exact_mod_cast hu⟩

theorem floorLog2_bounds {num den : ℕ} (hnum : 0 < num) (hden : 0 < den) :
    (2 : ℚ) ^ floorLog2 num den ≤ num / den ∧ (num / den : ℚ) < 2 ^ (floorLog2 num den + 1) := by
  obtain ⟨hn, hn'⟩ := log2_bounds hnum
  obtain ⟨hd, hd'⟩ := log2_bounds hden
  have hdp : (0 : ℚ) < den := by exact_mod_cast hden
  set e : ℤ := (num.log2 : ℤ) - den.log2 with he
  have hlow : (2 : ℚ) ^ (e - 1) ≤ num / den := by
    rw [le_div_iff₀ hdp]
    calc (2 : ℚ) ^ (e - 1) * den ≤ 2 ^ (e - 1) * 2 ^ ((den.log2 : ℤ) + 1) := by gcongr
      _ = 2 ^ (num.log2 : ℤ) := by rw [← zpow_add₀ two_ne_zero]; congr 1; omega
      _ ≤ num := hn
  have hhigh : (num / den : ℚ) < 2 ^ (e + 1) := by
    rw [div_lt_iff₀ hdp]
    calc (num : ℚ) < 2 ^ ((num.log2 : ℤ) + 1) := hn'
      _ = 2 ^ (e + 1) * 2 ^ (den.log2 : ℤ) := by rw [← zpow_add₀ two_ne_zero]; congr 1; omega
      _ ≤ 2 ^ (e + 1) * den := by gcongr
  unfold floorLog2
  simp only [← he, scaled_lt_iff hden]
  split
  · next h => exact ⟨hlow, by simpa using h⟩
  · next h => exact ⟨not_lt.mp h, hhigh⟩

theorem floorLog2_eq {num den : ℕ} (hnum : 0 < num) (hden : 0 < den) {e : ℤ}
    (hlow : (2 : ℚ) ^ e ≤ num / den) (hhigh : (num / den : ℚ) < 2 ^ (e + 1)) : floorLog2 num den = e := by
  obtain ⟨hl, hu⟩ := floorLog2_bounds hnum hden
  have h₁ := (zpow_lt_zpow_iff_right₀ (one_lt_two (α := ℚ))).mp (hlow.trans_lt hu)
  have h₂ := (zpow_lt_zpow_iff_right₀ (one_lt_two (α := ℚ))).mp (hl.trans_lt hhigh)
  omega

theorem divNearest_of_bounds {num den n : ℕ} (hden : 0 < den) (hl : 2 * n * den ≤ 2 * num + den)
    (hu : 2 * num ≤ (2 * n + 1) * den)
    (ht : n % 2 = 0 ∨ 2 * n * den < 2 * num + den ∧ 2 * num < (2 * n + 1) * den) : divNearest num den = n := by
  have hdiv := Nat.div_add_mod num den
  have hmod := Nat.mod_lt num hden
  unfold divNearest
  generalize num / den = q at *
  generalize num % den = r at *
  subst hdiv
  have hq : q ≤ n := by
    by_contra hq
    have : (2 * n + 2) * den ≤ 2 * q * den := Nat.mul_le_mul_right den (by omega)
    nlinarith
  have hn : n ≤ q + 1 := by
    by_contra hn
    have : (2 * q + 4) * den ≤ 2 * n * den := Nat.mul_le_mul_right den (by omega)
    nlinarith
  rcases Nat.eq_or_lt_of_le hq with rfl | hlt
  · have hr : 2 * r ≤ den := by nlinarith
    simp only
    split
    · rfl
    · have hr' : 2 * r = den := by omega
      have he : q % 2 = 0 := by
        rcases ht with h | ⟨-, h⟩
        · exact h
        · nlinarith
      rw [if_neg (by omega), he, Nat.add_zero]
  · obtain rfl : n = q + 1 := by omega
    have hr : den ≤ 2 * r := by nlinarith
    simp only
    rw [if_neg (by omega)]
    split
    · rfl
    · have hr' : 2 * r = den := by omega
      have he : (q + 1) % 2 = 0 := by
        rcases ht with h | ⟨h, -⟩
        · exact h
        · nlinarith
      omega

theorem divNearest_eq {num den n : ℕ} (hden : 0 < den) (hlow : (n : ℚ) - 1 / 2 ≤ num / den)
    (hhigh : (num / den : ℚ) ≤ n + 1 / 2)
    (htie : n % 2 = 0 ∨ (n : ℚ) - 1 / 2 < num / den ∧ (num / den : ℚ) < n + 1 / 2) :
    divNearest num den = n := by
  have hdp : (0 : ℚ) < den := by exact_mod_cast hden
  apply divNearest_of_bounds hden
  · rw [le_div_iff₀ hdp] at hlow
    have h : (2 * n * den : ℚ) ≤ 2 * num + den := by linarith
    exact_mod_cast h
  · rw [div_le_iff₀ hdp] at hhigh
    have h : (2 * num : ℚ) ≤ (2 * n + 1) * den := by linarith
    exact_mod_cast h
  · refine htie.imp_right fun h ↦ ?_
    rw [lt_div_iff₀ hdp, div_lt_iff₀ hdp] at h
    have h₁ : (2 * n * den : ℚ) < 2 * num + den := by linarith [h.1]
    have h₂ : (2 * num : ℚ) < (2 * n + 1) * den := by linarith [h.2]
    exact ⟨by exact_mod_cast h₁, by exact_mod_cast h₂⟩

variable (x : Binary64)

def absValue : ℚ := x.mantissa * 2 ^ x.exponent

/-- How far below a number, in units of its last place, the fractions lie that round to it: half way to
the neighbour, which is nearer where the unit changes. -/
def reachBelow : ℚ := if x.fractionField = 0 ∧ 1 < x.exponentField then 1 / 4 else 1 / 2

/-- The fractions that round to a number. -/
structure Near (v : ℚ) : Prop where
  low : (x.mantissa - x.reachBelow) * 2 ^ x.exponent ≤ v
  high : v ≤ (x.mantissa + 1 / 2) * 2 ^ x.exponent
  tie : x.mantissa % 2 = 0 ∨
    (x.mantissa - x.reachBelow) * 2 ^ x.exponent < v ∧ v < (x.mantissa + 1 / 2) * 2 ^ x.exponent

variable {x}

theorem fractionField_lt : x.fractionField < 2 ^ 52 := Nat.mod_lt _ (by decide)

theorem exponentField_lt (h : x.isFinite = true) : x.exponentField < 2047 := by
  have hl : x.exponentField < 2048 := Nat.mod_lt _ (by decide)
  have hn : x.exponentField ≠ 2047 := by simpa [isFinite] using h
  omega

theorem mantissa_lt : x.mantissa < 2 ^ 53 := by
  have h := fractionField_lt (x := x)
  rw [mantissa, exp2_eq]
  split <;> omega

theorem le_exponent : -1074 ≤ x.exponent := by
  unfold exponent
  split <;> omega

theorem magnitude_eq : x.bits.toNat % exp2 63 = (x.exponent + 1074).toNat * 2 ^ 52 + x.mantissa := by
  have hb : x.bits.toNat % exp2 63 = x.exponentField * 2 ^ 52 + x.fractionField := by
    simp only [exponentField, fractionField, exp2_eq]
    omega
  rw [hb]
  by_cases h : x.exponentField = 0
  · simp [exponent, mantissa, h]
  · simp only [exponent, mantissa, h, if_false, exp2_eq]
    omega

theorem magnitude_lt (h : x.isFinite = true) : x.bits.toNat % exp2 63 < infinityMagnitude := by
  have hf := fractionField_lt (x := x)
  have he := exponentField_lt h
  simp only [exponentField, fractionField, infinityMagnitude, exp2_eq] at *
  omega

theorem le_mantissa (h : -1074 < x.exponent) : 2 ^ 52 ≤ x.mantissa ∧ 1 < x.exponentField := by
  have he : 1 < x.exponentField := by
    unfold exponent at h
    split at h <;> omega
  refine ⟨?_, he⟩
  rw [mantissa, if_neg (by omega), exp2_eq]
  omega

theorem reachBelow_le : x.reachBelow ≤ 1 / 2 := by
  unfold reachBelow
  split <;> norm_num

theorem Near.pos {v : ℚ} (h : x.Near v) (hm : 0 < x.mantissa) : 0 < v := by
  have hm' : (1 : ℚ) ≤ x.mantissa := by exact_mod_cast hm
  have hr := reachBelow_le (x := x)
  exact (mul_pos (by linarith) (by positivity)).trans_le h.low

theorem zpow_add_natCast (n : ℕ) (e : ℤ) : (2 : ℚ) ^ (n + e) = 2 ^ n * 2 ^ e := by
  rw [zpow_add₀ two_ne_zero, zpow_natCast]

theorem Near.lt {v : ℚ} (h : x.Near v) : v < 2 ^ (53 + x.exponent) := by
  have hm : (x.mantissa : ℚ) + 1 ≤ 2 ^ 53 := by exact_mod_cast mantissa_lt
  have hp : (0 : ℚ) < 2 ^ x.exponent := by positivity
  calc v ≤ (x.mantissa + 1 / 2) * 2 ^ x.exponent := h.high
    _ < 2 ^ 53 * 2 ^ x.exponent := by gcongr; linarith
    _ = 2 ^ (53 + x.exponent) := (zpow_add_natCast 53 _).symm

theorem Near.mantissa_eq {v : ℚ} (h : x.Near v) (he : -1074 < x.exponent) (hv : v < 2 ^ (52 + x.exponent)) :
    x.mantissa = 2 ^ 52 ∧ x.reachBelow = 1 / 4 := by
  obtain ⟨hm, hE⟩ := le_mantissa he
  have hp : (0 : ℚ) < 2 ^ x.exponent := by positivity
  have hlt : ((x.mantissa : ℚ) - x.reachBelow) * 2 ^ x.exponent < 2 ^ 52 * 2 ^ x.exponent :=
    h.low.trans_lt (hv.trans_eq (zpow_add_natCast 52 _))
  have hlt' := lt_of_mul_lt_mul_right hlt hp.le
  have hr := reachBelow_le (x := x)
  have hm' : (x.mantissa : ℚ) < 2 ^ 52 + 1 := by linarith
  have hm'' : x.mantissa < 2 ^ 52 + 1 := by exact_mod_cast hm'
  have hme : x.mantissa = 2 ^ 52 := by omega
  have hF : x.fractionField = 0 := by
    rw [mantissa, if_neg (by omega), exp2_eq] at hme
    omega
  exact ⟨hme, if_pos ⟨hF, hE⟩⟩

theorem magnitudeOfRatio_eq_min {num den m : ℕ} {q : ℤ} (hnum : 0 < num)
    (hq : max (floorLog2 num den - 52) (-1074) = q)
    (hm : divNearest (num * exp2 (-q).toNat) (den * exp2 q.toNat) = m) :
    magnitudeOfRatio num den = min ((q + 1074).toNat * 2 ^ 52 + m) infinityMagnitude := by
  subst hq hm
  rw [magnitudeOfRatio, if_neg (Nat.ne_of_gt hnum)]
  rfl

theorem divNearest_of_unit {num den : ℕ} (hden : 0 < den) (h : x.Near (num / den)) :
    divNearest (num * exp2 (-x.exponent).toNat) (den * exp2 x.exponent.toNat) = x.mantissa := by
  have hp : (0 : ℚ) < 2 ^ x.exponent := by positivity
  have hr := reachBelow_le (x := x)
  have hlow := (le_div_iff₀ hp).mpr h.low
  have hhigh := (div_le_iff₀ hp).mpr h.high
  refine divNearest_eq (Nat.mul_pos hden (by rw [exp2_eq]; positivity)) ?_ ?_ ?_ <;> rw [scaled_div]
  · linarith
  · exact hhigh
  · refine h.tie.imp_right fun ⟨hl, hu⟩ ↦ ⟨?_, (div_lt_iff₀ hp).mpr hu⟩
    have := (lt_div_iff₀ hp).mpr hl
    linarith

theorem Near.below_power {num den : ℕ} (hnum : 0 < num) (hden : 0 < den) (h : x.Near (num / den))
    (he : -1074 < x.exponent) (hlow : (num / den : ℚ) < 2 ^ (52 + x.exponent)) :
    floorLog2 num den = 51 + x.exponent ∧
      divNearest (num * exp2 (-(x.exponent - 1)).toNat) (den * exp2 (x.exponent - 1).toNat) = 2 ^ 53 := by
  obtain ⟨hme, hr⟩ := h.mantissa_eq he hlow
  have hp : (0 : ℚ) < 2 ^ x.exponent := by positivity
  have hw : (2 : ℚ) ^ 52 - 1 / 4 ≤ num / den / 2 ^ x.exponent := by
    have := (le_div_iff₀ hp).mpr h.low
    rwa [hr, hme, Nat.cast_pow, Nat.cast_ofNat] at this
  have hw' : (num / den / 2 ^ x.exponent : ℚ) < 2 ^ 52 := by
    rw [div_lt_iff₀ hp]
    exact hlow.trans_eq (zpow_add_natCast 52 _)
  constructor
  · refine floorLog2_eq hnum hden ?_ (by rwa [show 51 + x.exponent + 1 = 52 + x.exponent by ring])
    have hs := zpow_add_natCast 51 x.exponent
    rw [Nat.cast_ofNat] at hs
    rw [hs, ← le_div_iff₀ hp]
    linarith
  · have hv : (num / den : ℚ) / 2 ^ (x.exponent - 1) = 2 * (num / den / 2 ^ x.exponent) := by
      rw [zpow_sub_one₀ two_ne_zero]
      field_simp
    refine divNearest_eq (Nat.mul_pos hden (by rw [exp2_eq]; positivity)) ?_ ?_ (.inl (by norm_num)) <;>
      rw [scaled_div, hv] <;> push_cast <;> linarith

/-- Every fraction near a finite number rounds to it. -/
theorem Near.magnitudeOfRatio_eq {num den : ℕ} (hden : 0 < den) (h : x.Near (num / den)) (hx : x.isFinite = true)
    (hm : 0 < x.mantissa) : magnitudeOfRatio num den = x.bits.toNat % exp2 63 := by
  have hv := h.pos hm
  have hnum : 0 < num := by
    rcases Nat.eq_zero_or_pos num with rfl | h
    · simp at hv
    · exact h
  have hq := le_exponent (x := x)
  obtain ⟨hl, -⟩ := floorLog2_bounds hnum hden
  have hle : floorLog2 num den ≤ 52 + x.exponent := by
    have := (zpow_lt_zpow_iff_right₀ (one_lt_two (α := ℚ))).mp (hl.trans_lt h.lt)
    omega
  have hlt := magnitude_lt hx
  rw [magnitude_eq] at hlt ⊢
  rcases le_or_gt ((2 : ℚ) ^ (52 + x.exponent)) (num / den) with hge | hlow
  · have hf : floorLog2 num den = 52 + x.exponent :=
      floorLog2_eq hnum hden hge (by rw [show 52 + x.exponent + 1 = 53 + x.exponent by ring]; exact h.lt)
    rw [magnitudeOfRatio_eq_min hnum (by omega) (divNearest_of_unit hden h)]
    exact Nat.min_eq_left hlt.le
  · rcases eq_or_lt_of_le hq with he | he
    · -- The smallest unit reaches down to zero.
      rw [magnitudeOfRatio_eq_min hnum (by omega) (divNearest_of_unit hden h)]
      exact Nat.min_eq_left hlt.le
    · obtain ⟨hf, hd⟩ := h.below_power hnum hden he hlow
      obtain ⟨hme, -⟩ := h.mantissa_eq he hlow
      rw [magnitudeOfRatio_eq_min hnum (by omega) hd]
      have hs : (x.exponent - 1 + 1074).toNat * 2 ^ 52 + 2 ^ 53 = (x.exponent + 1074).toNat * 2 ^ 52 + x.mantissa := by
        omega
      rw [hs]
      exact Nat.min_eq_left hlt.le

end MacroLisp.Binary64
