import MacroLisp.Binary64.Shortest
import MacroLisp.Proofs.Binary64.Rounding
import Mathlib.Data.Nat.Cast.Order.Field

namespace MacroLisp.Binary64

def Decimal.value (d : Decimal) : ℚ := d.digits * 10 ^ d.exponent

theorem ten_pow_length_le {n : ℕ} (hn : 0 < n) : 10 ^ (n.repr.length - 1) ≤ n := by
  rcases Nat.eq_zero_or_pos (n.repr.length - 1) with h0 | h0
  · rw [h0]
    exact hn
  · have hpos := Nat.length_repr_pos (n := n)
    have hl : ¬n.repr.length ≤ n.repr.length - 1 := by omega
    exact not_lt.mp fun hlt ↦ hl ((Nat.length_repr_le_iff h0).mpr hlt)

namespace Interval

variable {i : Interval} {a c : ℕ} {k : ℤ} {tie : Tie} {d : Decimal}

theorem ten_pow_pos (k : ℤ) : (0 : ℚ) < 10 ^ k := by positivity

theorem ten_pow_ne_zero (k : ℕ) : (10 : ℚ) ^ k ≠ 0 := by positivity

theorem le_grid_iff (hs : 0 < i.scale) :
    a * exp10 (-k).toNat ≤ c * exp10 k.toNat * i.scale ↔ (a / i.scale : ℚ) ≤ c * 10 ^ k := by
  have hsp : (0 : ℚ) < i.scale := by exact_mod_cast hs
  have hp : (0 : ℚ) < 10 ^ (-k).toNat := by positivity
  rw [div_le_iff₀ hsp, ← pow_toNat_div 10 k, mul_div_assoc', div_mul_eq_mul_div, le_div_iff₀ hp]
  simp only [exp10_eq]
  norm_cast

theorem grid_le_iff (hs : 0 < i.scale) :
    c * exp10 k.toNat * i.scale ≤ a * exp10 (-k).toNat ↔ (c * 10 ^ k : ℚ) ≤ a / i.scale := by
  have hsp : (0 : ℚ) < i.scale := by exact_mod_cast hs
  have hp : (0 : ℚ) < 10 ^ (-k).toNat := by positivity
  rw [le_div_iff₀ hsp, ← pow_toNat_div 10 k, mul_div_assoc', div_mul_eq_mul_div, div_le_iff₀ hp]
  simp only [exp10_eq]
  norm_cast

theorem holds_iff (hs : 0 < i.scale) :
    i.holds c k = true ↔
      (i.low / i.scale : ℚ) ≤ c * 10 ^ k ∧ (c * 10 ^ k : ℚ) ≤ i.high / i.scale ∧
        (i.closed = true ∨ (i.low / i.scale : ℚ) < c * 10 ^ k ∧ (c * 10 ^ k : ℚ) < i.high / i.scale) := by
  rw [← not_le (a := (c * 10 ^ k : ℚ)), ← not_le (b := (c * 10 ^ k : ℚ)), ← le_grid_iff hs, ← grid_le_iff hs,
    ← le_grid_iff hs, ← grid_le_iff hs]
  unfold holds
  cases i.closed
  · simp only [Bool.false_eq_true, if_false, false_or, Bool.and_eq_true, decide_eq_true_eq]
    omega
  · simp only [if_true, true_or, and_true, Bool.and_eq_true, decide_eq_true_eq]

theorem onGrid_holds (h : i.onGrid tie k = some d) : i.holds d.digits k = true ∧ d.exponent = k := by
  unfold onGrid at h
  simp only at h
  split at h
  · cases h
  · next hc _ =>
    cases h
    exact ⟨hc, rfl⟩
  · next _ hc =>
    cases h
    exact ⟨hc, rfl⟩
  · next hc hc' =>
    split at h
    · cases h
      exact ⟨hc, rfl⟩
    split at h
    · cases h
      exact ⟨hc', rfl⟩
    cases tie
    · cases h
      exact ⟨hc', rfl⟩
    · cases h
      refine ⟨?_, rfl⟩
      rcases Nat.mod_two_eq_zero_or_one (i.value * exp10 (-k).toNat / (i.scale * exp10 k.toNat)) with he | he
      · simpa only [he, Nat.add_zero] using hc
      · simpa only [he] using hc'

theorem onGrid_isSome (h : i.holds (i.value * exp10 (-k).toNat / (i.scale * exp10 k.toNat) + 1) k = true) (tie : Tie) :
    (i.onGrid tie k).isSome = true := by
  unfold onGrid
  simp only [h]
  split
  · simp_all
  · rfl
  · rfl
  · split
    · rfl
    split
    · rfl
    cases tie <;> rfl

theorem grid_above (hs : 0 < i.scale) (k : ℤ) :
    let c := i.value * exp10 (-k).toNat / (i.scale * exp10 k.toNat)
    (i.value / i.scale : ℚ) < (c + 1 : ℕ) * 10 ^ k ∧
      ((c + 1 : ℕ) * 10 ^ k : ℚ) ≤ i.value / i.scale + 10 ^ k := by
  intro c
  have hden : 0 < i.scale * exp10 k.toNat := Nat.mul_pos hs (by rw [exp10_eq]; positivity)
  have hsp : (0 : ℚ) < i.scale := by exact_mod_cast hs
  have hv : (i.value / i.scale : ℚ) / 10 ^ k =
      (i.value * exp10 (-k).toNat : ℕ) / (i.scale * exp10 k.toNat : ℕ) := by
    rw [← pow_toNat_div 10 k]
    push_cast [exp10_eq]
    have h := ten_pow_ne_zero k.toNat
    have h' := ten_pow_ne_zero (-k).toNat
    field_simp
  have hdp : (0 : ℚ) < (i.scale * exp10 k.toNat : ℕ) := by exact_mod_cast hden
  have hlt : (i.value * exp10 (-k).toNat : ℕ) < (i.scale * exp10 k.toNat) * (c + 1) := Nat.lt_mul_div_succ _ hden
  have hle : (i.scale * exp10 k.toNat) * c ≤ i.value * exp10 (-k).toNat := Nat.mul_div_le _ _
  constructor
  · rw [← div_lt_iff₀ (ten_pow_pos k), hv, div_lt_iff₀ hdp, ← Nat.cast_mul, Nat.cast_lt, Nat.mul_comm (c + 1)]
    exact hlt
  · have h : (c : ℚ) ≤ (i.value / i.scale : ℚ) / 10 ^ k := by
      rw [hv, le_div_iff₀ hdp, ← Nat.cast_mul, Nat.cast_le, Nat.mul_comm c]
      exact hle
    rw [le_div_iff₀ (ten_pow_pos k)] at h
    push_cast
    linarith

theorem topExponent_le (h : (1 : ℚ) ≤ i.value / i.scale * 10 ^ 400) :
    (10 : ℚ) ^ (i.topExponent - 1) ≤ i.value / i.scale := by
  set n := i.value * exp10 400 / i.scale with hn
  have hnv : (n : ℚ) ≤ i.value / i.scale * 10 ^ 400 := by
    have := Nat.cast_div_le (α := ℚ) (m := i.value * exp10 400) (n := i.scale)
    refine this.trans_eq ?_
    rw [exp10_eq, Nat.cast_mul, Nat.cast_pow, Nat.cast_ofNat, div_mul_eq_mul_div]
  have hn1 : 0 < n := by
    have hs : 0 < i.scale := by
      rcases Nat.eq_zero_or_pos i.scale with h0 | h0
      · norm_num [h0] at h
      · exact h0
    rw [hn, Nat.div_pos_iff]
    refine ⟨hs, ?_⟩
    have hsp : (0 : ℚ) < i.scale := by exact_mod_cast hs
    rw [div_mul_eq_mul_div, le_div_iff₀ hsp, one_mul] at h
    rw [exp10_eq]
    exact_mod_cast h
  have hlen : (10 : ℚ) ^ (n.repr.length - 1) ≤ n := by exact_mod_cast ten_pow_length_le hn1
  have hpos := Nat.length_repr_pos (n := n)
  have ht : i.topExponent - 1 = ((n.repr.length - 1 : ℕ) : ℤ) - 400 := by
    rw [topExponent, ← hn]
    omega
  rw [ht, zpow_sub₀ (by norm_num), zpow_natCast, div_le_iff₀ (by positivity)]
  exact hlen.trans (by exact_mod_cast hnv)

end Interval

variable {x : Binary64} {tie : Tie}

theorem interval_scale_pos : 0 < x.interval.scale := Nat.mul_pos (by decide) (by rw [exp2_eq]; positivity)

theorem div_interval_scale (a : ℕ) :
    ((a * exp2 x.exponent.toNat : ℕ) : ℚ) / x.interval.scale = a / 4 * 2 ^ x.exponent := by
  rw [← pow_toNat_div 2 x.exponent]
  simp only [interval]
  push_cast [exp2_eq]
  ring

theorem interval_value : (x.interval.value / x.interval.scale : ℚ) = x.absValue := by
  have h := div_interval_scale (x := x) (4 * x.mantissa)
  simp only [absValue]
  refine h.trans ?_
  push_cast
  ring

theorem interval_high : (x.interval.high / x.interval.scale : ℚ) = (x.mantissa + 1 / 2) * 2 ^ x.exponent := by
  have h := div_interval_scale (x := x) (4 * x.mantissa + 2)
  refine h.trans ?_
  push_cast
  ring

theorem interval_low (hm : 0 < x.mantissa) :
    (x.interval.low / x.interval.scale : ℚ) = (x.mantissa - x.reachBelow) * 2 ^ x.exponent := by
  have h := div_interval_scale (x := x)
    (4 * x.mantissa - if x.fractionField = 0 ∧ 1 < x.exponentField then 1 else 2)
  refine h.trans ?_
  unfold reachBelow
  split <;> rw [Nat.cast_sub (by omega)] <;> push_cast <;> ring

theorem near_iff_holds (hm : 0 < x.mantissa) (c : ℕ) (k : ℤ) :
    x.interval.holds c k = true ↔ x.Near (c * 10 ^ k) := by
  rw [Interval.holds_iff interval_scale_pos, interval_low hm, interval_high]
  have hc : x.interval.closed = true ↔ x.mantissa % 2 = 0 := by simp [interval]
  rw [hc]
  exact ⟨fun ⟨h₁, h₂, h₃⟩ ↦ ⟨h₁, h₂, h₃⟩, fun ⟨h₁, h₂, h₃⟩ ↦ ⟨h₁, h₂, h₃⟩⟩

theorem two_pow_1074_le : (2 : ℚ) ^ 1074 ≤ 10 ^ 400 :=
  calc (2 : ℚ) ^ 1074 ≤ 2 ^ (3 * 400) := pow_le_pow_right₀ one_le_two (by norm_num)
    _ = (2 ^ 3) ^ 400 := pow_mul ..
    _ ≤ 10 ^ 400 := pow_le_pow_left₀ (by norm_num) (by norm_num) _

theorem one_le_absValue_mul (hm : 0 < x.mantissa) : (1 : ℚ) ≤ x.absValue * 10 ^ 400 := by
  have hm' : (1 : ℚ) ≤ x.mantissa := by exact_mod_cast hm
  have hq : (2 : ℚ) ^ (-1074 : ℤ) ≤ 2 ^ x.exponent := zpow_le_zpow_right₀ one_le_two le_exponent
  calc (1 : ℚ) = 1 * 2 ^ (-1074 : ℤ) * 2 ^ 1074 := by
        rw [one_mul, ← zpow_natCast, ← zpow_add₀ two_ne_zero]
        norm_num
    _ ≤ x.absValue * 10 ^ 400 := by
        unfold absValue
        gcongr
        · exact two_pow_1074_le

theorem holds_of_fine (hm : 0 < x.mantissa) {k : ℤ} (hk : (10 : ℚ) ^ k < 2 ^ x.exponent / 2) :
    let i := x.interval
    i.holds (i.value * exp10 (-k).toNat / (i.scale * exp10 k.toNat) + 1) k = true := by
  intro i
  obtain ⟨h₁, h₂⟩ := Interval.grid_above (i := i) interval_scale_pos k
  rw [interval_value] at h₁ h₂
  rw [near_iff_holds hm]
  have hp : (0 : ℚ) < 2 ^ x.exponent := by positivity
  have hlow : (x.mantissa - x.reachBelow) * 2 ^ x.exponent ≤ x.absValue := by
    unfold absValue reachBelow
    gcongr
    split <;> norm_num
  have hhigh : x.absValue + 2 ^ x.exponent / 2 = (x.mantissa + 1 / 2) * 2 ^ x.exponent := by
    unfold absValue
    ring
  exact ⟨by linarith, by linarith, .inr ⟨by linarith, by linarith⟩⟩

theorem shortest_near (hm : 0 < x.mantissa) : x.Near (x.shortest tie).value := by
  have htop : (10 : ℚ) ^ (x.interval.topExponent - 1) ≤ x.absValue := by
    rw [← interval_value]
    exact Interval.topExponent_le (by rw [interval_value]; exact one_le_absValue_mul hm)
  have hfine : (10 : ℚ) ^ (x.interval.topExponent - (18 : ℕ)) < 2 ^ x.exponent / 2 := by
    have hmlt : (x.mantissa : ℚ) < 2 ^ 53 := by exact_mod_cast mantissa_lt
    have hp : (0 : ℚ) < 2 ^ x.exponent := by positivity
    calc (10 : ℚ) ^ (x.interval.topExponent - (18 : ℕ))
        = 10 ^ (x.interval.topExponent - 1) / 10 ^ 17 := by
          rw [← zpow_natCast, ← zpow_sub₀ (by norm_num)]
          congr 1
          push_cast
          ring
      _ ≤ x.mantissa * 2 ^ x.exponent / 10 ^ 17 := by
          gcongr
          exact htop
      _ < 2 ^ 53 * 2 ^ x.exponent / 10 ^ 17 := by gcongr
      _ < 2 ^ x.exponent / 2 := by
          rw [div_lt_div_iff₀ (by positivity) (by positivity)]
          nlinarith
  unfold shortest
  simp only
  obtain ⟨d, hd⟩ : ∃ d, (List.range 20).findSome?
      (fun (n : Nat) ↦ x.interval.onGrid tie (x.interval.topExponent - n)) = some d := by
    rw [← Option.isSome_iff_exists, List.findSome?_isSome_iff]
    exact ⟨18, by simp, Interval.onGrid_isSome (holds_of_fine hm hfine) tie⟩
  rw [hd, Option.getD_some]
  obtain ⟨n, -, hn⟩ := List.exists_of_findSome?_eq_some hd
  obtain ⟨hh, he⟩ := Interval.onGrid_holds hn
  rw [near_iff_holds hm] at hh
  rwa [Decimal.value, he]

end MacroLisp.Binary64
