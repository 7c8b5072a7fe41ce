import AgentBlocks.Number.Binary64
import Mathlib.Algebra.Order.Field.Basic
import Mathlib.Algebra.Order.Field.Power
import Mathlib.Data.Rat.Cast.Order
import Mathlib.Tactic.NormNum
import Mathlib.Tactic.Ring

/-!
Which ratios are rounded to a finite value. A ratio is rounded at a power of two at which it has 53
binary digits, so it becomes infinite exactly when it is not below half a unit beyond the largest
finite magnitude. The quotient of a finite value by one that is not below 1 is finite again.
-/
namespace AgentBlocks.Binary64

/-- Half a unit beyond the largest finite magnitude. -/
def limit : ℚ := (2 ^ 54 - 1) * 2 ^ 970

theorem scale_snd_pos (num : Nat) {den : Nat} (hden : 0 < den) (shift : Int) :
    0 < (scale num den shift).2 := Nat.mul_pos hden (Nat.two_pow_pos _)

/-- A scaled ratio is the ratio times the power of two. -/
theorem scale_ratio (num den : Nat) (shift : Int) :
    ((scale num den shift).1 : ℚ) / (scale num den shift).2 = num / den * 2 ^ shift := by
  obtain ⟨n, rfl | rfl⟩ := shift.eq_nat_or_neg
  · simp [scale, twoPow]
    ring
  · simp [scale, twoPow]
    ring

section Quotient

variable {num den : Nat} (hden : 0 < den)
include hden

theorem div_lt_iff_ratio_lt (k : Nat) : num / den < k ↔ (num : ℚ) / den < k := by
  rw [Nat.div_lt_iff_lt_mul hden, div_lt_iff₀ (Nat.cast_pos.2 hden)]
  exact_mod_cast Iff.rfl

/-- The powers of two around a ratio. -/
theorem ratio_bounds (hnum : 0 < num) :
    (2 : ℚ) ^ ((num.log2 : Int) - den.log2 - 1) ≤ num / den ∧
      (num : ℚ) / den < 2 ^ ((num.log2 : Int) - den.log2 + 1) := by
  have hpos : (0 : ℚ) < den := Nat.cast_pos.2 hden
  have hnumLow : (2 : ℚ) ^ num.log2 ≤ num := by exact_mod_cast Nat.log2_self_le hnum.ne'
  have hnumHigh : (num : ℚ) < 2 ^ (num.log2 + 1) := by
    exact_mod_cast Nat.lt_log2_self (n := num)
  have hdenLow : (2 : ℚ) ^ den.log2 ≤ den := by exact_mod_cast Nat.log2_self_le hden.ne'
  have hdenHigh : (den : ℚ) < 2 ^ (den.log2 + 1) := by
    exact_mod_cast Nat.lt_log2_self (n := den)
  constructor
  · calc (2 : ℚ) ^ ((num.log2 : Int) - den.log2 - 1) = 2 ^ num.log2 / 2 ^ (den.log2 + 1) := by
          rw [← zpow_natCast, ← zpow_natCast, ← zpow_sub₀ two_ne_zero]
          congr 1
          push_cast
          ring
      _ ≤ num / den := div_le_div₀ (Nat.cast_nonneg num) hnumLow hpos hdenHigh.le
  · calc (num : ℚ) / den < 2 ^ (num.log2 + 1) / 2 ^ den.log2 :=
          div_lt_div₀ hnumHigh hdenLow (by positivity) (by positivity)
      _ = 2 ^ ((num.log2 : Int) - den.log2 + 1) := by
          rw [← zpow_natCast, ← zpow_natCast, ← zpow_sub₀ two_ne_zero]
          congr 1
          push_cast
          ring

theorem scale_div_lt_iff (q : Int) (k : Nat) :
    (scale num den (-q)).1 / (scale num den (-q)).2 < twoPow k ↔ (num : ℚ) / den < 2 ^ (q + k) := by
  have hcast : ((twoPow k : Nat) : ℚ) = 2 ^ k := Nat.cast_pow 2 k
  rw [div_lt_iff_ratio_lt (scale_snd_pos num hden (-q)), scale_ratio, zpow_neg, ← div_eq_mul_inv,
    div_lt_iff₀ (by positivity), zpow_add₀ two_ne_zero, mul_comm, zpow_natCast, hcast]

/-- At the rounding power a ratio has at most 53 binary digits, and exactly so many unless the power
is the least one. -/
theorem roundingExponent_bounds (hnum : 0 < num) :
    (num : ℚ) / den < 2 ^ (roundingExponent num den + 53) ∧
      (-1074 < roundingExponent num den →
        (2 : ℚ) ^ (roundingExponent num den + 52) ≤ num / den) := by
  obtain ⟨hlow, hhigh⟩ := ratio_bounds hden hnum
  have hmono {i j : Int} (h : i ≤ j) : (2 : ℚ) ^ i ≤ 2 ^ j := zpow_le_zpow_right₀ one_le_two h
  unfold roundingExponent
  simp only [scale_div_lt_iff hden]
  split
  · rename_i hlt
    refine ⟨hlt.trans_le (hmono (by omega)), fun hleast => (hmono ?_).trans hlow⟩
    omega
  · rename_i hge
    refine ⟨hhigh.trans_le (hmono (by omega)), fun hleast => (hmono ?_).trans (not_lt.1 hge)⟩
    omega

end Quotient

theorem div_le_divToEven (num den : Nat) : num / den ≤ divToEven num den := by
  unfold divToEven
  dsimp only
  split
  · exact Nat.le_refl _
  · split <;> omega

theorem divToEven_le (num den : Nat) : divToEven num den ≤ num / den + 1 := by
  unfold divToEven
  dsimp only
  split
  · omega
  · split <;> omega

/-- Rounding goes beyond an odd number from half a unit above it on. -/
theorem lt_divToEven_iff {num den k : Nat} (hden : 0 < den) (hodd : k % 2 = 1) :
    k < divToEven num den ↔ 2 * (den * k) + den ≤ 2 * num := by
  have hdiv := Nat.div_add_mod num den
  have hmod := Nat.mod_lt num hden
  rcases Nat.lt_trichotomy (num / den) k with hlt | heq | hgt
  · have hle := divToEven_le num den
    have hmul := Nat.mul_le_mul_left den (Nat.succ_le_of_lt hlt)
    rw [Nat.mul_succ] at hmul
    omega
  · unfold divToEven
    dsimp only
    rw [heq] at hdiv ⊢
    split
    · omega
    · split <;> omega
  · have hle := div_le_divToEven num den
    have hmul := Nat.mul_le_mul_left den (Nat.succ_le_of_lt hgt)
    rw [Nat.mul_succ] at hmul
    omega

/-- The rank of a ratio other than zero, if there were no greatest one. -/
def unboundedRank (num den : Nat) : Nat :=
  (roundingExponent num den + 1074).toNat * twoPow 52 +
    divToEven (scale num den (-roundingExponent num den)).1
      (scale num den (-roundingExponent num den)).2

theorem nearestRank_eq_min {num : Nat} (den : Nat) (hnum : num ≠ 0) :
    nearestRank num den = min (unboundedRank num den) infinityRank := if_neg hnum

theorem pow_le_limit : (2 : ℚ) ^ (1023 : Int) ≤ limit := by
  have hsplit : (2 : ℚ) ^ (1023 : Int) = 2 ^ 53 * 2 ^ 970 := by
    rw [← pow_add, ← zpow_natCast]
    rfl
  rw [hsplit, limit]
  exact mul_le_mul_of_nonneg_right (by norm_num) (by positivity)

theorem limit_lt_pow : limit < (2 : ℚ) ^ (1024 : Int) := by
  have hsplit : (2 : ℚ) ^ (1024 : Int) = 2 ^ 54 * 2 ^ 970 := by
    rw [← pow_add, ← zpow_natCast]
    rfl
  rw [hsplit, limit]
  exact mul_lt_mul_of_pos_right (by norm_num) (by positivity)

/-- The limit at the greatest rounding power of finite values: half a unit beyond 53 digits. -/
theorem limit_le_iff_scaled {num den : Nat} (hden : 0 < den) :
    limit ≤ num / den ↔
      2 * ((scale num den (-971)).2 * (twoPow 53 - 1)) + (scale num den (-971)).2 ≤
        2 * (scale num den (-971)).1 := by
  have hpos := scale_snd_pos num hden (-971)
  have hratio := scale_ratio num den (-971)
  generalize scale num den (-971) = scaled at *
  obtain ⟨n, d⟩ := scaled
  dsimp only at *
  have hlimit : limit * 2 ^ (-971 : Int) = (2 ^ 54 - 1) / 2 := by
    rw [limit, mul_assoc, ← zpow_natCast (2 : ℚ) 970, ← zpow_add₀ two_ne_zero]
    norm_num
  have hdigits : twoPow 53 - 1 = 9007199254740991 := rfl
  calc limit ≤ num / den ↔ limit * 2 ^ (-971 : Int) ≤ num / den * 2 ^ (-971 : Int) :=
        (mul_le_mul_iff_left₀ (by positivity)).symm
    _ ↔ (2 ^ 54 - 1) * (d : ℚ) ≤ n * 2 := by
        rw [hlimit, ← hratio, div_le_div_iff₀ two_pos (Nat.cast_pos.2 hpos)]
    _ ↔ ((2 * (d * (twoPow 53 - 1)) + d : Nat) : ℚ) ≤ (2 * n : Nat) := by
        rw [hdigits]
        push_cast
        ring_nf
    _ ↔ 2 * (d * (twoPow 53 - 1)) + d ≤ 2 * n := Nat.cast_le

theorem infinityRank_le_unboundedRank_iff {num den : Nat} (hnum : 0 < num) (hden : 0 < den) :
    infinityRank ≤ unboundedRank num den ↔ limit ≤ num / den := by
  obtain ⟨hhigh, hlow⟩ := roundingExponent_bounds hden hnum
  have hmono {i j : Int} (h : i ≤ j) : (2 : ℚ) ^ i ≤ 2 ^ j := zpow_le_zpow_right₀ one_le_two h
  have hquotient := (scale_div_lt_iff hden _ 53).2 hhigh
  have hunit : twoPow 52 = 4503599627370496 := rfl
  have hdigits : twoPow 53 = 9007199254740992 := rfl
  rw [hdigits] at hquotient
  rcases lt_trichotomy (roundingExponent num den) 971 with hlt | heq | hgt
  · have hsmall : (num : ℚ) / den < limit :=
      hhigh.trans_le ((hmono (by omega)).trans pow_le_limit)
    have hrank : unboundedRank num den < infinityRank := by
      have hle := divToEven_le (scale num den (-roundingExponent num den)).1
        (scale num den (-roundingExponent num den)).2
      rw [unboundedRank, infinityRank, hunit]
      omega
    exact iff_of_false (Nat.not_le.2 hrank) (not_le.2 hsmall)
  · rw [limit_le_iff_scaled hden, ← lt_divToEven_iff (scale_snd_pos num hden _) (by decide),
      unboundedRank, infinityRank, heq, hunit, hdigits]
    omega
  · have hlarge : limit ≤ (num : ℚ) / den :=
      limit_lt_pow.le.trans ((hmono (by omega)).trans (hlow (by omega)))
    have hrank : infinityRank ≤ unboundedRank num den := by
      have hle := div_le_divToEven (scale num den (-roundingExponent num den)).1
        (scale num den (-roundingExponent num den)).2
      have hfull := mt (scale_div_lt_iff hden _ 52).1 (not_lt.2 (hlow (by omega)))
      rw [hunit] at hfull
      rw [unboundedRank, infinityRank, hunit]
      omega
    exact iff_of_true hrank hlarge

/-- A ratio is rounded to infinity exactly when it is not below the limit. -/
theorem nearestRank_eq_infinityRank_iff (num : Nat) {den : Nat} (hden : 0 < den) :
    nearestRank num den = infinityRank ↔ limit ≤ num / den := by
  rcases Nat.eq_zero_or_pos num with rfl | hnum
  · have hpos : 0 < limit := lt_of_lt_of_le (by positivity) pow_le_limit
    have hrank : nearestRank 0 den ≠ infinityRank := (by decide : 0 ≠ infinityRank)
    simp [hrank, hpos]
  · rw [nearestRank_eq_min den hnum.ne', ← infinityRank_le_unboundedRank_iff hnum hden]
    exact min_eq_right_iff

theorem nearestRank_le (num den : Nat) : nearestRank num den ≤ infinityRank := by
  rcases Nat.eq_zero_or_pos num with rfl | hnum
  · exact Nat.zero_le _
  · rw [nearestRank_eq_min den hnum.ne']
    exact min_le_right _ _

theorem isFinite_ofRatio_iff (negative : Bool) (num : Nat) {den : Nat} (hden : 0 < den) :
    (ofRatio negative num den).isFinite = true ↔ (num : ℚ) / den < limit := by
  have hle := nearestRank_le num den
  rw [← not_le, ← nearestRank_eq_infinityRank_iff num hden]
  change decide (nearestRank num den < infinityRank) = true ↔ _
  rw [decide_eq_true_eq]
  exact lt_iff_le_and_ne.trans (and_iff_right hle)

/-- A rounded ratio is finite or infinite, but always a number. -/
theorem isFinite_ofRatio_of_not_infinite {negative : Bool} {num den : Nat}
    (h : (ofRatio negative num den).isInfinite = false) :
    (ofRatio negative num den).isFinite = true := by
  have hne : nearestRank num den ≠ infinityRank := ne_of_beq_false h
  exact decide_eq_true (lt_of_le_of_ne (nearestRank_le num den) hne)

/-- The magnitude of a finite value. -/
def magnitude (v : Binary64) : ℚ := v.significand * 2 ^ v.exponent

theorem significand_lt (v : Binary64) : v.significand < twoPow 53 := by
  have hmod := Nat.mod_lt v.rank (Nat.two_pow_pos 52)
  have hunit : twoPow 53 = twoPow 52 + twoPow 52 := rfl
  unfold significand
  split
  · omega
  · change v.rank % twoPow 52 < twoPow 52 at hmod
    omega

theorem exponent_le {v : Binary64} (h : v.isFinite = true) : v.exponent ≤ 971 := by
  have hrank : v.rank < 2047 * twoPow 52 := of_decide_eq_true h
  have hquotient : v.rank / twoPow 52 < 2047 :=
    (Nat.div_lt_iff_lt_mul (Nat.two_pow_pos 52)).2 hrank
  unfold exponent
  split <;> omega

theorem magnitude_lt_limit {v : Binary64} (h : v.isFinite = true) : v.magnitude < limit := by
  have hdigits : (v.significand : ℚ) ≤ 2 ^ 53 - 1 := by
    have hlt : v.significand + 1 ≤ 2 ^ 53 := v.significand_lt
    rw [le_sub_iff_add_le]
    exact_mod_cast hlt
  have hpower : (2 : ℚ) ^ v.exponent ≤ 2 ^ (971 : Int) :=
    zpow_le_zpow_right₀ one_le_two (exponent_le h)
  have hsplit : (2 : ℚ) ^ (971 : Int) = 2 * 2 ^ 970 := by
    rw [← pow_succ', ← zpow_natCast]
    rfl
  have hdouble : ((2 : ℚ) ^ 53 - 1) * 2 = 2 ^ 54 - 2 := by norm_num
  calc v.magnitude ≤ (2 ^ 53 - 1) * 2 ^ (971 : Int) :=
        mul_le_mul hdigits hpower (by positivity) (by norm_num)
    _ = (2 ^ 54 - 2) * 2 ^ 970 := by
        rw [hsplit, ← mul_assoc, hdouble]
    _ < limit := mul_lt_mul_of_pos_right (by norm_num) (by positivity)

/-- The rank of 1 and those above it. -/
theorem one_le_magnitude {v : Binary64} (h : 1023 * twoPow 52 ≤ v.rank) : 1 ≤ v.magnitude := by
  have hunit : 0 < twoPow 52 := Nat.two_pow_pos 52
  have hnormal : ¬v.rank < twoPow 52 := by omega
  have hquotient : 1023 ≤ v.rank / twoPow 52 := (Nat.le_div_iff_mul_le hunit).2 h
  have hdigits : (2 : ℚ) ^ 52 ≤ v.significand := by
    rw [significand, if_neg hnormal]
    exact_mod_cast Nat.le_add_right (twoPow 52) _
  have hpower : (2 : ℚ) ^ (-52 : Int) ≤ 2 ^ v.exponent := by
    refine zpow_le_zpow_right₀ one_le_two ?_
    rw [exponent, if_neg hnormal]
    omega
  calc (1 : ℚ) = 2 ^ 52 * 2 ^ (-52 : Int) := by norm_num
    _ ≤ v.magnitude := mul_le_mul hdigits hpower (by positivity) (by positivity)

theorem one_le_magnitude_ofRatio (negative : Bool) {num den : Nat} (hden : 0 < den)
    (h : den ≤ num) : 1 ≤ (ofRatio negative num den).magnitude := by
  have hnum : 0 < num := Nat.lt_of_lt_of_le hden h
  obtain ⟨hhigh, hlow⟩ := roundingExponent_bounds hden hnum
  have hone : (1 : ℚ) ≤ num / den := (one_le_div (Nat.cast_pos.2 hden)).2 (Nat.cast_le.2 h)
  have hexponent : 0 < roundingExponent num den + 53 := by
    rw [← zpow_lt_zpow_iff_right₀ (one_lt_two (α := ℚ)), zpow_zero]
    exact lt_of_le_of_lt hone hhigh
  refine one_le_magnitude ?_
  change 1023 * twoPow 52 ≤ nearestRank num den
  rw [nearestRank_eq_min den hnum.ne']
  refine le_min ?_ (by decide)
  have hfull := mt (scale_div_lt_iff hden _ 52).1 (not_lt.2 (hlow (by omega)))
  have hle := div_le_divToEven (scale num den (-roundingExponent num den)).1
    (scale num den (-roundingExponent num den)).2
  have hunit : twoPow 52 = 4503599627370496 := rfl
  rw [hunit] at hfull ⊢
  rw [unboundedRank, hunit]
  omega

theorem isFinite_div {a b : Binary64} (ha : a.isFinite = true) (hb : 1 ≤ b.magnitude) :
    (a.div b).isFinite = true := by
  have hsignificand : 0 < b.significand := by
    refine Nat.pos_of_ne_zero fun hzero => ?_
    rw [magnitude, hzero, Nat.cast_zero, zero_mul] at hb
    exact absurd hb (by norm_num)
  change (ofRatio _ (scale a.significand b.significand (a.exponent - b.exponent)).1
    (scale a.significand b.significand (a.exponent - b.exponent)).2).isFinite = true
  rw [isFinite_ofRatio_iff _ _ (scale_snd_pos _ hsignificand _), scale_ratio]
  calc (a.significand : ℚ) / b.significand * 2 ^ (a.exponent - b.exponent)
      = a.magnitude / b.magnitude := by
        rw [zpow_sub₀ two_ne_zero, div_mul_div_comm, magnitude, magnitude]
    _ ≤ a.magnitude := div_le_self (by unfold magnitude; positivity) hb
    _ < limit := magnitude_lt_limit ha

end AgentBlocks.Binary64
