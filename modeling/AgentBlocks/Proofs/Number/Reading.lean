import AgentBlocks.Number.Written
import AgentBlocks.Proofs.Json.Numeral
import AgentBlocks.Proofs.Number.Rounding

/-!
Which texts are read as finite values. A numeral of a JSON text always is. What people write into a
text field is, unless it is a word for an infinity or for no number, or digits whose magnitude is
rounded to infinity.
-/
namespace AgentBlocks

open Binary64

theorem digitsValue_cons (c : Char) (cs : List Char) :
    digitsValue (c :: cs) = 10 ^ cs.length * digitValue c + digitsValue cs := by
  have hstart : digitsValue (c :: cs) = Nat.ofDigitChars 10 cs (digitValue c) := by
    change Nat.ofDigitChars 10 cs (10 * 0 + digitValue c) = _
    rw [Nat.mul_zero, Nat.zero_add]
  rw [hstart, Nat.ofDigitChars_eq_ofDigitChars_zero]
  rfl

theorem digitValue_lt {c : Char} (h : isDigit c = true) : digitValue c < 10 := by
  rw [isDigit, Bool.and_eq_true, decide_eq_true_eq, decide_eq_true_eq] at h
  have hcode : c.toNat ≤ 57 := h.2
  have hzero : '0'.toNat = 48 := rfl
  rw [digitValue, hzero]
  omega

theorem digitValue_pos {c : Char} (h : isDigit c = true) (hc : c ≠ '0') : 0 < digitValue c := by
  rw [isDigit, Bool.and_eq_true, decide_eq_true_eq, decide_eq_true_eq] at h
  have hcode : 48 ≤ c.toNat := h.1
  have hzero : '0'.toNat = 48 := rfl
  have hne : c.toNat ≠ 48 := fun heq => hc (Char.toNat_inj.1 heq)
  rw [digitValue, hzero]
  omega

theorem digitsValue_lt {cs : List Char} (h : ∀ c ∈ cs, isDigit c = true) :
    digitsValue cs < 10 ^ cs.length := by
  induction cs with
  | nil => decide
  | cons c cs ih =>
      obtain ⟨hc, hcs⟩ := List.forall_mem_cons.1 h
      have hdigit := Nat.mul_le_mul_left (10 ^ cs.length) (Nat.succ_le_of_lt (digitValue_lt hc))
      have hrest := ih hcs
      rw [digitsValue_cons, List.length_cons, Nat.pow_succ]
      rw [Nat.mul_succ] at hdigit
      omega

theorem le_digitsValue {c : Char} (cs : List Char) (h : isDigit c = true) (hc : c ≠ '0') :
    10 ^ cs.length ≤ digitsValue (c :: cs) := by
  rw [digitsValue_cons]
  exact Nat.le_add_right_of_le (Nat.le_mul_of_pos_right _ (digitValue_pos h hc))

/-- Zeros in front do not count. -/
theorem digitsValue_dropWhile_zero (cs : List Char) :
    digitsValue (cs.dropWhile (· == '0')) = digitsValue cs := by
  induction cs with
  | nil => rfl
  | cons c cs ih =>
      rw [List.dropWhile_cons]
      split
      · rename_i hzero
        rw [ih, digitsValue_cons, beq_iff_eq.1 hzero]
        exact (Nat.zero_add _).symm
      · rfl

theorem Decimal.ratio_snd_pos (d : Decimal) : 0 < d.ratio.2 := tenPow_pos _

theorem Decimal.ratio_eq (d : Decimal) :
    (d.ratio.1 : ℚ) / d.ratio.2 = d.coefficient * 10 ^ d.exponent := by
  obtain ⟨coefficient, exponent⟩ := d
  obtain ⟨n, rfl | rfl⟩ := exponent.eq_nat_or_neg
  · simp [ratio, tenPow]
  · simp [ratio, tenPow]
    ring

theorem limit_le_tenPow : limit ≤ (10 : ℚ) ^ (400 : Int) := by
  refine limit_lt_pow.le.trans ?_
  calc (2 : ℚ) ^ (1024 : Int) ≤ 2 ^ (3 * 400 : Int) :=
        zpow_le_zpow_right₀ one_le_two (by norm_num)
    _ = ((2 : ℚ) ^ (3 : Int)) ^ (400 : Int) := zpow_mul 2 3 400
    _ ≤ 10 ^ (400 : Int) := zpow_le_zpow_left₀ (by norm_num) (by norm_num) (by norm_num)

theorem pow_le_limit_of_le {n : Int} (h : n ≤ 1023) : (2 : ℚ) ^ n ≤ limit :=
  (zpow_le_zpow_right₀ one_le_two h).trans pow_le_limit

namespace Numeral

theorem absorb_le {coefficient : Nat} (digits : List Char) (h : coefficient ≤ coefficientLimit) :
    (absorb coefficient digits).1 ≤ coefficientLimit := by
  induction digits generalizing coefficient with
  | nil => exact h
  | cons c rest ih =>
      unfold absorb
      dsimp only
      split
      · rename_i hnext
        exact ih hnext
      · exact h

theorem isFinite_ofNat {n : Nat} (h : n ≤ coefficientLimit) : (ofNat n).isFinite = true := by
  have hlt : n < 2 ^ 64 := Nat.lt_of_le_of_lt h (by decide)
  rw [ofNat, isFinite_ofRatio_iff false n Nat.one_pos, Nat.cast_one, div_one]
  calc (n : ℚ) < 2 ^ (64 : Int) := by exact_mod_cast hlt
    _ ≤ limit := pow_le_limit_of_le (by norm_num)

theorem one_le_tenPower (n : Nat) : 1 ≤ (tenPower n).magnitude :=
  one_le_magnitude_ofRatio false Nat.one_pos (tenPow_pos n)

theorem isFinite_of_scaled? {coefficient : Nat} {exponent : Int} {v : Binary64}
    (hcoefficient : coefficient ≤ coefficientLimit) (h : scaled? coefficient exponent = some v) :
    v.isFinite = true := by
  have hstart := isFinite_ofNat hcoefficient
  unfold scaled? at h
  dsimp only at h
  split at h
  · cases h
    exact hstart
  · split at h
    · cases h
    · split at h
      · -- only the product with a power of ten may be out of range, and then it is refused
        split at h
        · cases h
        · rename_i hproduct
          cases h
          exact isFinite_ofRatio_of_not_infinite (Bool.eq_false_iff.2 hproduct)
      · split at h
        · cases h
          exact isFinite_div hstart (one_le_tenPower _)
        · split at h
          · cases h
            exact isFinite_div (isFinite_div hstart (one_le_tenPower _)) (one_le_tenPower _)
          · cases h
            decide

/-- A numeral that is read denotes a finite value. -/
theorem isFinite_of_binary64? {n : Numeral} {v : Binary64} (h : n.binary64? = some v) :
    v.isFinite = true := by
  unfold binary64? at h
  dsimp only at h
  obtain ⟨magnitude, hscaled, rfl⟩ := Option.map_eq_some_iff.1 h
  have hcoefficient := absorb_le n.fraction (absorb_le n.whole (Nat.zero_le _))
  have hfinite := isFinite_of_scaled? hcoefficient hscaled
  split
  · exact hfinite
  · exact hfinite

end Numeral

namespace Written

/-- The magnitude that digits with an exponent denote. -/
def Scaled.magnitude (m : Scaled) : ℚ := digitsValue m.digits * 10 ^ m.exponent

namespace Scaled

variable {m : Scaled} (hdigits : ∀ c ∈ m.digits, isDigit c = true)
include hdigits

/-- The powers of ten around a magnitude, by the place of its first digit that is not zero. -/
theorem magnitude_bounds {c : Char} {rest : List Char}
    (hfirst : m.digits.dropWhile (· == '0') = c :: rest) :
    (10 : ℚ) ^ (rest.length + m.exponent) ≤ m.magnitude ∧
      m.magnitude < 10 ^ (rest.length + 1 + m.exponent) := by
  have hall : ∀ x ∈ c :: rest, isDigit x = true := by
    rw [← hfirst]
    exact fun x hx => hdigits x ((List.dropWhile_sublist _).subset hx)
  have hnonzero : c ≠ '0' := by
    have hhead := List.head?_dropWhile_not (· == '0') m.digits
    simpa [hfirst] using hhead
  have hlow := le_digitsValue rest (hall c List.mem_cons_self) hnonzero
  have hhigh := digitsValue_lt hall
  rw [← hfirst, digitsValue_dropWhile_zero] at hlow hhigh
  constructor
  · rw [zpow_add₀ (by norm_num), zpow_natCast]
    exact mul_le_mul_of_nonneg_right (by exact_mod_cast hlow) (by positivity)
  · rw [zpow_add₀ (by norm_num)]
    refine mul_lt_mul_of_pos_right ?_ (by positivity)
    rw [hfirst, List.length_cons] at hhigh
    exact_mod_cast hhigh

/-- Digits are read as a finite value exactly when their magnitude is below the limit. -/
theorem isFinite_value_iff (negative : Bool) :
    (m.value negative).isFinite = true ↔ m.magnitude < limit := by
  have hzero : (zero negative).isFinite = true := by cases negative <;> decide
  unfold value
  dsimp only
  cases hfirst : m.digits.dropWhile (· == '0') with
  | nil =>
      have hmagnitude : m.magnitude = 0 := by
        rw [magnitude, ← digitsValue_dropWhile_zero, hfirst]
        exact (congrArg (· * _) Nat.cast_zero).trans (zero_mul _)
      refine iff_of_true hzero ?_
      rw [hmagnitude]
      exact lt_of_lt_of_le (by positivity) pow_le_limit
  | cons c rest =>
      obtain ⟨hlow, hhigh⟩ := magnitude_bounds hdigits hfirst
      have hmono {i j : Int} (h : i ≤ j) : (10 : ℚ) ^ i ≤ 10 ^ j :=
        zpow_le_zpow_right₀ (by norm_num) h
      simp only [List.isEmpty_cons, Bool.false_eq_true, if_false, List.length_cons]
      push_cast
      split
      · rename_i hplace
        refine iff_of_false ?_ (not_lt.2 ?_)
        · cases negative <;> decide
        · exact limit_le_tenPow.trans ((hmono (by omega)).trans hlow)
      · split
        · rename_i hplace
          refine iff_of_true hzero (hhigh.trans_le ?_)
          calc (10 : ℚ) ^ (rest.length + 1 + m.exponent) ≤ 10 ^ (0 : Int) := hmono (by omega)
            _ = 2 ^ (0 : Int) := by rw [zpow_zero, zpow_zero]
            _ ≤ limit := pow_le_limit_of_le (by norm_num)
        · rw [← hfirst, digitsValue_dropWhile_zero,
            isFinite_ofRatio_iff _ _ (Decimal.ratio_snd_pos _), Decimal.ratio_eq, magnitude]

end Scaled

end Written

end AgentBlocks
