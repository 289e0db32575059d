import Synsema.Arith.Order
import Mathlib.Algebra.Order.Field.Power
import Mathlib.Data.Int.Log
import Mathlib.Tactic.Positivity

/-!
# Decimals of ratios

The number of digits of the integer part of a ratio (`magnitude_digits`), the scale at which it keeps
28 significant digits, and the rounding of a ratio of integers to the nearest integer.

The code counts places as `u32`: what it counts is right as long as it fits (`magnitudeDigits_eq`), and
never off by more than one.
-/

namespace Synsema.Arith

open Text

/-! ## Powers of ten -/

/-- `pow10_big`, of an integer that is cast to `u32`. -/
def pow10Big (k : Int) : Int := 10 ^ (k.toNat % 2 ^ 32)

theorem pow10Big_of_lt {k : Int} (hmin : 0 ≤ k) (hmax : k < 2 ^ 32) :
    (pow10Big k : ℚ) = 10 ^ k := by
  obtain ⟨n, rfl⟩ := Int.eq_ofNat_of_zero_le hmin
  have hn : n % 2 ^ 32 = n := Nat.mod_eq_of_lt (by omega)
  rw [pow10Big, Int.toNat_natCast, hn, zpow_natCast]
  push_cast
  rfl

/-! ## The digits of a ratio -/

/-- `to_string().len()`. -/
def digitCount (n : Nat) : Int := (digits n).length

def magnitudeDigits (num den : Int) : Int :=
  let n : Int := num.natAbs
  let e := digitCount num.natAbs - digitCount den.natAbs
  let ge : Bool := if 0 ≤ e then den * pow10Big e ≤ n else den ≤ n * pow10Big (-e)
  (if ge then e else e - 1) + 1

theorem digitCount_bounds {n : Nat} (hn : 0 < n) :
    (10 : ℚ) ^ (digitCount n - 1) ≤ n ∧ (n : ℚ) < 10 ^ digitCount n := by
  have hdigits : digits n = Nat.toDigits 10 n := by
    rw [digits, Nat.toString_eq_repr, Nat.toList_repr]
  have hpos : 0 < (digits n).length := List.length_pos_iff.mpr (digits_ne_nil n)
  have hle {k : Nat} (hk : 0 < k) : (digits n).length ≤ k ↔ n < 10 ^ k := by
    rw [hdigits]
    exact Nat.length_toDigits_le_iff (by decide) hk
  constructor
  · obtain ⟨k, hk⟩ := Nat.exists_eq_add_of_lt hpos
    have hge : 10 ^ k ≤ n := by
      rcases Nat.eq_zero_or_pos k with rfl | hkpos
      · exact hn
      · by_contra hlt
        have := (hle hkpos).mpr (not_le.mp hlt)
        omega
    have hexp : digitCount n - 1 = (k : Int) := by
      rw [digitCount, hk]
      push_cast
      ring
    rw [hexp, zpow_natCast]
    exact_mod_cast hge
  · rw [digitCount, zpow_natCast]
    exact_mod_cast (hle hpos).mp le_rfl

section Magnitude

variable {num den : Int} (hnum : num ≠ 0) (hden : 0 < den)

include hnum hden

theorem log_bounds :
    digitCount num.natAbs - digitCount den.natAbs - 1 ≤ Int.log 10 (|(num : ℚ)| / den) ∧
      Int.log 10 (|(num : ℚ)| / den) ≤ digitCount num.natAbs - digitCount den.natAbs := by
  have hnabs : (0 : ℚ) < |(num : ℚ)| := abs_pos.mpr (Int.cast_ne_zero.mpr hnum)
  have hdpos : (0 : ℚ) < den := Int.cast_pos.mpr hden
  have hq : 0 < |(num : ℚ)| / den := div_pos hnabs hdpos
  obtain ⟨hn₁, hn₂⟩ := digitCount_bounds (Int.natAbs_pos.mpr hnum)
  obtain ⟨hd₁, hd₂⟩ := digitCount_bounds (Int.natAbs_pos.mpr hden.ne')
  rw [Nat.cast_natAbs, Int.cast_abs] at hn₁ hn₂ hd₁ hd₂
  rw [abs_of_pos hdpos] at hd₁ hd₂
  generalize digitCount num.natAbs = m at *
  generalize digitCount den.natAbs = k at *
  have hten : (10 : ℚ) ≠ 0 := by norm_num
  constructor
  · rw [← Int.zpow_le_iff_le_log (by decide) hq, le_div_iff₀ hdpos]
    calc ((10 : ℕ) : ℚ) ^ (m - k - 1) * den ≤ 10 ^ (m - k - 1) * 10 ^ k := by
          push_cast
          gcongr
      _ = 10 ^ (m - 1) := by rw [← zpow_add₀ hten]; ring_nf
      _ ≤ |(num : ℚ)| := hn₁
  · rw [← Int.lt_add_one_iff, ← Int.lt_zpow_iff_log_lt (by decide) hq, div_lt_iff₀ hdpos]
    calc |(num : ℚ)| < 10 ^ m := hn₂
      _ = 10 ^ (m - k + 1) * 10 ^ (k - 1) := by rw [← zpow_add₀ hten]; ring_nf
      _ ≤ ((10 : ℕ) : ℚ) ^ (m - k + 1) * den := by
          push_cast
          gcongr

theorem magnitudeDigits_bounds :
    Int.log 10 (|(num : ℚ)| / den) ≤ magnitudeDigits num den ∧
      magnitudeDigits num den ≤ Int.log 10 (|(num : ℚ)| / den) + 2 := by
  obtain ⟨h₁, h₂⟩ := log_bounds hnum hden
  rw [magnitudeDigits]
  split_ifs <;> omega

theorem magnitudeDigits_eq (hlog : |Int.log 10 (|(num : ℚ)| / den)| < 2 ^ 32 - 1) :
    magnitudeDigits num den = Int.log 10 (|(num : ℚ)| / den) + 1 := by
  obtain ⟨h₁, h₂⟩ := log_bounds hnum hden
  rw [abs_lt] at hlog
  have hdpos : (0 : ℚ) < den := Int.cast_pos.mpr hden
  have hq : 0 < |(num : ℚ)| / den :=
    div_pos (abs_pos.mpr (Int.cast_ne_zero.mpr hnum)) hdpos
  rw [magnitudeDigits]
  generalize digitCount num.natAbs - digitCount den.natAbs = e at *
  -- the test is whether `10 ^ e` is up to the ratio
  have hge : (if 0 ≤ e then decide (den * pow10Big e ≤ num.natAbs)
      else decide (den ≤ num.natAbs * pow10Big (-e))) = true ↔
      e ≤ Int.log 10 (|(num : ℚ)| / den) := by
    rw [← Int.zpow_le_iff_le_log (by decide) hq, le_div_iff₀ hdpos]
    split_ifs with he
    · rw [decide_eq_true_iff, ← Int.cast_le (R := ℚ), Int.cast_mul,
        pow10Big_of_lt he (by omega), Int.natCast_natAbs, Int.cast_abs, mul_comm]
      push_cast
      rfl
    · have hneg : (10 : ℚ) ^ (-e) * 10 ^ e = 1 := by
        rw [← zpow_add₀ (by norm_num)]
        simp
      rw [decide_eq_true_iff, ← Int.cast_le (R := ℚ), Int.cast_mul,
        pow10Big_of_lt (by omega) (by omega), Int.natCast_natAbs, Int.cast_abs]
      push_cast
      constructor
      · intro h
        calc (10 : ℚ) ^ e * den ≤ 10 ^ e * (|(num : ℚ)| * 10 ^ (-e)) := by gcongr
          _ = |(num : ℚ)| * (10 ^ (-e) * 10 ^ e) := by ring
          _ = |(num : ℚ)| := by rw [hneg, mul_one]
      · intro h
        calc (den : ℚ) = den * (10 ^ (-e) * 10 ^ e) := by rw [hneg, mul_one]
          _ = 10 ^ e * den * 10 ^ (-e) := by ring
          _ ≤ |(num : ℚ)| * 10 ^ (-e) := by gcongr
  by_cases hle : e ≤ Int.log 10 (|(num : ℚ)| / den)
  · rw [if_pos (hge.mpr hle)]
    omega
  · rw [if_neg (mt hge.mp hle)]
    omega

end Magnitude

/-! ## Decimals of parts -/

abbrev divRoundHalfEven : Int → Int → Int := Scaled.halfEven

theorem ratio_dec96 (m : Int) (s : Nat) : Scaled.ratio dec96 m s = m / 10 ^ s := rfl

theorem decimalFromParts_rat {m : Int} {s : Nat} (hs : s < 2 ^ 32) :
    (Number.decimalFromParts m s).rat = Scaled.ratio dec96 m s := by
  have hratio := dropZeros_ratio 28 m s
  rw [Number.decimalFromParts]
  simp only [Nat.mod_eq_of_lt hs]
  split
  · exact hratio
  · exact hratio

end Synsema.Arith
