import Synsema.Arith.DecimalText
import Synsema.Arith.Quotient

/-!
# Ratios as decimals

The decimal of a ratio has the places that are asked for, or those of 28 significant digits when
they are more: it is exact when the ratio has no more places than these, and else the nearest
decimal of so many places, of two the even one.  Its zeros past the scale that is wanted are
dropped.

The places are cast to `u32`, so that what is too small for its 28 digits to be counted by one is
rounded to zero (`decimalFromRatio_rounded_iff`).
-/

namespace Synsema.Arith

/-! ## What a rounded ratio is -/

/-- The digits of the integer part, `floor(log10) + 1`; zero has none. -/
def integerDigits (q : ℚ) : Int := if q = 0 then 0 else Int.log 10 |q| + 1

/-- The places at which a ratio is rounded. -/
def workingScale (q : ℚ) (minScale : Nat) : Nat :=
  (max (minScale : Int) (28 - integerDigits q)).toNat

/-- The decimal is the number rounded at its working scale, and has no more places. -/
structure CorrectlyRounded (q : ℚ) (minScale : Nat) (r : Number) : Prop where
  decimal : r.isDecimal = true
  places_le : (r.places : Int) ≤ max (minScale : Int) (28 - integerDigits q)
  exact : ∀ n : Int, q = n / 10 ^ workingScale q minScale → r.rat = q
  rounded : r.rat = Scaled.nearest (q * 10 ^ workingScale q minScale) / 10 ^ workingScale q minScale
  digits : q ≠ 0 → ∃ m : Int, r.rat = m / 10 ^ workingScale q minScale ∧ 28 ≤ sigDigits m
  integerPart : (⌊|q|⌋ : ℚ) ≤ |r.rat|

/-! ## Rounding at the working scale -/

variable {q : ℚ} {n : Nat}

theorem le_nearest {n : Int} (h : (n : ℚ) ≤ q) : n ≤ Scaled.nearest q := by
  have hneg : Scaled.nearest (-q) ≤ -n := Scaled.nearest_le (by
    rw [Int.cast_neg]
    exact neg_le_neg h)
  rw [Scaled.nearest_neg] at hneg
  exact neg_le_neg_iff.mp hneg

theorem le_natAbs_nearest (h : (n : ℚ) ≤ |q|) : n ≤ (Scaled.nearest q).natAbs := by
  have hle : (n : Int) ≤ Scaled.nearest |q| := le_nearest (by exact_mod_cast h)
  rw [← Scaled.natAbs_nearest] at hle
  exact_mod_cast hle

theorem floor_abs_le_nearest (q : ℚ) (s : Nat) :
    (⌊|q|⌋ : ℚ) ≤ |(Scaled.nearest (q * 10 ^ s) : ℚ) / 10 ^ s| := by
  have hpow : (0 : ℚ) < 10 ^ s := by positivity
  obtain ⟨k, hk⟩ := Int.eq_ofNat_of_zero_le (Int.floor_nonneg.mpr (abs_nonneg q))
  have hfloor : (k : ℚ) ≤ |q| := by
    have hle := Int.floor_le |q|
    rwa [hk] at hle
  have hle : k * 10 ^ s ≤ (Scaled.nearest (q * 10 ^ s)).natAbs := by
    apply le_natAbs_nearest
    rw [abs_mul_pow]
    push_cast
    gcongr
  rw [abs_div, abs_of_pos hpow, le_div_iff₀ hpow, hk, ← Int.cast_abs, Int.abs_eq_natAbs]
  exact_mod_cast hle

theorem le_sigDigits_nearest (hq : q ≠ 0) (minScale : Nat) :
    28 ≤ sigDigits (Scaled.nearest (q * 10 ^ workingScale q minScale)) := by
  rw [le_sigDigits_iff]
  apply le_natAbs_nearest
  have hlog : (10 : ℚ) ^ Int.log 10 |q| ≤ |q| := by
    exact_mod_cast Int.zpow_log_le_self (b := 10) (by decide) (abs_pos.mpr hq)
  have hscale : 27 ≤ Int.log 10 |q| + workingScale q minScale := by
    rw [workingScale, integerDigits, if_neg hq]
    omega
  rw [abs_mul_pow]
  calc ((10 ^ 27 : Nat) : ℚ) = 10 ^ (27 : Int) := by norm_num
    _ ≤ 10 ^ (Int.log 10 |q| + workingScale q minScale) :=
        zpow_le_zpow_right₀ (by norm_num) hscale
    _ = 10 ^ Int.log 10 |q| * 10 ^ workingScale q minScale := by
        rw [zpow_add₀ (by norm_num), zpow_natCast]
    _ ≤ |q| * 10 ^ workingScale q minScale := by gcongr

theorem correctlyRounded_of_rat {minScale : Nat} {r : Number} (hdec : r.isDecimal)
    (hplaces : r.places ≤ workingScale q minScale)
    (hrat : r.rat =
      Scaled.nearest (q * 10 ^ workingScale q minScale) / 10 ^ workingScale q minScale) :
    CorrectlyRounded q minScale r where
  decimal := hdec
  places_le := by
    rw [workingScale] at hplaces
    omega
  exact n hn := by
    have hpow : (10 : ℚ) ^ workingScale q minScale ≠ 0 := by positivity
    rw [hrat, eq_div_iff hpow |>.mp hn, Scaled.nearest_intCast]
    exact hn.symm
  rounded := hrat
  digits hq := ⟨_, hrat, le_sigDigits_nearest hq minScale⟩
  integerPart := by
    rw [hrat]
    exact floor_abs_le_nearest q _

/-! ## The scale of the code -/

section Ratio

variable {num den : Int} {minScale : Nat} (ideal : Nat)

theorem ratioScale_eq (hnum : num ≠ 0) (hden : 0 < den)
    (hplaces : quotientPlaces (num / den : ℚ) < 2 ^ 32) (hmin : minScale < 2 ^ 32) :
    ratioScale num den minScale = workingScale (num / den) minScale := by
  have hdpos : (0 : ℚ) < den := Int.cast_pos.mpr hden
  have hq : (num / den : ℚ) ≠ 0 := div_ne_zero (Int.cast_ne_zero.mpr hnum) hdpos.ne'
  have habs : |(num / den : ℚ)| = |(num : ℚ)| / den := by rw [abs_div, abs_of_pos hdpos]
  obtain ⟨h₁, h₂⟩ := magnitudeDigits_bounds hnum hden
  have heq := magnitudeDigits_eq hnum hden
  rw [quotientPlaces, habs] at hplaces
  rw [ratioScale, workingScale, integerDigits, if_neg hq, habs]
  generalize Int.log 10 (|(num : ℚ)| / den) = log at *
  rcases lt_or_ge |log| (2 ^ 32 - 1) with hlog | hlog
  · rw [heq hlog]
    rw [abs_lt] at hlog
    omega
  · -- so many digits left of the point that no place is needed for them
    rw [le_abs] at hlog
    omega

theorem places_decimalFromPositive_le (hnum : num ≠ 0) :
    (decimalFromPositive num den minScale ideal).places ≤ ratioScale num den minScale := by
  have hs : ratioScale num den minScale < 2 ^ 32 := Nat.mod_lt _ (Nat.two_pow_pos 32)
  rw [decimalFromPositive, if_neg hnum]
  dsimp only
  generalize ratioScale num den minScale = s at *
  split_ifs with hexact
  · have hle := dropZeros_le ideal (divRoundHalfEven (num * 10 ^ s) den) s
    exact (Number.readsAs_decimalFromParts (hle.trans_lt hs)).places_le.trans hle
  · exact (Number.readsAs_decimalFromParts hs).places_le

theorem decimalFromPositive_zero_rounded (hideal : ideal < 2 ^ 32) :
    CorrectlyRounded 0 minScale (decimalFromPositive 0 den minScale ideal) := by
  have hmin : min ideal (max minScale ideal) < 2 ^ 32 := by omega
  rw [decimalFromPositive, if_pos rfl]
  apply correctlyRounded_of_rat
  · exact Number.isDecimal_decimalFromParts _ _
  · rw [Number.places, Number.ratio_decimalFromParts hmin, dropZeros_zero, workingScale,
      integerDigits, if_pos rfl]
    omega
  · have hzero : Scaled.nearest 0 = 0 := by exact_mod_cast Scaled.nearest_intCast 0
    rw [decimalFromParts_rat hmin, ratio_dec96, zero_mul, hzero, Int.cast_zero, zero_div, zero_div]

theorem not_rounded_of_places (hnum : num ≠ 0) (hden : 0 < den)
    (hplaces : 2 ^ 32 ≤ quotientPlaces (num / den : ℚ)) (hmin : minScale < 2 ^ 32) :
    ¬CorrectlyRounded (num / den) minScale (decimalFromPositive num den minScale ideal) := by
  intro h
  have hq : (num / den : ℚ) ≠ 0 :=
    div_ne_zero (Int.cast_ne_zero.mpr hnum) (Int.cast_ne_zero.mpr hden.ne')
  obtain ⟨m, hm, hdigits⟩ := h.digits hq
  rw [decimalFromPositive_rat ideal hnum hden, nearest_ratioScale hnum hden hplaces hmin,
    Int.cast_zero, zero_div, eq_comm, div_eq_zero_iff, or_iff_left (by positivity)] at hm
  rw [le_sigDigits_iff, Int.cast_eq_zero.mp hm] at hdigits
  exact absurd hdigits (by decide)

theorem decimalFromPositive_rounded_iff (hden : 0 < den) (hmin : minScale < 2 ^ 32)
    (hideal : ideal < 2 ^ 32) :
    CorrectlyRounded (num / den) minScale (decimalFromPositive num den minScale ideal) ↔
      quotientPlaces (num / den) < 2 ^ 32 := by
  rcases eq_or_ne num 0 with rfl | hnum
  · rw [Int.cast_zero, zero_div]
    refine iff_of_true (decimalFromPositive_zero_rounded ideal hideal) ?_
    rw [quotientPlaces, abs_zero, Int.log_zero_right]
    decide
  rcases lt_or_ge (quotientPlaces (num / den : ℚ)) (2 ^ 32) with hplaces | hplaces
  · refine iff_of_true ?_ hplaces
    have hscale := ratioScale_eq hnum hden hplaces hmin
    apply correctlyRounded_of_rat
    · exact isDecimal_decimalFromPositive num den minScale ideal
    · rw [← hscale]
      exact places_decimalFromPositive_le ideal hnum
    · rw [← hscale]
      exact decimalFromPositive_rat ideal hnum hden
  · exact iff_of_false (not_rounded_of_places ideal hnum hden hplaces hmin) (not_lt.mpr hplaces)

/-- **When a ratio is rounded correctly**: exactly when the place of the last of its 28 digits fits
a `u32`, whatever the signs, the places that are asked for and those that are wanted. -/
theorem decimalFromRatio_rounded_iff (hden : den ≠ 0) (hmin : minScale < 2 ^ 32)
    (hideal : ideal < 2 ^ 32) :
    CorrectlyRounded (num / den) minScale (decimalFromRatio num den minScale ideal) ↔
      quotientPlaces (num / den) < 2 ^ 32 := by
  rw [decimalFromRatio]
  split_ifs with hneg
  · rw [← neg_div_neg_eq (num : ℚ), ← Int.cast_neg, ← Int.cast_neg]
    exact decimalFromPositive_rounded_iff ideal (Int.neg_pos.mpr hneg) hmin hideal
  · exact decimalFromPositive_rounded_iff ideal (by omega) hmin hideal

end Ratio

/-- Minus two thirds, of a divisor that is negative. -/
theorem decimalFromRatio_rounded_thirds :
    CorrectlyRounded ((2 : Int) / (-3 : Int)) 2 (decimalFromRatio 2 (-3) 2 0) := by
  apply (decimalFromRatio_rounded_iff 0 (by decide) (by decide) (by decide)).mpr
  have hlog : -1 ≤ Int.log 10 |((2 : Int) : ℚ) / (-3 : Int)| := by
    rw [← Int.zpow_le_iff_le_log (by decide) (by norm_num)]
    norm_num [abs_of_neg]
  rw [quotientPlaces]
  omega

theorem not_rounded_tenth (h : 2 ^ 32 ≤ n) (ideal : Nat) :
    ¬CorrectlyRounded ((1 : Int) / ((10 ^ n : Int) : ℚ)) 0 (decimalFromRatio 1 (10 ^ n) 0 ideal) := by
  have hpos : (0 : Int) < 10 ^ n := Int.pow_pos (by decide)
  have hplaces : 2 ^ 32 ≤ quotientPlaces ((1 : Int) / ((10 ^ n : Int) : ℚ)) := by
    have hq : ((1 : Int) / ((10 ^ n : Int) : ℚ)) = ((10 : Nat) : ℚ) ^ (-(n : Int)) := by
      push_cast
      rw [zpow_neg, zpow_natCast, one_div]
    rw [quotientPlaces, hq, abs_of_pos (by positivity), Int.log_zpow (by decide)]
    omega
  rw [decimalFromRatio, if_neg (not_lt.mpr hpos.le)]
  exact not_rounded_of_places ideal one_ne_zero hpos hplaces (by decide)

/-- One over ten to the power `2 ^ 32`. -/
theorem decimalFromRatio_rounds_to_zero :
    ¬CorrectlyRounded ((1 : Int) / ((10 ^ 2 ^ 32 : Int) : ℚ)) 0
      (decimalFromRatio 1 (10 ^ 2 ^ 32) 0 0) :=
  not_rounded_tenth le_rfl 0

end Synsema.Arith
