import Synsema.Arith.Ratio
import Mathlib.Analysis.Real.Sqrt

/-!
# The square root of a decimal

`decimal_sqrt_ratio` takes the integer square root with one more digit than it keeps, and rounds on that
digit, halves to the even.  The digit is truncated: where it is a 5 and more digits follow, the root is
above the half, but is rounded as if it were at it.  So the result is a nearest decimal exactly when
the root is not just above the middle of an even decimal and the next one (`sqrt_nearest_iff`).
-/

namespace Synsema.Arith

def decimalSqrtRatio (num den : Int) : Number :=
  if num = 0 then .decimal Dec.zero
  else
    let e := magnitudeDigits num den - 1
    let intDigits := e / 2 + 1
    let scale := (max (28 - intDigits) 0).toNat % 2 ^ 32
    let x := num * 10 ^ ((2 * scale + 2) % 2 ^ 32) / den
    let r := Int.sqrt x
    let q := divRoundHalfEven r 10
    let p := if q * q * den = num * 10 ^ (2 * scale % 2 ^ 32) then dropZeros 0 q scale else (q, scale)
    Number.decimalFromParts p.1 p.2

/-! ## The root and its scale -/

/-- The root of a ratio. -/
noncomputable def root (num den : Int) : ℝ := √(num / den)

/-- The decimal places that give the root 28 significant digits. -/
noncomputable def rootScale (num den : Int) : Nat :=
  (28 - (Int.log 10 (root num den) + 1)).toNat

/-- A decimal is the root where that has no more than the decimal places, and is else the nearest
one with so many. -/
def IsRoot (num den : Int) (v : ℚ) : Prop :=
  (∀ k : Int, root num den = k / 10 ^ rootScale num den → (v : ℝ) = root num den) ∧
    (∃ k : Int, v = k / 10 ^ rootScale num den) ∧
      ∀ k : Int, |(v : ℝ) - root num den| ≤ |k / 10 ^ rootScale num den - root num den|

section Root

variable {num den : Int} (hnum : 0 < num) (hden : 0 < den)

include hnum hden

theorem root_pos : 0 < root num den :=
  Real.sqrt_pos.mpr (div_pos (Int.cast_pos.mpr hnum) (Int.cast_pos.mpr hden))

theorem root_sq : root num den ^ 2 = num / den :=
  Real.sq_sqrt (div_nonneg (Int.cast_nonneg hnum.le) (Int.cast_nonneg hden.le))

theorem log_root : Int.log 10 (root num den) = Int.log 10 ((num : ℚ) / den) / 2 := by
  have hq : (0 : ℚ) < num / den := div_pos (Int.cast_pos.mpr hnum) (Int.cast_pos.mpr hden)
  have hpos := root_pos hnum hden
  have hsq : (((num / den : ℚ)) : ℝ) = root num den ^ 2 := by
    rw [root_sq hnum hden]
    push_cast
    rfl
  generalize (num : ℚ) / den = q at *
  have hle : (10 : ℝ) ^ Int.log 10 q ≤ q := by
    have h := (Rat.cast_le (K := ℝ)).mpr (Int.zpow_log_le_self (b := 10) (by decide) hq)
    rwa [Rat.cast_zpow] at h
  have hlt : (q : ℝ) < (10 : ℝ) ^ (Int.log 10 q + 1) := by
    have h := (Rat.cast_lt (K := ℝ)).mpr (Int.lt_zpow_succ_log_self (b := 10) (by decide) q)
    rwa [Rat.cast_zpow] at h
  rw [hsq] at hle hlt
  generalize Int.log 10 q = L at *
  have hten : (10 : ℝ) ≠ 0 := by norm_num
  have hsquare (n : Int) : ((10 : ℝ) ^ n) ^ 2 = 10 ^ (2 * n) := by
    rw [← zpow_natCast, ← zpow_mul]
    ring_nf
  apply le_antisymm
  · rw [← Int.lt_add_one_iff, ← Int.lt_zpow_iff_log_lt (by decide) hpos]
    have h : root num den ^ 2 < ((10 : ℝ) ^ (L / 2 + 1)) ^ 2 := by
      rw [hsquare]
      exact hlt.trans_le (zpow_le_zpow_right₀ (by norm_num) (show L + 1 ≤ 2 * (L / 2 + 1) by omega))
    exact_mod_cast lt_of_pow_lt_pow_left₀ 2 (by positivity) h
  · rw [← Int.zpow_le_iff_le_log (by decide) hpos]
    have h : ((10 : ℝ) ^ (L / 2)) ^ 2 ≤ root num den ^ 2 := by
      rw [hsquare]
      exact (zpow_le_zpow_right₀ (by norm_num) (show 2 * (L / 2) ≤ L by omega)).trans hle
    exact_mod_cast le_of_sq_le_sq h hpos.le

theorem sqrt_bounds {s : Nat} {x r : Int} (hxdef : num * 10 ^ (2 * s + 2) / den = x)
    (hr : Int.sqrt x = r) : 0 ≤ r ∧ (r : ℝ) ≤ 10 * (root num den * 10 ^ s) ∧
      10 * (root num den * 10 ^ s) < r + 1 := by
  have hdpos : (0 : ℝ) < den := Int.cast_pos.mpr hden
  have hpos : 0 < 10 * (root num den * 10 ^ s) := by
    have := root_pos hnum hden
    positivity
  have hx : 0 ≤ x := hxdef ▸ Int.ediv_nonneg (by positivity) hden.le
  have hsquare : (10 * (root num den * 10 ^ s)) ^ 2 * (den : ℝ) = (num : ℝ) * 10 ^ (2 * s + 2) := by
    calc (10 * (root num den * 10 ^ s)) ^ 2 * (den : ℝ)
        = root num den ^ 2 * (den : ℝ) * (10 ^ 2 * (10 ^ s) ^ 2) := by ring
      _ = (num : ℝ) * (10 ^ 2 * (10 ^ s) ^ 2) := by
          rw [root_sq hnum hden, div_mul_cancel₀ _ hdpos.ne']
      _ = (num : ℝ) * 10 ^ (2 * s + 2) := by ring
  subst hr
  generalize hr : Int.sqrt x = r
  have hle : r * r ≤ x := by
    have h : Nat.sqrt x.toNat * Nat.sqrt x.toNat ≤ x.toNat := Nat.sqrt_le x.toNat
    have hcast : r * r ≤ (x.toNat : Int) := by
      rw [← hr, Int.sqrt]
      exact_mod_cast h
    rwa [Int.toNat_of_nonneg hx] at hcast
  have hlt : x < (r + 1) * (r + 1) := by
    have h : x.toNat < (Nat.sqrt x.toNat + 1) * (Nat.sqrt x.toNat + 1) := Nat.lt_succ_sqrt x.toNat
    have hcast : (x.toNat : Int) < (r + 1) * (r + 1) := by
      rw [← hr, Int.sqrt]
      exact_mod_cast h
    rwa [Int.toNat_of_nonneg hx] at hcast
  have hnonneg : 0 ≤ r := hr ▸ Int.sqrt_nonneg x
  refine ⟨hnonneg, ?_, ?_⟩
  · refine le_of_sq_le_sq (le_of_mul_le_mul_right ?_ hdpos) hpos.le
    rw [hsquare]
    have h : r * r * den ≤ num * 10 ^ (2 * s + 2) := by
      rw [← Int.le_ediv_iff_mul_le hden, hxdef]
      exact hle
    have hcast : ((r * r * den : Int) : ℝ) ≤ ((num * 10 ^ (2 * s + 2) : Int) : ℝ) :=
      Int.cast_le.mpr h
    push_cast at hcast
    rwa [sq]
  · refine lt_of_pow_lt_pow_left₀ 2 (by exact_mod_cast (Int.le_add_one hnonneg)) (lt_of_mul_lt_mul_right ?_ hdpos.le)
    rw [hsquare]
    have h : num * 10 ^ (2 * s + 2) < (r + 1) * (r + 1) * den := by
      rw [← Int.ediv_lt_iff_lt_mul hden, hxdef]
      exact hlt
    have hcast : ((num * 10 ^ (2 * s + 2) : Int) : ℝ) < (((r + 1) * (r + 1) * den : Int) : ℝ) :=
      Int.cast_lt.mpr h
    push_cast at hcast
    rwa [sq]

end Root

/-! ## Rounding on one more digit -/

section Rounding

variable {t : ℝ} {q r : Int}

theorem nearest_of_le_half (h : |q - t| ≤ 1 / 2) (k : Int) : |q - t| ≤ |k - t| := by
  by_cases hk : k = q
  · rw [hk]
  · have hone : (1 : ℝ) ≤ |(q : ℝ) - k| := by
      have : (1 : Int) ≤ |q - k| := Int.one_le_abs (sub_ne_zero.mpr (Ne.symm hk))
      exact_mod_cast this
    have htri : |(q : ℝ) - k| ≤ |q - t| + |k - t| := by
      rw [abs_sub_comm (k : ℝ) t]
      exact abs_sub_le (q : ℝ) t k
    linarith

/-- The number is above the middle of an even integer and the next one, and below the next digit. -/
def AboveHalf (t : ℝ) : Prop := ∃ k : Int, Even k ∧ (k + 1 / 2 : ℝ) < t ∧ t < k + 3 / 5

theorem aboveHalf_iff {k : Int} (hk : (k : ℝ) ≤ t) (hk' : t < k + 1) :
    AboveHalf t ↔ Even k ∧ (k + 1 / 2 : ℝ) < t ∧ t < k + 3 / 5 := by
  refine ⟨?_, fun h => ⟨k, h⟩⟩
  rintro ⟨n, heven, hlow, hhigh⟩
  obtain rfl : n = k := by
    rcases lt_trichotomy n k with h | h | h
    · have : ((n + 1 : Int) : ℝ) ≤ k := Int.cast_le.mpr h
      push_cast at this
      linarith
    · exact h
    · have : ((k + 1 : Int) : ℝ) ≤ n := Int.cast_le.mpr h
      push_cast at this
      linarith
  exact ⟨heven, hlow, hhigh⟩

theorem nearest_iff (hle : (r : ℝ) ≤ 10 * t) (hlt : 10 * t < r + 1) :
    (∀ k : Int, |(divRoundHalfEven r 10 : ℝ) - t| ≤ |k - t|) ↔ ¬AboveHalf t := by
  have hlow := Int.emod_nonneg r (by decide : (10 : Int) ≠ 0)
  have hhigh := Int.emod_lt_of_pos r (by decide : (0 : Int) < 10)
  have hr : (r : ℝ) = 10 * ((r / 10 : Int) : ℝ) + ((r % 10 : Int) : ℝ) := by
    exact_mod_cast (Int.mul_ediv_add_emod r 10).symm
  rw [divRoundHalfEven, Scaled.halfEven]
  generalize r / 10 = k at *
  generalize r % 10 = d at *
  have hd₀ : (0 : ℝ) ≤ d := Int.cast_nonneg hlow
  have hd₉ : (d : ℝ) ≤ 9 := by exact_mod_cast Int.le_sub_one_of_lt hhigh
  rw [aboveHalf_iff (k := k) (by linarith) (by linarith)]
  split_ifs with hdown hup heven
  · -- the digit is below 5
    have hd : (d : ℝ) ≤ 4 := by exact_mod_cast (by omega : d ≤ 4)
    refine iff_of_true (nearest_of_le_half ?_) fun h => by linarith [h.2.1]
    rw [abs_le]
    constructor <;> linarith
  · -- the digit is above 5
    have hd : (6 : ℝ) ≤ d := by exact_mod_cast (by omega : 6 ≤ d)
    refine iff_of_true (nearest_of_le_half ?_) fun h => by linarith [h.2.2]
    push_cast
    rw [abs_le]
    constructor <;> linarith
  · -- the digit is 5, and what is before it is even: rounded down
    obtain rfl : d = 5 := by omega
    have hfive : ((5 : Int) : ℝ) = 5 := by norm_num
    rw [hfive] at hr
    constructor
    · intro hnear h
      have hnext := hnear (k + 1)
      push_cast at hnext
      rw [abs_of_nonpos (by linarith), abs_of_nonneg (by linarith)] at hnext
      linarith [h.2.1]
    · intro h
      have ht : t ≤ k + 1 / 2 := by
        by_contra hgt
        exact h ⟨Int.even_iff.mpr heven, not_le.mp hgt, by linarith⟩
      refine nearest_of_le_half ?_
      rw [abs_le]
      constructor <;> linarith
  · -- the digit is 5, and what is before it is odd: rounded up
    obtain rfl : d = 5 := by omega
    have hfive : ((5 : Int) : ℝ) = 5 := by norm_num
    rw [hfive] at hr
    refine iff_of_true (nearest_of_le_half ?_) fun h => heven (Int.even_iff.mp h.1)
    push_cast
    rw [abs_le]
    constructor <;> linarith

end Rounding

/-! ## The result -/

section Result

variable {num den : Int}

theorem isRoot_iff (q : Int) : IsRoot num den (q / 10 ^ rootScale num den) ↔
    ∀ k : Int, |(q : ℝ) - root num den * 10 ^ rootScale num den| ≤
      |k - root num den * 10 ^ rootScale num den| := by
  have hpow : (0 : ℝ) < 10 ^ rootScale num den := by positivity
  have hdist (k : Int) : |(k / 10 ^ rootScale num den : ℝ) - root num den| =
      |k - root num den * 10 ^ rootScale num den| / 10 ^ rootScale num den := by
    rw [eq_div_iff hpow.ne', ← abs_of_pos hpow, ← abs_mul, abs_of_pos hpow, sub_mul,
      div_mul_cancel₀ _ hpow.ne']
  have hcast : (((q : ℚ) / 10 ^ rootScale num den : ℚ) : ℝ) = q / 10 ^ rootScale num den := by
    push_cast
    rfl
  have hnear (k : Int) : |(q / 10 ^ rootScale num den : ℝ) - root num den| ≤
      |k / 10 ^ rootScale num den - root num den| ↔
        |(q : ℝ) - root num den * 10 ^ rootScale num den| ≤
          |k - root num den * 10 ^ rootScale num den| := by
    rw [hdist, hdist, div_le_div_iff_of_pos_right hpow]
  rw [IsRoot, hcast]
  simp only [hnear]
  constructor
  · exact fun h => h.2.2
  · refine fun h => ⟨fun k hk => ?_, ⟨q, rfl⟩, h⟩
    have hzero := (hnear k).mpr (h k)
    rw [← hk, sub_self, abs_zero] at hzero
    exact sub_eq_zero.mp (abs_eq_zero.mp (le_antisymm hzero (abs_nonneg _)))

variable (hnum : 0 < num) (hden : 0 < den)

include hnum hden

theorem places_bounds : let places := 28 - ((magnitudeDigits num den - 1) / 2 + 1)
    (2 * rootScale num den + 2 < 2 ^ 32 → (max places 0).toNat = rootScale num den) ∧
      (2 ^ 32 ≤ 2 * rootScale num den + 2 →
        2 ^ 32 ≤ 2 * places + 2 ∧ places ≤ rootScale num den + 1) := by
  intro places
  have habs : |(num : ℚ)| = num := abs_of_pos (Int.cast_pos.mpr hnum)
  obtain ⟨hlow, hhigh⟩ := magnitudeDigits_bounds hnum.ne' hden
  have hexact := magnitudeDigits_eq hnum.ne' hden
  rw [habs] at hlow hhigh hexact
  rw [abs_lt] at hexact
  have hscale : rootScale num den = (28 - (Int.log 10 ((num : ℚ) / den) / 2 + 1)).toNat := by
    rw [rootScale, log_root hnum hden]
  rw [hscale]
  generalize Int.log 10 ((num : ℚ) / den) = L at *
  have hplaces : places = 28 - ((magnitudeDigits num den - 1) / 2 + 1) := rfl
  generalize magnitudeDigits num den = md at *
  by_cases hL : -(2 ^ 32 - 1) < L ∧ L < 2 ^ 32 - 1
  · have := hexact hL
    omega
  · omega

theorem root_rat_of_lt (hs : 2 * rootScale num den + 2 < 2 ^ 32) :
    (decimalSqrtRatio num den).rat =
      divRoundHalfEven (Int.sqrt (num * 10 ^ (2 * rootScale num den + 2) / den)) 10 /
        10 ^ rootScale num den := by
  have hplaces := (places_bounds hnum hden).1 hs
  have hscale : (max (28 - ((magnitudeDigits num den - 1) / 2 + 1)) 0).toNat % 2 ^ 32 =
      rootScale num den := by
    rw [hplaces]
    exact Nat.mod_eq_of_lt (by omega)
  rw [decimalSqrtRatio, if_neg hnum.ne']
  simp only [hscale, Nat.mod_eq_of_lt hs]
  split_ifs
  · rw [decimalFromParts_rat ((dropZeros_le 0 _ _).trans_lt (by omega)), dropZeros_ratio,
      ratio_dec96]
  · rw [decimalFromParts_rat (by omega), ratio_dec96]

theorem isRoot_iff_of_lt (hs : 2 * rootScale num den + 2 < 2 ^ 32) :
    IsRoot num den (decimalSqrtRatio num den).rat ↔
      ¬AboveHalf (root num den * 10 ^ rootScale num den) := by
  obtain ⟨-, hle, hlt⟩ := sqrt_bounds (s := rootScale num den) hnum hden rfl rfl
  rw [root_rat_of_lt hnum hden hs, isRoot_iff, nearest_iff hle hlt]

theorem root_rat_of_le (hs : 2 ^ 32 ≤ 2 * rootScale num den + 2) :
    (decimalSqrtRatio num den).rat = 0 := by
  obtain ⟨hfar, hnear⟩ := (places_bounds hnum hden).2 hs
  have hscale : rootScale num den = (28 - (Int.log 10 ((num : ℚ) / den) / 2 + 1)).toNat := by
    rw [rootScale, log_root hnum hden]
  have hdpos : (0 : ℚ) < den := Int.cast_pos.mpr hden
  have hlog := Int.lt_zpow_succ_log_self (b := 10) (by decide) ((num : ℚ) / den)
  rw [div_lt_iff₀ hdpos] at hlog
  rw [decimalSqrtRatio, if_neg hnum.ne']
  dsimp only
  generalize 28 - ((magnitudeDigits num den - 1) / 2 + 1) = places at *
  generalize Int.log 10 ((num : ℚ) / den) = L at *
  -- the exponent has wrapped
  obtain ⟨c, hc⟩ : ∃ c, (2 * ((max places 0).toNat % 2 ^ 32) + 2) % 2 ^ 32 = c := ⟨_, rfl⟩
  have hlow : L + 1 + c ≤ 0 := by omega
  have hlt : num * 10 ^ c < den := by
    have hq : (num : ℚ) * 10 ^ c < den := by
      calc (num : ℚ) * 10 ^ c < ((10 : ℕ) : ℚ) ^ (L + 1) * den * 10 ^ c := by gcongr
        _ = 10 ^ (L + 1 + c) * den := by
            rw [zpow_add₀ (by norm_num : (10 : ℚ) ≠ 0) (L + 1) c, zpow_natCast]
            push_cast
            ring
        _ ≤ 1 * den := by
            gcongr
            exact zpow_le_one_of_nonpos₀ (by norm_num) hlow
        _ = den := one_mul _
    exact_mod_cast hq
  have hzero : num * 10 ^ c / den = 0 := Int.ediv_eq_zero_of_lt (by positivity) hlt
  have hround : divRoundHalfEven (Int.sqrt 0) 10 = 0 := by decide
  have hne : ¬(0 * 0 * den = num * 10 ^ (2 * ((max places 0).toNat % 2 ^ 32) % 2 ^ 32)) := by
    rw [mul_zero, zero_mul]
    have : 0 < num * 10 ^ (2 * ((max places 0).toNat % 2 ^ 32) % 2 ^ 32) := by positivity
    exact this.ne
  simp only [hc, hzero, hround, if_neg hne]
  rw [decimalFromParts_rat (Nat.mod_lt _ (by decide)), ratio_dec96, Int.cast_zero, zero_div]

theorem not_isRoot_zero (hs : 2 ^ 32 ≤ 2 * rootScale num den + 2) : ¬IsRoot num den 0 := by
  intro h
  have hpos := root_pos hnum hden
  have hpow : (0 : ℝ) < 10 ^ rootScale num den := by positivity
  have hone := h.2.2 1
  have hbig : 1 / 10 ^ rootScale num den ≤ root num den := by
    have hlog := Int.zpow_log_le_self (b := 10) (by decide) hpos
    have hscale : -(rootScale num den : Int) ≤ Int.log 10 (root num den) := by
      have : rootScale num den = (28 - (Int.log 10 (root num den) + 1)).toNat := rfl
      omega
    calc (1 : ℝ) / 10 ^ rootScale num den = 10 ^ (-(rootScale num den : Int)) := by
          rw [zpow_neg, zpow_natCast, one_div]
      _ ≤ 10 ^ Int.log 10 (root num den) := zpow_le_zpow_right₀ (by norm_num) hscale
      _ ≤ root num den := by exact_mod_cast hlog
  have hunit : 0 < 1 / (10 : ℝ) ^ rootScale num den := by positivity
  rw [Rat.cast_zero, zero_sub, abs_neg, abs_of_pos hpos, Int.cast_one,
    abs_of_nonpos (by linarith)] at hone
  linarith

omit hnum

/-- **The root is correctly rounded exactly when it is not just above a half that is rounded down**
(and its places fit a `u32`). -/
theorem sqrt_nearest_iff (hnum : 0 ≤ num) : IsRoot num den (decimalSqrtRatio num den).rat ↔
    num = 0 ∨ (2 * rootScale num den + 2 < 2 ^ 32 ∧
      ¬AboveHalf (root num den * 10 ^ rootScale num den)) := by
  rcases hnum.eq_or_lt with rfl | hpos
  · have hroot : root 0 den = 0 := by rw [root, Int.cast_zero, zero_div, Real.sqrt_zero]
    have hrat : (decimalSqrtRatio 0 den).rat = ((0 : Int) : ℚ) / 10 ^ rootScale 0 den := by
      rw [Int.cast_zero, zero_div]
      exact Dec.value_zero
    refine iff_of_true ?_ (.inl rfl)
    rw [hrat, isRoot_iff, hroot]
    intro k
    rw [zero_mul, Int.cast_zero, sub_zero, sub_zero, abs_zero]
    exact abs_nonneg _
  · rcases Nat.lt_or_ge (2 * rootScale num den + 2) (2 ^ 32) with hs | hs
    · rw [isRoot_iff_of_lt hpos hden hs]
      constructor
      · exact fun h => .inr ⟨hs, h⟩
      · rintro (h | h)
        · exact absurd h hpos.ne'
        · exact h.2
    · rw [root_rat_of_le hpos hden hs]
      refine iff_of_false (not_isRoot_zero hpos hden hs) ?_
      rintro (h | h)
      · exact hpos.ne' h
      · exact absurd h.1 (not_lt.mpr hs)

end Result

theorem rootScale_of_digit {n : Int} (h₁ : 1 ≤ root n 1) (h₂ : root n 1 < 10) :
    rootScale n 1 = 27 := by
  have hlog : Int.log 10 (root n 1) = 0 := by
    apply le_antisymm
    · rw [← Int.lt_add_one_iff, ← Int.lt_zpow_iff_log_lt (by decide) (by linarith)]
      norm_num
      exact h₂
    · rw [← Int.zpow_le_iff_le_log (by decide) (by linarith)]
      norm_num
      exact h₁
  rw [rootScale, hlog]
  rfl

/-- The root of 4. -/
theorem sqrt_nearest_four : IsRoot 4 1 (decimalSqrtRatio 4 1).rat := by
  have hroot : root 4 1 = 2 := by
    rw [root, show ((4 : Int) : ℝ) / ((1 : Int) : ℝ) = 2 ^ 2 by norm_num]
    exact Real.sqrt_sq (by norm_num)
  have hscale : rootScale 4 1 = 27 := rootScale_of_digit (by rw [hroot]; norm_num)
    (by rw [hroot]; norm_num)
  refine (sqrt_nearest_iff (by decide) (by decide)).mpr (.inr ⟨?_, ?_⟩)
  · rw [hscale]
    decide
  · rw [hroot, hscale, aboveHalf_iff (k := 2 * 10 ^ 27) (by norm_num) (by norm_num)]
    norm_num

/-- **The root of 27 is misrounded**: the digits `5.196152422706631880582339024|52…` are cut after
the 24. -/
theorem sqrt_misrounded : ¬IsRoot 27 1 (decimalSqrtRatio 27 1).rat := by
  have hroot : root 27 1 = √27 := by
    rw [root]
    norm_num
  have hle {a : ℝ} (ha : 0 ≤ a) (h : a ^ 2 < 27) : a < √27 := (Real.lt_sqrt ha).mpr h
  have hge {a : ℝ} (ha : 0 ≤ a) (h : 27 < a ^ 2) : √27 < a := (Real.sqrt_lt' (by
    by_contra hneg
    have : a = 0 := le_antisymm (not_lt.mp hneg) ha
    rw [this] at h
    norm_num at h)).mpr h
  have hscale : rootScale 27 1 = 27 := by
    rw [← hroot] at hle hge
    exact rootScale_of_digit (hle (by norm_num) (by norm_num)).le (hge (by norm_num) (by norm_num))
  rw [isRoot_iff_of_lt (by decide) (by decide) (by rw [hscale]; decide), hscale, not_not, hroot]
  refine ⟨5196152422706631880582339024, by decide, ?_, ?_⟩
  · rw [← div_lt_iff₀ (by norm_num)]
    exact hle (by norm_num) (by norm_num)
  · rw [← lt_div_iff₀ (by norm_num)]
    exact hge (by norm_num) (by norm_num)

end Synsema.Arith
