import Synsema.Arith.Exact

/-!
# Quotients of decimals

The quotient of two decimals is that of `rust_decimal` where this keeps 28 digits or is exact, and is
else computed with 28 significant digits.  Whether it is exact is tried by multiplying it back: that
product is rounded, so that it can give the dividend for a quotient that has been rounded too.

So the 28 digits are kept exactly when the product with the rounded quotient does not round back to
the dividend, and when the quotient is not just below a tenth that it is rounded to
(`div_keeps_digits_iff`).
-/

namespace Synsema.Arith

/-! ## Division -/

/-- The scale of `decimal_from_ratio`, of a positive divisor. -/
def ratioScale (num den : Int) (minScale : Nat) : Nat :=
  (max (max (minScale : Int) (28 - magnitudeDigits num den)) 0).toNat % 2 ^ 32

/-- `decimal_from_ratio`, of a positive divisor. -/
def decimalFromPositive (num den : Int) (minScale ideal : Nat) : Number :=
  if num = 0 then Number.decimalFromParts 0 (min ideal (max minScale ideal))
  else
    let scale := ratioScale num den minScale
    let scaled := num * 10 ^ scale
    let q := divRoundHalfEven scaled den
    let p := if q * den = scaled then dropZeros ideal q scale else (q, scale)
    Number.decimalFromParts p.1 p.2

def decimalFromRatio (num den : Int) (minScale ideal : Nat) : Number :=
  if den < 0 then decimalFromPositive (-num) (-den) minScale ideal
  else decimalFromPositive num den minScale ideal

/-- The digits of a mantissa. -/
def sigDigits (m : Int) : Nat := Nat.log 10 m.natAbs + 1

namespace Number

/-- `Number::Decimal(_) | Number::Int(_)`. -/
def isSmall : Number → Bool
  | int _ | decimal _ => true
  | _ => false

/-- The quotient of `rust_decimal`, where `decimal_div` takes it: it has 28 digits, or gives the
dividend when it is multiplied back. -/
def quickQuotient (R : Decimals) (a b : Number) : Option Dec :=
  if a.isSmall && b.isSmall then do
    let x ← a.toDecimal R
    let y ← b.toDecimal R
    let q ← R.checkedDiv x y
    if 28 ≤ sigDigits q.mantissa ∨ (R.checked .times q y).any (fun p ↦ R.cmp p x == .eq) then some q
    else none
  else none

def decimalDiv (R : Decimals) (a b : Number) : Option Number :=
  match quickQuotient R a b with
  | some q => some (decimal q)
  | none => do
    let (ma, sa) ← a.exactRatio
    let (mb, sb) ← b.exactRatio
    if mb = 0 then none
    else some (decimalFromRatio (ma * 10 ^ sb) (mb * 10 ^ sa) (max sa sb) (sa - sb))

def div (R : Decimals) (F : Floats) (a b : Number) : Number :=
  let flt := float (F.div (a.toF64 F) (b.toF64 F))
  if anyDecimal a b && !anyFloat a b then (decimalDiv R a b).getD flt else flt

end Number

/-! ## Rounding to 96 bits -/

/-- Is there room for a number at a scale? -/
def RoomAt (q : ℚ) (s : Nat) : Prop := (Scaled.nearest (q * 10 ^ s)).natAbs < 2 ^ 96

/-- The largest scale with room. -/
structure IsPlaces (q : ℚ) (s : Nat) : Prop where
  le : s ≤ 28
  room : RoomAt q s
  largest : ∀ t, s < t → t ≤ 28 → ¬RoomAt q t

/-- What a number rounds to. -/
def RoundsTo (q v : ℚ) : Prop := ∃ s, IsPlaces q s ∧ v = Scaled.nearest (q * 10 ^ s) / 10 ^ s

/-- A number rounded to the largest scale with room, which is that of the result unless this is
exact; nothing when there is no room at any. -/
def Rounded (q : ℚ) : Option Dec → Prop
  | some d => ∃ s, IsPlaces q s ∧ d.value = Scaled.nearest (q * 10 ^ s) / 10 ^ s ∧
      (d.value = q ∨ d.scale = s)
  | none => ∀ s ≤ 28, ¬RoomAt q s

/-- What the crate documents of products and quotients. -/
structure Decimals.Nearest (R : Decimals) : Prop where
  times : ∀ x y : Dec, Rounded (x.value * y.value) (R.checked .times x y)
  div : ∀ x y : Dec, y.value ≠ 0 → Rounded (x.value / y.value) (R.checkedDiv x y)

/-! ## 28 digits -/

/-- The places after the point of the 28th digit. -/
def quotientPlaces (q : ℚ) : Nat := (27 - Int.log 10 |q|).toNat

/-- Does the number have an expansion of at most 28 digits? -/
def FitsDigits (q : ℚ) : Prop := ∃ m e : Int, m.natAbs < 10 ^ 28 ∧ q = m * 10 ^ e

/-- The number is exact where 28 digits are enough, and else within half a unit of the 28th digit or
of the last digit of the integer part. -/
structure KeepsDigits (q v : ℚ) : Prop where
  exact : FitsDigits q → v = q
  near : |v - q| ≤ 1 / 2 / 10 ^ quotientPlaces q

variable {s : Nat}

theorem FitsDigits.exists_int {q : ℚ} (h : FitsDigits q) (hs : quotientPlaces q ≤ s) :
    ∃ n : Int, q * 10 ^ s = n := by
  obtain ⟨m, e, hm, rfl⟩ := h
  rcases eq_or_ne m 0 with rfl | hne
  · exact ⟨0, by rw [Int.cast_zero, zero_mul, zero_mul]⟩
  have hlog : Int.log 10 |(m : ℚ) * 10 ^ e| < 28 + e := by
    have hpos : 0 < |(m : ℚ) * 10 ^ e| := by positivity
    rw [← Int.lt_zpow_iff_log_lt (by decide) hpos, abs_mul, abs_of_pos (a := (10 : ℚ) ^ e) (by positivity)]
    have habs : |(m : ℚ)| < 10 ^ (28 : Int) := by
      rw [← Int.cast_abs, Int.abs_eq_natAbs]
      exact_mod_cast hm
    push_cast
    rw [zpow_add₀ (by norm_num)]
    gcongr
  have hexp : 0 ≤ e + s := by
    rw [quotientPlaces] at hs
    omega
  obtain ⟨k, hk⟩ := Int.eq_ofNat_of_zero_le hexp
  refine ⟨m * 10 ^ k, ?_⟩
  rw [mul_assoc, ← zpow_natCast (10 : ℚ) s, ← zpow_add₀ (by norm_num), hk]
  push_cast
  rfl

theorem keepsDigits_nearest {q : ℚ} (hs : quotientPlaces q ≤ s) :
    KeepsDigits q (Scaled.nearest (q * 10 ^ s) / 10 ^ s) where
  exact h := by
    obtain ⟨n, hn⟩ := h.exists_int hs
    rw [hn, Scaled.nearest_intCast, ← hn, mul_div_cancel_right₀ _ (by positivity)]
  near := by
    have hpow : (10 : ℚ) ^ quotientPlaces q ≤ 10 ^ s := pow_le_pow_right₀ (by norm_num) hs
    have heq : (Scaled.nearest (q * 10 ^ s) : ℚ) / 10 ^ s - q =
        (Scaled.nearest (q * 10 ^ s) - q * 10 ^ s) / 10 ^ s := by
      rw [sub_div, mul_div_cancel_right₀ _ (by positivity)]
    rw [heq, abs_div, abs_of_pos (a := (10 : ℚ) ^ s) (by positivity)]
    exact div_le_div₀ (by norm_num) (Scaled.abs_nearest_sub_le _) (by positivity) hpow

theorem not_keepsDigits_zero {q : ℚ} (hq : q ≠ 0) : ¬KeepsDigits q 0 := by
  intro h
  have hle : |q| ≤ 1 / 2 / 10 ^ quotientPlaces q := by
    have := h.near
    rwa [zero_sub, abs_neg] at this
  have hlog : (10 : ℚ) ^ Int.log 10 |q| ≤ |q| := by
    exact_mod_cast Int.zpow_log_le_self (b := 10) (by decide) (abs_pos.mpr hq)
  have hplaces : (1 : ℚ) / 10 ^ quotientPlaces q ≤ 10 ^ Int.log 10 |q| := by
    rw [one_div, ← zpow_natCast, ← zpow_neg]
    apply zpow_le_zpow_right₀ (by norm_num)
    rw [quotientPlaces]
    omega
  have hpos : (0 : ℚ) < 1 / 10 ^ quotientPlaces q := by positivity
  have hhalf : (1 : ℚ) / 2 / 10 ^ quotientPlaces q = 1 / 2 * (1 / 10 ^ quotientPlaces q) := by ring
  linarith

/-! ## The exact path -/

theorem isDecimal_decimalFromPositive (num den : Int) (minScale ideal : Nat) :
    (decimalFromPositive num den minScale ideal).isDecimal = true := by
  rw [decimalFromPositive]
  split
  · exact Number.isDecimal_decimalFromParts _ _
  · exact Number.isDecimal_decimalFromParts _ _

theorem isDecimal_decimalFromRatio (num den : Int) (minScale ideal : Nat) :
    (decimalFromRatio num den minScale ideal).isDecimal = true := by
  rw [decimalFromRatio]
  split
  · exact isDecimal_decimalFromPositive _ _ _ _
  · exact isDecimal_decimalFromPositive _ _ _ _

section Ratio

variable {num den : Int} {minScale : Nat} (ideal : Nat)

theorem decimalFromPositive_rat (hnum : num ≠ 0) (hden : 0 < den) :
    (decimalFromPositive num den minScale ideal).rat =
      Scaled.nearest (num / den * 10 ^ ratioScale num den minScale) /
        10 ^ ratioScale num den minScale := by
  have hs : ratioScale num den minScale < 2 ^ 32 := Nat.mod_lt _ (Nat.two_pow_pos 32)
  rw [decimalFromPositive, if_neg hnum]
  dsimp only
  generalize ratioScale num den minScale = s at *
  have hq : divRoundHalfEven (num * 10 ^ s) den = Scaled.nearest (num / den * 10 ^ s) := by
    rw [divRoundHalfEven, Scaled.halfEven_eq_nearest _ hden, Int.cast_mul, Int.cast_pow,
      Int.cast_ofNat, mul_div_right_comm]
  rw [← hq]
  split_ifs with hexact
  · have hle := dropZeros_le ideal (divRoundHalfEven (num * 10 ^ s) den) s
    rw [decimalFromParts_rat (hle.trans_lt hs), dropZeros_ratio]
    rfl
  · rw [decimalFromParts_rat hs]
    rfl

theorem nearest_ratioScale (hnum : num ≠ 0) (hden : 0 < den)
    (hplaces : 2 ^ 32 ≤ quotientPlaces (num / den : ℚ)) (hmin : minScale < 2 ^ 32) :
    Scaled.nearest ((num / den : ℚ) * 10 ^ ratioScale num den minScale) = 0 := by
  have habs : |(num / den : ℚ)| = |(num : ℚ)| / den := by
    rw [abs_div, abs_of_pos (a := (den : ℚ)) (Int.cast_pos.mpr hden)]
  obtain ⟨h₁, h₂⟩ := magnitudeDigits_bounds hnum hden
  have heq := magnitudeDigits_eq hnum hden
  -- the scale has wrapped, so that it is at least `2 ^ 32` short
  have hscale : Int.log 10 |(num / den : ℚ)| + 1 + ratioScale num den minScale ≤ -1 := by
    rw [quotientPlaces, habs] at hplaces
    rw [ratioScale, habs]
    generalize Int.log 10 (|(num : ℚ)| / den) = log at *
    rcases lt_or_ge |log| (2 ^ 32 - 1) with hlog | hlog
    · rw [heq hlog]
      rw [abs_lt] at hlog
      omega
    · rw [le_abs] at hlog
      omega
  apply Scaled.nearest_eq_zero
  have hlt : |(num / den : ℚ)| < 10 ^ (Int.log 10 |(num / den : ℚ)| + 1) := by
    exact_mod_cast Int.lt_zpow_succ_log_self (b := 10) (by decide) |(num / den : ℚ)|
  calc |(num / den : ℚ) * 10 ^ ratioScale num den minScale|
      = |(num / den : ℚ)| * 10 ^ ratioScale num den minScale := by
        rw [abs_mul, abs_of_pos (a := (10 : ℚ) ^ _) (by positivity)]
    _ < 10 ^ (Int.log 10 |(num / den : ℚ)| + 1) * 10 ^ ratioScale num den minScale := by
        gcongr
    _ = 10 ^ (Int.log 10 |(num / den : ℚ)| + 1 + ratioScale num den minScale) := by
        rw [zpow_add₀ (by norm_num) (_ + 1), zpow_natCast]
    _ ≤ 10 ^ (-1 : Int) := zpow_le_zpow_right₀ (by norm_num) hscale
    _ < 1 / 2 := by norm_num

theorem quotientPlaces_le_ratioScale (hnum : num ≠ 0) (hden : 0 < den)
    (hplaces : quotientPlaces (num / den : ℚ) < 2 ^ 32) (hmin : minScale < 2 ^ 32) :
    quotientPlaces (num / den : ℚ) ≤ ratioScale num den minScale := by
  have habs : |(num / den : ℚ)| = |(num : ℚ)| / den := by
    rw [abs_div, abs_of_pos (a := (den : ℚ)) (Int.cast_pos.mpr hden)]
  obtain ⟨h₁, h₂⟩ := magnitudeDigits_bounds hnum hden
  have heq := magnitudeDigits_eq hnum hden
  rw [quotientPlaces, habs] at hplaces ⊢
  rw [ratioScale]
  generalize Int.log 10 (|(num : ℚ)| / den) = log at *
  rcases lt_or_ge |log| (2 ^ 32 - 1) with hlog | hlog
  · rw [heq hlog]
    rw [abs_lt] at hlog
    omega
  · rw [le_abs] at hlog
    omega

theorem keepsDigits_positive_iff (hden : 0 < den) (hmin : minScale < 2 ^ 32)
    (hideal : ideal < 2 ^ 32) :
    KeepsDigits (num / den) (decimalFromPositive num den minScale ideal).rat ↔
      quotientPlaces (num / den) < 2 ^ 32 := by
  rcases eq_or_ne num 0 with rfl | hnum
  · have hzero : (decimalFromPositive 0 den minScale ideal).rat = ((0 : Int) / den : ℚ) := by
      rw [decimalFromPositive, if_pos rfl, decimalFromParts_rat (by omega), ratio_dec96,
        Int.cast_zero, zero_div, zero_div]
    rw [hzero, Int.cast_zero, zero_div]
    refine iff_of_true ⟨fun _ => rfl, ?_⟩ ?_
    · rw [sub_zero, abs_zero]
      positivity
    · rw [quotientPlaces, abs_zero, Int.log_zero_right]
      decide
  · rw [decimalFromPositive_rat ideal hnum hden]
    rcases lt_or_ge (quotientPlaces (num / den : ℚ)) (2 ^ 32) with hplaces | hplaces
    · have hle := quotientPlaces_le_ratioScale hnum hden hplaces hmin
      exact iff_of_true (keepsDigits_nearest hle) hplaces
    · rw [nearest_ratioScale hnum hden hplaces hmin, Int.cast_zero, zero_div]
      exact iff_of_false (not_keepsDigits_zero (by positivity)) (not_lt.mpr hplaces)

theorem keepsDigits_ratio_iff (hden : den ≠ 0) (hmin : minScale < 2 ^ 32) (hideal : ideal < 2 ^ 32) :
    KeepsDigits (num / den) (decimalFromRatio num den minScale ideal).rat ↔
      quotientPlaces (num / den) < 2 ^ 32 := by
  rw [decimalFromRatio]
  split_ifs with hneg
  · rw [← neg_div_neg_eq (num : ℚ), ← Int.cast_neg, ← Int.cast_neg]
    exact keepsDigits_positive_iff ideal (Int.neg_pos.mpr hneg) hmin hideal
  · exact keepsDigits_positive_iff ideal (by omega) hmin hideal

end Ratio

/-! ## The quotient of `rust_decimal` -/

theorem IsPlaces.unique {q : ℚ} {t : Nat} (hs : IsPlaces q s) (ht : IsPlaces q t) : s = t := by
  by_contra hne
  rcases Nat.lt_or_gt_of_ne hne with h | h
  · exact hs.largest t h ht.le ht.room
  · exact ht.largest s h hs.le hs.room

theorem IsPlaces.eq_28 {q : ℚ} (hs : IsPlaces q s) (h : RoomAt q 28) : s = 28 := by
  by_contra hne
  exact hs.largest 28 (hs.le.lt_of_ne hne) le_rfl h

theorem roundsTo_iff {q v : ℚ} {o : Option Dec} (h : Rounded q o) :
    RoundsTo q v ↔ ∃ d, o = some d ∧ d.value = v := by
  cases o with
  | none =>
    refine iff_of_false ?_ fun ⟨d, hd, _⟩ => nomatch hd
    exact fun ⟨s, hs, _⟩ => h s hs.le hs.room
  | some d =>
    obtain ⟨s, hs, hd, -⟩ := h
    constructor
    · rintro ⟨t, ht, rfl⟩
      exact ⟨d, rfl, by rw [hd, hs.unique ht]⟩
    · rintro ⟨e, he, rfl⟩
      obtain rfl := Option.some.inj he
      exact ⟨s, hs, hd⟩

/-- A quotient that has fewer than 28 digits at 28 places and is no such decimal, but gives the
dividend when its rounding is multiplied back. -/
structure RoundsBack (x y : ℚ) : Prop where
  inexact : (Scaled.nearest (x / y * 10 ^ 28) : ℚ) ≠ x / y * 10 ^ 28
  short : (Scaled.nearest (x / y * 10 ^ 28)).natAbs < 10 ^ 27
  back : RoundsTo (Scaled.nearest (x / y * 10 ^ 28) / 10 ^ 28 * y) x

/-- A number just below a tenth, that at 28 places is a tenth. -/
def JustBelowTenth (q : ℚ) : Prop :=
  10 ^ 27 - 1 / 2 ≤ |q| * 10 ^ 28 ∧ |q| * 10 ^ 28 < 10 ^ 27 - 1 / 20

theorem natAbs_nearest_le {q : ℚ} {n : Nat} (h : |q| ≤ n) : (Scaled.nearest q).natAbs ≤ n := by
  have hle : Scaled.nearest |q| ≤ n := Scaled.nearest_le (by exact_mod_cast h)
  rw [← Scaled.natAbs_nearest] at hle
  exact_mod_cast hle

theorem abs_mul_pow (q : ℚ) (s : Nat) : |q * 10 ^ s| = |q| * 10 ^ s := by
  rw [abs_mul, abs_of_pos (a := (10 : ℚ) ^ s) (by positivity)]

theorem IsPlaces.eq_28_of_lt {q : ℚ} (hs : IsPlaces q s) (hlt : |q| * 10 ^ s < 10 ^ 27) :
    s = 28 := by
  have hs₂₈ := hs.le
  by_contra hne
  refine hs.largest (s + 1) (Nat.lt_succ_self s) (by omega) ?_
  have hle : |q * 10 ^ (s + 1)| ≤ (10 ^ 28 : Nat) := by
    rw [abs_mul_pow, pow_succ]
    push_cast
    linarith
  exact (natAbs_nearest_le hle).trans_lt (by norm_num)

theorem IsPlaces.eq_28_of_short {q : ℚ} (hs : IsPlaces q s)
    (hshort : (Scaled.nearest (q * 10 ^ s)).natAbs < 10 ^ 27) : s = 28 := by
  apply hs.eq_28_of_lt
  have hnear := Scaled.abs_nearest_sub_le (|q * 10 ^ s|)
  have hle : ((Scaled.nearest |q * 10 ^ s| : Int) : ℚ) ≤ 10 ^ 27 - 1 := by
    rw [← Scaled.natAbs_nearest]
    exact_mod_cast Int.le_sub_one_of_lt (Int.ofNat_lt.mpr hshort)
  rw [abs_mul_pow] at hnear hle
  have := (abs_le.mp hnear).1
  linarith

theorem places_below_tenth {q : ℚ} (hmin : 10 ^ 27 - 1 / 2 ≤ |q| * 10 ^ 28)
    (hmax : |q| * 10 ^ 28 < 10 ^ 27) : quotientPlaces q = 29 := by
  have hpos : 0 < |q| := by linarith
  have hlog : Int.log 10 |q| = -2 := by
    apply le_antisymm
    · rw [← Int.lt_add_one_iff, ← Int.lt_zpow_iff_log_lt (by decide) hpos]
      norm_num
      linarith
    · rw [← Int.zpow_le_iff_le_log (by decide) hpos]
      norm_num
      linarith
  rw [quotientPlaces, hlog]
  rfl

section JustBelow

variable {q : ℚ} (h : JustBelowTenth q)

include h

theorem JustBelowTenth.natAbs_nearest : (Scaled.nearest (q * 10 ^ 28)).natAbs = 10 ^ 27 := by
  apply le_antisymm
  · apply natAbs_nearest_le
    rw [abs_mul_pow]
    have := h.2
    push_cast
    linarith
  · have hle : (10 ^ 27 : Int) ≤ Scaled.nearest |q * 10 ^ 28| := by
      apply Scaled.le_nearest_of_even (by decide)
      rw [abs_mul_pow]
      push_cast
      exact h.1
    rw [← Scaled.natAbs_nearest] at hle
    exact_mod_cast hle

theorem JustBelowTenth.roomAt : RoomAt q 28 := by
  rw [RoomAt, h.natAbs_nearest]
  norm_num

theorem JustBelowTenth.places : quotientPlaces q = 29 :=
  places_below_tenth h.1 (h.2.trans (by norm_num))

theorem JustBelowTenth.not_keepsDigits :
    ¬KeepsDigits q (Scaled.nearest (q * 10 ^ 28) / 10 ^ 28) := by
  intro hkeeps
  have hnear := hkeeps.near
  rw [h.places] at hnear
  have habs : |(Scaled.nearest (q * 10 ^ 28) : ℚ) / 10 ^ 28| = 10 ^ 27 / 10 ^ 28 := by
    rw [abs_div, ← Int.cast_abs, Int.abs_eq_natAbs, h.natAbs_nearest, abs_of_pos (by norm_num)]
    norm_num
  have htri := abs_sub_abs_le_abs_sub ((Scaled.nearest (q * 10 ^ 28) : ℚ) / 10 ^ 28) q
  rw [habs] at htri
  have := h.2
  norm_num at *
  linarith

end JustBelow

theorem keepsDigits_tenth {q : ℚ} {n : Int} (hplaces : quotientPlaces q = 29)
    (hnear : |(n : ℚ) - q * 10 ^ 28| ≤ 1 / 20) : KeepsDigits q (n / 10 ^ 28) where
  exact h := by
    obtain ⟨k, hk⟩ := h.exists_int hplaces.le
    have hlt : |((10 * n - k : Int) : ℚ)| < 1 := by
      have heq : ((10 * n - k : Int) : ℚ) = 10 * (n - q * 10 ^ 28) := by
        push_cast
        rw [← hk]
        ring
      rw [heq, abs_mul, abs_of_pos (by norm_num)]
      exact (mul_le_mul_of_nonneg_left hnear (by norm_num)).trans_lt (by norm_num)
    have hzero : 10 * n - k = 0 := Int.abs_lt_one_iff.mp (by exact_mod_cast hlt)
    have hcast : (10 * n : ℚ) = q * 10 ^ 29 := by
      rw [hk]
      exact_mod_cast sub_eq_zero.mp hzero
    rw [div_eq_iff (by norm_num)]
    linarith
  near := by
    have heq : (n : ℚ) / 10 ^ 28 - q = (n - q * 10 ^ 28) / 10 ^ 28 := by ring
    rw [hplaces, heq, abs_div, abs_of_pos (a := (10 : ℚ) ^ 28) (by norm_num),
      div_le_iff₀ (by norm_num)]
    norm_num at hnear ⊢
    linarith

theorem keepsDigits_iff {q : ℚ} (hs : IsPlaces q s)
    (hdigits : 10 ^ 27 ≤ (Scaled.nearest (q * 10 ^ s)).natAbs) :
    KeepsDigits q (Scaled.nearest (q * 10 ^ s) / 10 ^ s) ↔ ¬JustBelowTenth q := by
  by_cases hplaces : quotientPlaces q ≤ s
  · refine iff_of_true (keepsDigits_nearest hplaces) fun h => ?_
    have h₂₈ := hs.eq_28 h.roomAt
    rw [h.places, h₂₈] at hplaces
    exact absurd hplaces (by decide)
  · -- there are 27 digits before the rounding, so that all places have been used
    have hlt : |q| * 10 ^ s < 10 ^ 27 := by
      have hpos : 0 < |q| := by
        rw [abs_pos]
        rintro rfl
        rw [zero_mul, Scaled.nearest_eq_zero (by norm_num)] at hdigits
        exact absurd hdigits (by decide)
      have hlog : Int.log 10 |q| < 27 - s := by
        rw [quotientPlaces] at hplaces
        omega
      rw [← Int.lt_zpow_iff_log_lt (by decide) hpos] at hlog
      push_cast at hlog
      rw [zpow_sub₀ (by norm_num), zpow_natCast, lt_div_iff₀ (by positivity)] at hlog
      exact_mod_cast hlog
    obtain rfl := hs.eq_28_of_lt hlt
    have heq : (Scaled.nearest (q * 10 ^ 28)).natAbs = 10 ^ 27 := by
      refine le_antisymm (natAbs_nearest_le ?_) hdigits
      rw [abs_mul_pow]
      push_cast
      exact hlt.le
    have hnear : |(Scaled.nearest (q * 10 ^ 28) : ℚ) - q * 10 ^ 28| = 10 ^ 27 - |q| * 10 ^ 28 := by
      rw [Scaled.abs_nearest_sub, ← Scaled.natAbs_nearest, heq, abs_mul_pow]
      rw [Nat.cast_pow, Int.cast_pow, Int.cast_natCast, Nat.cast_ofNat,
        abs_of_pos (sub_pos.mpr hlt)]
    have hmin : 10 ^ 27 - 1 / 2 ≤ |q| * 10 ^ 28 := by
      have := Scaled.abs_nearest_sub_le (q * 10 ^ 28)
      rw [hnear] at this
      linarith
    constructor
    · exact fun hkeeps h => h.not_keepsDigits hkeeps
    · intro h
      have hmax : 10 ^ 27 - 1 / 20 ≤ |q| * 10 ^ 28 := not_lt.mp fun hmax => h ⟨hmin, hmax⟩
      exact keepsDigits_tenth (places_below_tenth hmin hlt) (by rw [hnear]; linarith)

/-! ## The quotients of the code -/

theorem le_sigDigits_iff (m : Int) : 28 ≤ sigDigits m ↔ 10 ^ 27 ≤ m.natAbs := by
  rw [sigDigits, Nat.succ_le_succ_iff]
  rcases Nat.eq_zero_or_pos m.natAbs with h | h
  · rw [h]
    decide
  · exact Nat.le_log_iff_pow_le (by decide) h.ne'

namespace Number

variable {R : Decimals} {F : Floats} {a b : Number}

/-- What division of decimals is to give: a decimal that keeps 28 digits; and it is that of
`rust_decimal` only where this is exact or has 28 digits. -/
structure Divides (R : Decimals) (F : Floats) (a b : Number) : Prop where
  decimal : (div R F a b).isDecimal = true
  digits : KeepsDigits (a.rat / b.rat) (div R F a b).rat
  quick : ∀ q, quickQuotient R a b = some q → q.value = a.rat / b.rat ∨ 28 ≤ sigDigits q.mantissa

/-- The exact path of two numbers. -/
def exactQuotient (a b : Number) : Number :=
  decimalFromRatio (a.ratio.1 * 10 ^ b.ratio.2) (b.ratio.1 * 10 ^ a.ratio.2)
    (max a.ratio.2 b.ratio.2) (a.ratio.2 - b.ratio.2)

theorem div_eq (hdec : anyDecimal a b) (ha : a.isFloat = false) (hb : b.isFloat = false)
    (hne : b.rat ≠ 0) :
    div R F a b = ((quickQuotient R a b).map decimal).getD (exactQuotient a b) := by
  have hflt : anyFloat a b = false := by rw [anyFloat, ha, hb, Bool.or_false]
  have hmb : b.ratio.1 ≠ 0 := by
    intro h
    rw [← (exactRatio_ratio hb).2, ratio_dec96, h, Int.cast_zero, zero_div] at hne
    exact hne rfl
  rw [div, hdec, hflt, Bool.not_false, Bool.and_self, if_pos rfl, decimalDiv]
  cases quickQuotient R a b with
  | some q => rfl
  | none =>
    dsimp only [Option.map_none, Option.getD_none]
    rw [(exactRatio_ratio ha).1, (exactRatio_ratio hb).1]
    dsimp only [Option.bind_eq_bind, Option.bind_some]
    rw [if_neg hmb]
    rfl

theorem ratio_lt (a : Number) : a.ratio.2 < 2 ^ 32 := by
  rw [ratio]
  cases h : a.exactRatio with
  | none => exact Nat.two_pow_pos 32
  | some p => exact exactRatio_lt h

theorem keepsDigits_exactQuotient (ha : a.isFloat = false) (hb : b.isFloat = false)
    (hne : b.rat ≠ 0) : KeepsDigits (a.rat / b.rat) (exactQuotient a b).rat ↔
      quotientPlaces (a.rat / b.rat) < 2 ^ 32 := by
  have hrat : a.rat / b.rat = ((a.ratio.1 * 10 ^ b.ratio.2 : Int) : ℚ) /
      ((b.ratio.1 * 10 ^ a.ratio.2 : Int) : ℚ) := by
    rw [← (exactRatio_ratio ha).2, ← (exactRatio_ratio hb).2, ratio_dec96, ratio_dec96]
    push_cast
    rw [div_div_div_eq, mul_comm ((10 : ℚ) ^ a.ratio.2)]
  have hmb : b.ratio.1 * 10 ^ a.ratio.2 ≠ 0 := by
    intro h
    rw [← (exactRatio_ratio hb).2, ratio_dec96] at hne
    rcases mul_eq_zero.mp h with h | h
    · rw [h, Int.cast_zero, zero_div] at hne
      exact hne rfl
    · exact absurd h (pow_ne_zero _ (by decide))
  have hmax : max a.ratio.2 b.ratio.2 < 2 ^ 32 := max_lt a.ratio_lt b.ratio_lt
  rw [hrat]
  exact keepsDigits_ratio_iff _ hmb hmax ((Nat.sub_le _ _).trans_lt a.ratio_lt)

theorem quotientPlaces_lt (x y : Dec) : quotientPlaces (x.value / y.value) < 2 ^ 32 := by
  rcases eq_or_ne (x.value / y.value) 0 with hzero | hne
  · rw [hzero, quotientPlaces, abs_zero, Int.log_zero_right]
    decide
  have hx : 1 / 10 ^ 28 ≤ |x.value| := by
    have hm : x.mantissa ≠ 0 := by
      intro h
      rw [Scaled.Num.value, ratio_dec96, h, Int.cast_zero, zero_div, zero_div] at hne
      exact hne rfl
    have hone : (1 : ℚ) ≤ |(x.mantissa : ℚ)| := by exact_mod_cast Int.one_le_abs hm
    have hpow : (10 : ℚ) ^ x.scale ≤ 10 ^ 28 := pow_le_pow_right₀ (by norm_num) x.scale_le
    rw [Scaled.Num.value, ratio_dec96, abs_div, abs_of_pos (a := (10 : ℚ) ^ _) (by positivity)]
    exact div_le_div₀ (abs_nonneg _) hone (by positivity) hpow
  have hy : |y.value| < 10 ^ 29 := (Representable.abs_lt y.representable).trans (by norm_num)
  have hypos : 0 < |y.value| := by
    rw [abs_pos]
    intro h
    rw [h, div_zero] at hne
    exact hne rfl
  have hlog : -57 ≤ Int.log 10 |x.value / y.value| := by
    rw [← Int.zpow_le_iff_le_log (by decide) (abs_pos.mpr hne), abs_div, le_div_iff₀ hypos]
    calc ((10 : Nat) : ℚ) ^ (-57 : Int) * |y.value| ≤ 10 ^ (-57 : Int) * 10 ^ 29 := by
          push_cast
          gcongr
      _ = 1 / 10 ^ 28 := by norm_num
      _ ≤ |x.value| := hx
  rw [quotientPlaces]
  omega

theorem exists_toDecimal_of_isSmall (R : Decimals) (ha : a.isSmall) :
    ∃ x, a.toDecimal R = some x ∧ x.value = a.rat ∧ a.isFloat = false := by
  cases a with
  | int n => exact ⟨_, rfl, div_one _, rfl⟩
  | decimal d => exact ⟨d, rfl, rfl, rfl⟩
  | _ => cases ha

theorem divides_of_none (hdec : anyDecimal a b) (ha : a.isFloat = false)
    (hb : b.isFloat = false) (hne : b.rat ≠ 0) (hplaces : quotientPlaces (a.rat / b.rat) < 2 ^ 32)
    (h : quickQuotient R a b = none) : Divides R F a b where
  decimal := by
    rw [div_eq hdec ha hb hne, h]
    exact isDecimal_decimalFromRatio _ _ _ _
  digits := by
    rw [div_eq hdec ha hb hne, h]
    exact (keepsDigits_exactQuotient ha hb hne).mpr hplaces
  quick q hq := by
    rw [h] at hq
    cases hq

theorem divides_iff_of_some (hdec : anyDecimal a b) (ha : a.isFloat = false)
    (hb : b.isFloat = false) (hne : b.rat ≠ 0) {q : Dec} (h : quickQuotient R a b = some q) :
    Divides R F a b ↔
      KeepsDigits (a.rat / b.rat) q.value ∧ (q.value = a.rat / b.rat ∨ 28 ≤ sigDigits q.mantissa) := by
  have hdiv : div R F a b = decimal q := by
    rw [div_eq hdec ha hb hne, h]
    rfl
  constructor
  · intro hdivides
    have hdigits := hdivides.digits
    rw [hdiv] at hdigits
    exact ⟨hdigits, hdivides.quick q h⟩
  · rintro ⟨hkeeps, hquick⟩
    refine ⟨by rw [hdiv]; rfl, by rw [hdiv]; exact hkeeps, fun q' hq' => ?_⟩
    rw [h] at hq'
    rw [← Option.some.inj hq']
    exact hquick

theorem keepsDigits_self (q : ℚ) : KeepsDigits q q where
  exact _ := rfl
  near := by
    rw [sub_self, abs_zero]
    positivity

variable {n : Int}

theorem not_roundsBack_of_int {x y : ℚ} (h : x / y * 10 ^ 28 = n) : ¬RoundsBack x y := by
  intro hback
  have hne := hback.inexact
  rw [h, Scaled.nearest_intCast] at hne
  exact hne rfl

theorem not_justBelow_of_int {q : ℚ} (h : q * 10 ^ 28 = n) : ¬JustBelowTenth q := by
  rintro ⟨hmin, hmax⟩
  rw [← abs_mul_pow, h, ← Int.cast_abs] at hmin hmax
  have hlt : |n| < 10 ^ 27 := by
    have : ((|n| : Int) : ℚ) < 10 ^ 27 := hmax.trans (by norm_num)
    exact_mod_cast this
  have hle : ((|n| : Int) : ℚ) ≤ 10 ^ 27 - 1 := by exact_mod_cast Int.le_sub_one_of_lt hlt
  linarith

theorem divides_iff_of_small (hR : R.Nearest) (hC : R.ComparesValues) (ha : a.isSmall)
    (hb : b.isSmall) (hdec : anyDecimal a b) (hne : b.rat ≠ 0) :
    Divides R F a b ↔ ¬RoundsBack a.rat b.rat ∧ ¬JustBelowTenth (a.rat / b.rat) := by
  obtain ⟨x, hx, hxval, hfa⟩ := exists_toDecimal_of_isSmall R ha
  obtain ⟨y, hy, hyval, hfb⟩ := exists_toDecimal_of_isSmall R hb
  have hround := hR.div x y (by rwa [hyval])
  have hplaces := quotientPlaces_lt x y
  have hquick : quickQuotient R a b = (R.checkedDiv x y).bind fun q =>
      if 28 ≤ sigDigits q.mantissa ∨ (R.checked .times q y).any (fun p => R.cmp p x == .eq) then
        some q
      else none := by
    rw [quickQuotient, ha, hb, hx, hy]
    rfl
  rw [hxval, hyval] at hround hplaces
  cases hq : R.checkedDiv x y with
  | none =>
    -- no room at any scale, so that there are more than 28 digits
    rw [hq] at hround hquick
    have hroom : ¬RoomAt (a.rat / b.rat) 28 := hround 28 le_rfl
    refine iff_of_true (divides_of_none hdec hfa hfb hne hplaces hquick) ⟨fun h => ?_, fun h => ?_⟩
    · exact hroom (h.short.trans (by norm_num))
    · exact hroom h.roomAt
  | some q =>
    rw [hq] at hround hquick
    rw [Option.bind_some] at hquick
    obtain ⟨s, hs, hval, hexact⟩ := hround
    have hdivides (hkeeps : KeepsDigits (a.rat / b.rat) q.value)
        (htaken : q.value = a.rat / b.rat ∨ 28 ≤ sigDigits q.mantissa) : Divides R F a b := by
      split_ifs at hquick
      · exact (divides_iff_of_some hdec hfa hfb hne hquick).mpr ⟨hkeeps, htaken⟩
      · exact divides_of_none hdec hfa hfb hne hplaces hquick
    by_cases heq : q.value = a.rat / b.rat
    · have hint : a.rat / b.rat * 10 ^ 28 = (q.mantissa * 10 ^ (28 - q.scale) : Int) := by
        rw [← heq, Scaled.Num.value, Scaled.ratio_at (F := dec96) q.scale_le]
        exact div_mul_cancel₀ _ (show (10 : ℚ) ^ 28 ≠ 0 by norm_num)
      refine iff_of_true (hdivides (heq ▸ keepsDigits_self _) (.inl heq)) ⟨?_, ?_⟩
      · exact not_roundsBack_of_int hint
      · exact not_justBelow_of_int hint
    have hscale : q.scale = s := hexact.resolve_left heq
    have hmantissa : q.mantissa = Scaled.nearest (a.rat / b.rat * 10 ^ s) := by
      rw [Scaled.Num.value, ratio_dec96, hscale, div_left_inj' (by positivity)] at hval
      exact_mod_cast hval
    by_cases hdigits : 28 ≤ sigDigits q.mantissa
    · -- 28 digits
      rw [if_pos (.inl hdigits)] at hquick
      have hlong := (le_sigDigits_iff q.mantissa).mp hdigits
      rw [hmantissa] at hlong
      rw [divides_iff_of_some hdec hfa hfb hne hquick, hval, keepsDigits_iff hs hlong]
      constructor
      · rintro ⟨hbelow, -⟩
        refine ⟨fun h => ?_, hbelow⟩
        obtain rfl := hs.eq_28 (h.short.trans (by norm_num))
        exact absurd h.short (not_lt.mpr hlong)
      · exact fun h => ⟨h.2, .inr hdigits⟩
    · -- fewer digits, that are all there are at 28 places
      have hshort : (Scaled.nearest (a.rat / b.rat * 10 ^ s)).natAbs < 10 ^ 27 := by
        rw [← hmantissa]
        exact not_le.mp (mt (le_sigDigits_iff q.mantissa).mpr hdigits)
      obtain rfl := hs.eq_28_of_short hshort
      have hback : RoundsTo (q.value * y.value) x.value ↔
          (R.checked .times q y).any (fun p => R.cmp p x == .eq) = true := by
        rw [roundsTo_iff (hR.times q y), Option.any_eq_true]
        refine exists_congr fun p => and_congr_right fun _ => ?_
        rw [beq_iff_eq, hC, compare_eq_iff_eq]
      by_cases htimes : (R.checked .times q y).any (fun p => R.cmp p x == .eq) = true
      · rw [if_pos (.inr htimes)] at hquick
        rw [divides_iff_of_some hdec hfa hfb hne hquick]
        refine iff_of_false (fun h => h.2.elim heq hdigits) fun h => h.1 ⟨?_, hshort, ?_⟩
        · intro hint
          rw [hint, mul_div_cancel_right₀ _ (by norm_num)] at hval
          exact heq hval
        · rw [← hval, ← hyval, ← hxval]
          exact hback.mpr htimes
      · rw [if_neg (not_or.mpr ⟨hdigits, htimes⟩)] at hquick
        refine iff_of_true (divides_of_none hdec hfa hfb hne hplaces hquick)
          ⟨fun h => htimes (hback.mp ?_), fun h => ?_⟩
        · rw [hval, hyval, hxval]
          exact h.back
        · exact absurd h.natAbs_nearest hshort.ne

/-- **When division keeps 28 digits**: exactly when the places of the 28th digit fit a `u32` and, of
two numbers that `rust_decimal` has room for, neither the rounded quotient times the divisor rounds
back to the dividend nor the quotient is just below a tenth. -/
theorem div_keeps_digits_iff (hR : R.Nearest) (hC : R.ComparesValues) (ha : a.isFloat = false)
    (hb : b.isFloat = false) (hdec : anyDecimal a b = true) (hne : b.rat ≠ 0) :
    Divides R F a b ↔ quotientPlaces (a.rat / b.rat) < 2 ^ 32 ∧
      (a.isSmall = true → b.isSmall = true →
        ¬RoundsBack a.rat b.rat ∧ ¬JustBelowTenth (a.rat / b.rat)) := by
  by_cases hsmall : a.isSmall = true ∧ b.isSmall = true
  · obtain ⟨x, -, hx, -⟩ := exists_toDecimal_of_isSmall R hsmall.1
    obtain ⟨y, -, hy, -⟩ := exists_toDecimal_of_isSmall R hsmall.2
    have hplaces := quotientPlaces_lt x y
    rw [hx, hy] at hplaces
    rw [divides_iff_of_small hR hC hsmall.1 hsmall.2 hdec hne]
    exact ⟨fun h => ⟨hplaces, fun _ _ => h⟩, fun h => h.2 hsmall.1 hsmall.2⟩
  · have hquick : quickQuotient R a b = none := by
      rw [quickQuotient, if_neg]
      rwa [Bool.and_eq_true]
    constructor
    · intro h
      refine ⟨?_, fun ha hb => absurd ⟨ha, hb⟩ hsmall⟩
      have hdigits := h.digits
      rw [div_eq hdec ha hb hne, hquick] at hdigits
      exact (keepsDigits_exactQuotient ha hb hne).mp hdigits
    · exact fun h => divides_of_none hdec ha hb hne h.1 hquick

end Number

/-! ## The decimal arithmetic of reference -/

namespace Reference

/-- Decimals whose operations all round to the nearest one with the most decimal places. -/
def nearestDecimals : Decimals :=
  { decimals with
    checked := fun op x y => quotient (exactParts op x y).1 (10 ^ (exactParts op x y).2) 28 }

theorem rounded_quotient {num den : Int} (hden : 0 < den) (hs : s ≤ 28)
    (habove : ∀ t, s < t → t ≤ 28 → ¬RoomAt (num / den) t) :
    Rounded (num / den) (quotient num den s) := by
  have hnearest (s : Nat) :
      Scaled.halfEven (num * 10 ^ s) den = Scaled.nearest ((num / den : ℚ) * 10 ^ s) := by
    rw [Scaled.halfEven_eq_nearest _ hden, Int.cast_mul, Int.cast_pow, Int.cast_ofNat,
      mul_div_right_comm]
  have hroom {s : Nat} (hs : s ≤ 28) (habove : ∀ t, s < t → t ≤ 28 → ¬RoomAt (num / den) t)
      {d : Dec} (hd : Scaled.Num.ofParts? dec96 (Scaled.halfEven (num * 10 ^ s) den) s = some d) :
      Rounded (num / den) (some d) := by
    rw [hnearest, Scaled.Num.ofParts?, Option.dite_none_right_eq_some] at hd
    obtain ⟨hfits, hd⟩ := hd
    obtain rfl := Option.some.inj hd
    exact ⟨s, ⟨hs, hfits.1, habove⟩, rfl, .inr rfl⟩
  have hnone {s : Nat} (hs : s ≤ 28)
      (hd : Scaled.Num.ofParts? dec96 (Scaled.halfEven (num * 10 ^ s) den) s = none) :
      ¬RoomAt (num / den) s := by
    intro hfits
    rw [hnearest, Scaled.Num.ofParts?, dif_pos ⟨hfits, hs⟩] at hd
    cases hd
  induction s with
  | zero =>
    rw [quotient]
    have hzero : Scaled.halfEven num den = Scaled.halfEven (num * 10 ^ 0) den := by
      rw [pow_zero, mul_one]
    rw [hzero]
    cases hd : Scaled.Num.ofParts? dec96 (Scaled.halfEven (num * 10 ^ 0) den) 0 with
    | some d => exact hroom hs habove hd
    | none =>
      intro t ht
      rcases Nat.eq_zero_or_pos t with rfl | hpos
      · exact hnone hs hd
      · exact habove t hpos ht
  | succ s ih =>
    rw [quotient]
    cases hd : Scaled.Num.ofParts? dec96 (Scaled.halfEven (num * 10 ^ (s + 1)) den) (s + 1) with
    | some d =>
      rw [Option.some_or]
      exact hroom hs habove hd
    | none =>
      rw [Option.none_or]
      refine ih (Nat.le_of_succ_le hs) fun t ht hle => ?_
      rcases Nat.eq_or_lt_of_le (Nat.succ_le_of_lt ht) with rfl | hlt
      · exact hnone hs hd
      · exact habove t hlt hle

theorem nearestDecimals_nearest : nearestDecimals.Nearest where
  times x y := by
    have hrat : x.value * y.value = ((exactParts .times x y).1 : ℚ) /
        ((10 ^ (exactParts .times x y).2 : Int) : ℚ) := by
      rw [Int.cast_pow, Int.cast_ofNat, ← ratio_dec96, ratio_exactParts]
      rfl
    rw [hrat]
    exact rounded_quotient (Int.pow_pos (by decide)) le_rfl fun t ht hle =>
      absurd ht (not_lt.mpr hle)
  div x y hy := by
    have hrat : x.value / y.value = ((x.mantissa * 10 ^ y.scale : Int) : ℚ) /
        ((y.mantissa * 10 ^ x.scale : Int) : ℚ) := by
      rw [Scaled.Num.value, Scaled.Num.value, ratio_dec96, ratio_dec96, div_div_div_eq,
        mul_comm ((10 : ℚ) ^ x.scale)]
      push_cast
      rfl
    have hne : y.mantissa ≠ 0 := by
      intro h
      rw [Scaled.Num.value, ratio_dec96, h, Int.cast_zero, zero_div] at hy
      exact hy rfl
    have hpos : (0 : Int) < 10 ^ x.scale := Int.pow_pos (by decide)
    change Rounded _ (if y.mantissa = 0 then none else _)
    rw [if_neg hne, hrat]
    split_ifs with hneg
    · rw [← neg_div_neg_eq, ← Int.cast_neg, ← Int.cast_neg]
      exact rounded_quotient (Int.neg_pos.mpr hneg) le_rfl fun t ht hle =>
        absurd ht (not_lt.mpr hle)
    · have hden : y.mantissa * 10 ^ x.scale ≠ 0 := mul_ne_zero hne hpos.ne'
      exact rounded_quotient (by omega) le_rfl fun t ht hle => absurd ht (not_lt.mpr hle)

end Reference

/-- `1d / 4d`. -/
theorem Number.div_keeps_digits_quarter :
    Number.Divides Reference.nearestDecimals Reference.floats
      (.decimal ⟨1, 0, by decide, by decide⟩) (.decimal ⟨4, 0, by decide, by decide⟩) := by
  have hrat : Number.rat (.decimal ⟨1, 0, by decide, by decide⟩) /
      Number.rat (.decimal ⟨4, 0, by decide, by decide⟩) = 1 / 4 := by
    simp only [Number.rat, Scaled.Num.value, ratio_dec96]
    norm_num
  have hint : (1 / 4 : ℚ) * 10 ^ 28 = (25 * 10 ^ 26 : Int) := by norm_num
  have hne : Number.rat (.decimal ⟨4, 0, by decide, by decide⟩) ≠ 0 := by
    simp only [Number.rat, Scaled.Num.value, ratio_dec96]
    norm_num
  apply (Number.div_keeps_digits_iff Reference.nearestDecimals_nearest
    Reference.decimals_comparesValues rfl rfl rfl hne).mpr
  refine ⟨Number.quotientPlaces_lt _ _, fun _ _ => ⟨?_, ?_⟩⟩
  · exact Number.not_roundsBack_of_int (hrat ▸ hint)
  · exact Number.not_justBelow_of_int (hrat ▸ hint)

/-- One cent. -/
def Number.cent : Number := .decimal ⟨1, 2, Dec.natAbs_one_lt, by decide⟩

def Number.threeTenths : Number := .decimal ⟨3, 1, by decide, Dec.one_le_maxScale⟩

/-- `0.01d / 0.3d` has 27 digits. -/
theorem Number.div_loses_digit :
    ¬Number.Divides Reference.nearestDecimals Reference.floats cent threeTenths := by
  have hcent : cent.rat = 1 / 100 := by
    simp only [cent, Number.rat, Scaled.Num.value, ratio_dec96]
    norm_num
  have hthree : threeTenths.rat = 3 / 10 := by
    simp only [threeTenths, Number.rat, Scaled.Num.value, ratio_dec96]
    norm_num
  have hquotient : Scaled.nearest (cent.rat / threeTenths.rat * 10 ^ 28) =
      333333333333333333333333333 := by
    rw [hcent, hthree]
    apply Scaled.nearest_unique
    · norm_num [abs_of_neg]
    · norm_num [abs_of_neg]
  have hback : Scaled.nearest ((333333333333333333333333333 : Int) / 10 ^ 28 * threeTenths.rat *
      10 ^ 28) = 10 ^ 26 := by
    rw [hthree]
    apply Scaled.nearest_unique
    · norm_num [abs_of_pos]
    · norm_num [abs_of_pos]
  rw [Number.divides_iff_of_small Reference.nearestDecimals_nearest
    Reference.decimals_comparesValues rfl rfl rfl (by rw [hthree]; norm_num), not_and]
  refine fun h => absurd ⟨?_, ?_, ?_⟩ h
  · rw [hquotient, hcent, hthree]
    norm_num
  · rw [hquotient]
    norm_num
  · rw [hquotient]
    refine ⟨28, ⟨le_rfl, ?_, fun t ht hle => absurd ht (not_lt.mpr hle)⟩, ?_⟩
    · rw [RoomAt, hback]
      norm_num
    · rw [hback, hcent]
      norm_num

end Synsema.Arith
