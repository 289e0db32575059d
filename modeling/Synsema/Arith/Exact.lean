import Synsema.Arith.Ratio

/-!
# Exact decimals

Addition, subtraction and multiplication of decimals are exact on decimals of any size, but two
operands that `rust_decimal` has room for are given to it first, and what it gives is rounded.  So a
result of such operands is exact only when `rust_decimal` has room for it, or has no room for its
integer part (`arith_exact_iff`).

Of the other operands the scales of a product are added as `u32`, and a result that has no room at its
own scale becomes a large decimal even where a smaller scale would do.
-/

namespace Synsema.Arith

/-- The operation on rational numbers. -/
def Op.onRat : Op → ℚ → ℚ → ℚ
  | .plus, x, y => x + y
  | .minus, x, y => x - y
  | .times, x, y => x * y

/-- What the crate documents of its operations: they are exact where it has room for the exact
result, and give nothing where it has none for the integer part. -/
structure Decimals.Rounds (R : Decimals) : Prop where
  exact : ∀ (op : Op) (x y : Dec), Representable (op.onRat x.value y.value) →
    ∃ d, R.checked op x y = some d ∧ d.value = op.onRat x.value y.value
  isSome_iff : ∀ (op : Op) (x y : Dec),
    (R.checked op x y).isSome = true ↔ |op.onRat x.value y.value| < 2 ^ 96

/-- What the crate documents of texts: an integer that it has room for is read. -/
def Decimals.ReadsSmall (R : Decimals) : Prop :=
  ∀ n : Int, n.natAbs < 2 ^ 96 → (R.fromStrExact (toString n).toList).isSome = true

/-! ## Values of decimals -/

variable {m : Int}

theorem abs_ratio_lt (hm : m.natAbs < 2 ^ 96) (s : Nat) : |Scaled.ratio dec96 m s| < 2 ^ 96 := by
  have hone : (1 : ℚ) ≤ 10 ^ s := one_le_pow₀ (by norm_num)
  have hm' : |(m : ℚ)| < 2 ^ 96 := by
    rw [← Int.cast_abs, Int.abs_eq_natAbs]
    exact_mod_cast hm
  rw [ratio_dec96, abs_div, abs_of_pos (by linarith : (0 : ℚ) < 10 ^ s), div_lt_iff₀ (by linarith)]
  nlinarith

theorem Representable.abs_lt {q : ℚ} (h : Representable q) : |q| < 2 ^ 96 := by
  obtain ⟨d, rfl⟩ := h
  exact abs_ratio_lt d.mantissa_lt d.scale

theorem not_representable_of_scale {s : Nat} (hs : 28 < s) (hm : m % 10 ≠ 0) :
    ¬Representable (Scaled.ratio dec96 m s) := by
  rintro ⟨d, hd⟩
  have heq : d.mantissa * 10 ^ s = m * 10 ^ d.scale := Scaled.ratio_eq_ratio_iff.mp hd
  have hscale : d.scale ≤ 28 := d.scale_le
  obtain ⟨k, rfl⟩ : ∃ k, s = d.scale + (k + 1) := ⟨s - d.scale - 1, by omega⟩
  have hten : (10 : Int) ^ d.scale ≠ 0 := pow_ne_zero _ (by decide)
  have hdvd : m = 10 * (d.mantissa * 10 ^ k) := by
    apply mul_right_cancel₀ hten
    rw [← heq]
    ring
  exact hm (Int.emod_eq_zero_of_dvd ⟨_, hdvd⟩)

theorem dropZeros_zero (ideal s : Nat) : dropZeros ideal 0 s = (0, min ideal s) := by
  induction s with
  | zero => rw [dropZeros, Nat.min_zero]
  | succ s ih =>
    rw [dropZeros]
    split_ifs with h
    · rw [Int.zero_ediv, ih, Nat.min_eq_left (by omega), Nat.min_eq_left (by omega)]
    · rw [Nat.min_eq_right (by
        by_contra hlt
        exact h ⟨not_le.mp hlt, rfl⟩)]

/-! ## The exact result -/

namespace Number

/-- The mantissa and the scale of what is no float. -/
def ratio (a : Number) : Int × Nat := a.exactRatio.getD (0, 0)

/-- The mantissa and the scale of an exact result. -/
def partsOf (op : Op) (p q : Int × Nat) : Int × Nat :=
  match op with
  | .times => (p.1 * q.1, p.2 + q.2)
  | op =>
    let s := max p.2 q.2
    (op.onInt (p.1 * 10 ^ (s - p.2)) (q.1 * 10 ^ (s - q.2)), s)

theorem ratio_partsOf (op : Op) (p q : Int × Nat) :
    Scaled.ratio dec96 (partsOf op p q).1 (partsOf op p q).2 =
      op.onRat (Scaled.ratio dec96 p.1 p.2) (Scaled.ratio dec96 q.1 q.2) := by
  have hp := Scaled.ratio_at (F := dec96) (m := p.1) (le_max_left p.2 q.2)
  have hq := Scaled.ratio_at (F := dec96) (m := q.1) (le_max_right p.2 q.2)
  cases op with
  | plus =>
    rw [Op.onRat, hp, hq, Scaled.ratio_add]
    rfl
  | minus =>
    rw [Op.onRat, hp, hq, ratio_dec96, ratio_dec96, ratio_dec96, ← sub_div]
    congr 1
    exact Int.cast_sub _ _
  | times =>
    rw [Op.onRat, ratio_dec96, ratio_dec96, ratio_dec96, div_mul_div_comm, ← pow_add]
    congr 1
    exact Int.cast_mul _ _

/-- The mantissa and the scale of the exact result of two numbers. -/
def parts (op : Op) (a b : Number) : Int × Nat := partsOf op a.ratio b.ratio

/-- Is there room for a mantissa and a scale, without the zeros past scale 28? -/
def RoomFor (p : Int × Nat) : Prop :=
  (dropZeros 28 p.1 p.2).1.natAbs < 2 ^ 96 ∧ (dropZeros 28 p.1 p.2).2 ≤ 28

/-- `rust_decimal` has room for the number. -/
def Fits : Number → Prop
  | int _ | decimal _ => True
  | big n => n.natAbs < 2 ^ 96
  | float _ | bigDec _ => False

/-- Is it a decimal that `rust_decimal` has no room for? -/
def isBigDec : Number → Bool
  | bigDec _ => true
  | _ => false

/-- The exact result: a decimal of its value, large only when there is no other one. -/
structure IsExact (op : Op) (a b r : Number) : Prop where
  decimal : r.isDecimal = true
  value : r.rat = op.onRat a.rat b.rat
  small : r.isBigDec = true → ¬Representable (op.onRat a.rat b.rat)

/-- When an operation is exact: of operands that `rust_decimal` has room for, when it has room for
the result or none for the integer part, and else when the scale fits a `u32` and there is room for
the result at its own scale if there is at any. -/
def ExactWhen (op : Op) (a b : Number) : Prop :=
  (Fits a ∧ Fits b ∧
      (Representable (op.onRat a.rat b.rat) ∨ 2 ^ 96 ≤ |op.onRat a.rat b.rat|)) ∨
    (¬(Fits a ∧ Fits b) ∧ ((parts op a b).2 < 2 ^ 32 ∨ (parts op a b).1 = 0) ∧
      (Representable (op.onRat a.rat b.rat) → RoomFor (parts op a b)))

variable {R : Decimals} {F : Floats} {a b : Number}

theorem exactRatio_ratio (ha : a.isFloat = false) :
    a.exactRatio = some a.ratio ∧ Scaled.ratio dec96 a.ratio.1 a.ratio.2 = a.rat := by
  obtain ⟨p, hp, hrat⟩ := exactRatio_eq ha
  rw [ratio, hp]
  exact ⟨rfl, hrat⟩

theorem ratio_parts (ha : a.isFloat = false) (hb : b.isFloat = false) (op : Op) :
    Scaled.ratio dec96 (parts op a b).1 (parts op a b).2 = op.onRat a.rat b.rat := by
  rw [parts, ratio_partsOf, (exactRatio_ratio ha).2, (exactRatio_ratio hb).2]

theorem exactOp_eq (ha : a.isFloat = false) (hb : b.isFloat = false) (op : Op) :
    exactOp op a b = some (decimalFromParts (parts op a b).1 (parts op a b).2) := by
  rw [exactOp, (exactRatio_ratio ha).1, (exactRatio_ratio hb).1, parts]
  cases op <;> rfl

variable {m : Int} {s : Nat}

theorem isBigDec_decimalFromParts (hs : s < 2 ^ 32) :
    (decimalFromParts m s).isBigDec ↔ ¬RoomFor (m, s) := by
  rw [decimalFromParts]
  simp only [Nat.mod_eq_of_lt hs]
  split
  next h => exact iff_of_false Bool.false_ne_true (not_not.mpr h)
  next h => exact iff_of_true rfl h

theorem isDecimal_decimalFromParts (m : Int) (s : Nat) :
    (decimalFromParts m s).isDecimal = true := by
  rw [decimalFromParts]
  split <;> rfl

theorem decimalFromParts_rat_ne (hm : m ≠ 0) (hs : 2 ^ 32 ≤ s) :
    (decimalFromParts m s).rat ≠ Scaled.ratio dec96 m s := by
  have hwrap : decimalFromParts m s = decimalFromParts m (s % 2 ^ 32) := by
    rw [decimalFromParts, decimalFromParts]
    simp only [Nat.mod_mod]
  have hlt : s % 2 ^ 32 < 2 ^ 32 := Nat.mod_lt s (by decide)
  rw [hwrap, decimalFromParts_rat hlt]
  intro h
  have heq : m * 10 ^ s = m * 10 ^ (s % 2 ^ 32) := Scaled.ratio_eq_ratio_iff.mp h
  have hpow : 10 ^ s = 10 ^ (s % 2 ^ 32) := by exact_mod_cast mul_left_cancel₀ hm heq
  have := Nat.pow_right_injective (le_refl 2 |>.trans (by decide)) hpow
  omega

theorem isExact_decimalFromParts (ha : a.isFloat = false) (hb : b.isFloat = false) (op : Op) :
    IsExact op a b (decimalFromParts (parts op a b).1 (parts op a b).2) ↔
      ((parts op a b).2 < 2 ^ 32 ∨ (parts op a b).1 = 0) ∧
        (Representable (op.onRat a.rat b.rat) → RoomFor (parts op a b)) := by
  have hratio := ratio_parts ha hb op
  generalize parts op a b = p at *
  obtain ⟨m, s⟩ := p
  dsimp only at *
  rcases Nat.lt_or_ge s (2 ^ 32) with hs | hs
  · -- the scale fits
    constructor
    · rintro ⟨-, -, hsmall⟩
      refine ⟨.inl hs, fun hrep => ?_⟩
      by_contra hroom
      exact hsmall ((isBigDec_decimalFromParts hs).mpr hroom) hrep
    · rintro ⟨-, hroom⟩
      refine ⟨isDecimal_decimalFromParts m s, (decimalFromParts_rat hs).trans hratio, ?_⟩
      exact fun hbig hrep => (isBigDec_decimalFromParts hs).mp hbig (hroom hrep)
  · by_cases hm : m = 0
    · -- zero at any scale
      subst hm
      have hroom (s : Nat) : RoomFor (0, s) := by
        rw [RoomFor, dropZeros_zero]
        exact ⟨Nat.two_pow_pos 96, Nat.min_le_left 28 s⟩
      have hwrap : decimalFromParts 0 s = decimalFromParts 0 (s % 2 ^ 32) := by
        rw [decimalFromParts, decimalFromParts]
        simp only [Nat.mod_mod]
      have hlt : s % 2 ^ 32 < 2 ^ 32 := Nat.mod_lt s (by decide)
      refine iff_of_true ⟨isDecimal_decimalFromParts 0 s, ?_, fun hbig => ?_⟩
        ⟨.inr rfl, fun _ => hroom s⟩
      · rw [hwrap, decimalFromParts_rat hlt, ← hratio, ratio_dec96, ratio_dec96, Int.cast_zero,
          zero_div, zero_div]
      · rw [hwrap] at hbig
        exact absurd (hroom _) ((isBigDec_decimalFromParts hlt).mp hbig)
    · refine iff_of_false (fun h => decimalFromParts_rat_ne hm hs (h.value.trans hratio.symm)) ?_
      rintro ⟨h | h, -⟩
      · exact absurd h (not_lt.mpr hs)
      · exact hm h

/-! ## The operations -/

theorem parts_scale_lt (ha : Fits a) (hb : Fits b) (op : Op) : (parts op a b).2 < 2 ^ 32 := by
  have hscale {a : Number} (ha : Fits a) : a.ratio.2 ≤ 28 := by
    cases a with
    | decimal d => exact d.scale_le
    | float x | bigDec d => cases ha
    | _ => exact Nat.zero_le 28
  have hle : (parts op a b).2 ≤ a.ratio.2 + b.ratio.2 := by
    cases op with
    | times => exact le_refl _
    | _ => exact max_le_add_of_nonneg (Nat.zero_le _) (Nat.zero_le _)
  have := hscale ha
  have := hscale hb
  omega

theorem toDecimal_isSome_iff (hI : R.ReadsIntegers) (hS : R.ReadsSmall) (a : Number) :
    (a.toDecimal R).isSome ↔ Fits a := by
  cases a with
  | int n | decimal d => exact iff_of_true rfl trivial
  | big n =>
    refine ⟨fun h => ?_, hS n⟩
    obtain ⟨d, hd⟩ := Option.isSome_iff_exists.mp h
    have hlt := abs_ratio_lt d.mantissa_lt d.scale
    have hval : Scaled.ratio dec96 d.mantissa d.scale = n := hI n d hd
    rw [hval, ← Int.cast_abs, Int.abs_eq_natAbs] at hlt
    exact_mod_cast hlt
  | float x | bigDec b => exact iff_of_false Bool.false_ne_true id

theorem decimalBinop_eq (ha : a.isFloat = false) (hb : b.isFloat = false) (op : Op) :
    decimalBinop R F op a b =
      match a.toDecimal R, b.toDecimal R with
      | some x, some y => ((R.checked op x y).map decimal).getD
          (decimalFromParts (parts op a b).1 (parts op a b).2)
      | _, _ => decimalFromParts (parts op a b).1 (parts op a b).2 := by
  have hflt : anyFloat a b = false := by rw [anyFloat, ha, hb, Bool.or_false]
  rw [decimalBinop, if_neg (Bool.eq_false_iff.mp hflt), exactOp_eq ha hb]
  cases b with
  | bigDec d =>
    -- the second operand has no `rust_decimal`
    cases a <;> dsimp only [toDecimal, Option.getD_some]
    cases R.fromStrExact _ <;> rfl
  | float y => cases hb
  | _ => cases a <;> rfl

theorem exists_toDecimal (hI : R.ReadsIntegers) (hS : R.ReadsSmall) (ha : Fits a) :
    ∃ d, a.toDecimal R = some d ∧ d.value = a.rat := by
  obtain ⟨d, hd⟩ := Option.isSome_iff_exists.mp ((toDecimal_isSome_iff hI hS a).mpr ha)
  exact ⟨d, hd, toDecimal_value hI hd⟩

theorem isExact_decimal {op : Op} {d : Dec} :
    IsExact op a b (decimal d) ↔ d.value = op.onRat a.rat b.rat :=
  ⟨fun h => h.value, fun h => ⟨rfl, h, fun hbig => Bool.noConfusion hbig⟩⟩

theorem isExact_of_fits (hR : R.Rounds) (hI : R.ReadsIntegers) (hS : R.ReadsSmall)
    (ha : Fits a) (hb : Fits b) (op : Op) :
    IsExact op a b (decimalBinop R F op a b) ↔
      Representable (op.onRat a.rat b.rat) ∨ 2 ^ 96 ≤ |op.onRat a.rat b.rat| := by
  have hfa : a.isFloat = false := by cases a <;> first | rfl | cases ha
  have hfb : b.isFloat = false := by cases b <;> first | rfl | cases hb
  have hratio := ratio_parts hfa hfb op
  obtain ⟨x, hx, hxval⟩ := exists_toDecimal hI hS ha
  obtain ⟨y, hy, hyval⟩ := exists_toDecimal hI hS hb
  have hexact := hR.exact op x y
  have hsome := hR.isSome_iff op x y
  rw [hxval, hyval] at hexact hsome
  rw [decimalBinop_eq hfa hfb, hx, hy]
  dsimp only
  cases hc : R.checked op x y with
  | some d =>
    rw [hc] at hsome hexact
    rw [Option.map_some, Option.getD_some, isExact_decimal]
    constructor
    · exact fun h => .inl (h ▸ d.representable)
    · rintro (hrep | hbig)
      · obtain ⟨e, he, hval⟩ := hexact hrep
        rw [Option.some.inj he, hval]
      · exact absurd (hsome.mp rfl) (not_lt.mpr hbig)
  | none =>
    rw [hc] at hsome
    have hbig : 2 ^ 96 ≤ |op.onRat a.rat b.rat| := by
      by_contra hlt
      exact absurd (hsome.mpr (not_le.mp hlt)) Bool.false_ne_true
    rw [Option.map_none, Option.getD_none, isExact_decimalFromParts hfa hfb]
    refine iff_of_true ⟨.inl ?_, fun hrep ↦ absurd (Representable.abs_lt hrep) (not_lt.mpr hbig)⟩ (.inr hbig)
    exact parts_scale_lt ha hb op

/-- **When decimal arithmetic is exact**: of operands that `rust_decimal` has room for exactly when
it has room for the result or none for the integer part; and of other ones exactly when the scale
fits its word and the result has room at its own scale if it has room at any. -/
theorem arith_exact_iff (hR : R.Rounds) (hI : R.ReadsIntegers) (hS : R.ReadsSmall)
    (ha : a.isFloat = false) (hb : b.isFloat = false) (hdec : anyDecimal a b = true) (op : Op) :
    (∃ r, arith R F op a b = some r ∧ IsExact op a b r) ↔ ExactWhen op a b := by
  have harith : arith R F op a b = some (decimalBinop R F op a b) := by
    rw [arith.eq_def, if_pos hdec]
  have hiff : (∃ r, arith R F op a b = some r ∧ IsExact op a b r) ↔
      IsExact op a b (decimalBinop R F op a b) := by
    rw [harith]
    constructor
    · rintro ⟨r, hr, h⟩
      rwa [Option.some.inj hr]
    · exact fun h => ⟨_, rfl, h⟩
  rw [hiff, ExactWhen]
  by_cases hfits : Fits a ∧ Fits b
  · rw [isExact_of_fits hR hI hS hfits.1 hfits.2]
    exact ⟨fun h => .inl ⟨hfits.1, hfits.2, h⟩, fun h => h.elim (fun h => h.2.2) (absurd hfits ·.1)⟩
  · have hslow : decimalBinop R F op a b =
        decimalFromParts (parts op a b).1 (parts op a b).2 := by
      rw [decimalBinop_eq ha hb]
      split
      next x y hx hy =>
        refine absurd ⟨?_, ?_⟩ hfits
        · exact (toDecimal_isSome_iff hI hS a).mp (Option.isSome_of_eq_some hx)
        · exact (toDecimal_isSome_iff hI hS b).mp (Option.isSome_of_eq_some hy)
      next => rfl
    rw [hslow, isExact_decimalFromParts ha hb]
    constructor
    · exact fun h => .inr ⟨hfits, h⟩
    · rintro (h | h)
      · exact absurd ⟨h.1, h.2.1⟩ hfits
      · exact h.2

end Number

/-! ## The decimal arithmetic of reference -/

namespace Reference

theorem decimals_readsSmall : decimals.ReadsSmall := by
  intro n hn
  have hparts : Synsema.Reference.parts (toString n).toList = some (n, 0) :=
    Synsema.Reference.parts_fmtScaled n 0
  change (Synsema.Reference.fromStrExact _).isSome = true
  rw [Synsema.Reference.fromStrExact, hparts, Option.bind_some]
  dsimp only
  rw [Scaled.Num.ofParts?_of_le hn (Nat.zero_le _), Option.isSome_some]

theorem natAbs_tdiv_lt_iff (m : Int) (s : Nat) :
    (m.tdiv (10 ^ s)).natAbs < 2 ^ 96 ↔ |Scaled.ratio dec96 m s| < 2 ^ 96 := by
  have hpos : 0 < 10 ^ s := Nat.pow_pos (by decide)
  have habs : |(m : ℚ)| = (m.natAbs : ℚ) := by
    rw [← Int.cast_abs, Int.abs_eq_natAbs]
    rfl
  have hten : (0 : ℚ) < 10 ^ s := pow_pos (by norm_num) s
  have hnat : ((10 : Int) ^ s).natAbs = 10 ^ s := Int.natAbs_pow 10 s
  change (m.tdiv (10 ^ s)).natAbs < 2 ^ 96 ↔ _
  rw [Int.natAbs_tdiv, hnat]
  change m.natAbs / 10 ^ s < 2 ^ 96 ↔ _
  rw [Nat.div_lt_iff_lt_mul hpos, ratio_dec96, abs_div, abs_of_pos hten, div_lt_iff₀ hten, habs]
  exact_mod_cast Iff.rfl

theorem ratio_exactParts (op : Op) (x y : Dec) :
    Scaled.ratio dec96 (exactParts op x y).1 (exactParts op x y).2 =
      op.onRat x.value y.value := by
  have hparts := Number.ratio_partsOf op (x.mantissa, x.scale) (y.mantissa, y.scale)
  cases op <;> exact hparts

theorem decimals_rounds : decimals.Rounds where
  exact op x y h := by
    obtain ⟨a, ha, hval⟩ := Scaled.exists_round_eq (F := dec96) (m := (exactParts op x y).1)
      (s := (exactParts op x y).2) (by rwa [ratio_exactParts])
    rw [ratio_exactParts] at hval
    refine ⟨a, ?_, hval⟩
    change (Scaled.round dec96 _ _).or _ = some a
    rw [ha, Option.some_or]
  isSome_iff op x y := by
    change ((Scaled.round dec96 _ _).or _).isSome = true ↔ _
    rw [← ratio_exactParts]
    generalize exactParts op x y = p
    constructor
    · intro h
      by_contra hbig
      have hroom := (natAbs_tdiv_lt_iff p.1 p.2).not.mpr hbig
      have hle : (2 ^ 96 : Int) * 10 ^ p.2 ≤ |p.1| := by
        have hten : (0 : ℚ) < 10 ^ p.2 := pow_pos (by norm_num) _
        rw [not_lt, ratio_dec96, abs_div, abs_of_pos hten, le_div_iff₀ hten] at hbig
        exact_mod_cast hbig
      have hnone : Scaled.round dec96 p.1 p.2 = none :=
        Scaled.dropDigits_eq_none (by rw [Nat.zero_add]; exact hle)
      rw [hnone, Option.none_or, Scaled.Num.ofParts?, dif_neg fun h => hroom h.1] at h
      exact Bool.noConfusion h
    · intro h
      rw [← natAbs_tdiv_lt_iff] at h
      rw [Scaled.Num.ofParts?_of_le h (Nat.zero_le _), Option.isSome_or, Option.isSome_some,
        Bool.or_true]

end Reference

/-- Exactly 0.015. -/
theorem Number.arith_exact_sample :
    ∃ r, Number.arith Reference.decimals Reference.floats .times
      (.decimal ⟨15, 1, by decide, by decide⟩) (.decimal ⟨1, 2, by decide, by decide⟩) = some r ∧
      Number.IsExact .times (.decimal ⟨15, 1, by decide, by decide⟩)
        (.decimal ⟨1, 2, by decide, by decide⟩) r := by
  apply (Number.arith_exact_iff Reference.decimals_rounds Reference.decimals_readsIntegers
    Reference.decimals_readsSmall rfl rfl rfl .times).mpr
  refine .inl ⟨trivial, trivial, .inl ⟨⟨15, 3, by decide, by decide⟩, ?_⟩⟩
  simp only [Op.onRat, Number.rat, Scaled.Num.value, ratio_dec96]
  norm_num

/-- `1e-20`. -/
def Number.tiny : Number := .decimal ⟨1, 20, Dec.natAbs_one_lt, by decide⟩

/-- `1e-20 * 1e-20` is zero. -/
theorem Number.arith_rounded :
    ¬∃ r, Number.arith Reference.decimals Reference.floats .times tiny tiny = some r ∧
      Number.IsExact .times tiny tiny r := by
  have hval : Op.onRat .times tiny.rat tiny.rat = Scaled.ratio dec96 1 40 := by
    simp only [Op.onRat, tiny, Number.rat, Scaled.Num.value, ratio_dec96]
    norm_num
  have hfits : Number.Fits tiny := trivial
  rintro ⟨r, hr, h⟩
  cases hr
  have hiff := (Number.isExact_of_fits Reference.decimals_rounds Reference.decimals_readsIntegers
    Reference.decimals_readsSmall hfits hfits .times).mp h
  rw [hval] at hiff
  rcases hiff with hrep | hbig
  · exact not_representable_of_scale (by decide) (by decide) hrep
  · rw [ratio_dec96] at hbig
    norm_num at hbig

end Synsema.Arith
