import Synsema.Arith.Number

/-!
# The order of numbers

Two numbers that are no decimal and float together are compared by what they stand for
(`partialCmpNum_eq`): the order of machine words, of integers by their sign, of an integer and a float
by the floor, of decimals at a common scale are all the order of the rational numbers, the infinities
below and above.  So the order is one on integers and floats, and one on integers and decimals
(`order_exact`).
-/

namespace Synsema.Arith

open List Option

variable {R : Decimals}

/-! ## What numbers stand for -/

/-- What the crate documents of comparisons: they are those of the values. -/
def Decimals.ComparesValues (R : Decimals) : Prop :=
  ∀ x y : Dec, R.cmp x y = compare x.value y.value

/-- What the crate documents of texts: an integer that it reads is read exactly. -/
def Decimals.ReadsIntegers (R : Decimals) : Prop :=
  ∀ (n : Int) (d : Dec), R.fromStrExact (toString n).toList = some d → d.value = n

namespace Number

/-- Is it no number? -/
def isNan : Number → Bool
  | float x => x.isNan
  | _ => false

/-- The rational number of what is no float. -/
def rat : Number → ℚ
  | int n => n.toInt
  | big n => n
  | decimal d => d.value
  | bigDec b => Scaled.ratio dec96 b.m b.s
  | float x => x.toRat

/-- What a number stands for. -/
def value : Number → WithBot (WithTop ℚ)
  | float x => x.value
  | a => ((a.rat : WithTop ℚ) : WithBot (WithTop ℚ))

theorem value_of_isFloat {a : Number} (h : a.isFloat = false) :
    a.value = ((a.rat : WithTop ℚ) : WithBot (WithTop ℚ)) := by
  cases a with
  | float x => cases h
  | _ => rfl

end Number

/-! ## Comparisons of rational numbers -/

section Compare

variable {α β : Type*} [LinearOrder α] [LinearOrder β]

theorem compare_map {f : α → β} (hf : StrictMono f) (a b : α) :
    compare (f a) (f b) = compare a b := by
  rw [← cmp_eq_compare, ← cmp_eq_compare, hf.cmp_map_eq]

theorem compare_eq_lt {a b : α} (h : a < b) : compare a b = .lt := compare_lt_iff_lt.mpr h

theorem compare_eq_gt {a b : α} (h : b < a) : compare a b = .gt := compare_gt_iff_gt.mpr h

theorem compare_coe (p q : ℚ) :
    compare ((p : WithTop ℚ) : WithBot (WithTop ℚ)) ((q : WithTop ℚ) : WithBot (WithTop ℚ)) =
      compare p q :=
  compare_map (fun _ _ h => WithBot.coe_lt_coe.mpr (WithTop.coe_lt_coe.mpr h)) p q

theorem compare_intCast (m n : Int) : compare (m : ℚ) (n : ℚ) = compare m n :=
  compare_map Int.cast_strictMono m n

theorem compare_floor (i : Int) (q : ℚ) :
    (match compare i ⌊q⌋ with
      | .lt => some Ordering.lt
      | .gt => some .gt
      | .eq => some (if (⌊q⌋ : ℚ) = q then .eq else .lt)) = some (compare (i : ℚ) q) := by
  rcases lt_trichotomy i ⌊q⌋ with h | h | h
  · rw [compare_eq_lt h]
    have hlt : (i : ℚ) < q := (Int.cast_lt.mpr h).trans_le (Int.floor_le q)
    rw [compare_eq_lt hlt]
  · rw [compare_eq_iff_eq.mpr h, h]
    split_ifs with heq
    · rw [compare_eq_iff_eq.mpr heq]
    · rw [compare_eq_lt ((Int.floor_le q).lt_of_ne heq)]
  · rw [compare_eq_gt h]
    have hlt : q < (i : ℚ) :=
      (Int.lt_floor_add_one q).trans_le (by exact_mod_cast Int.add_one_le_iff.mpr h)
    rw [compare_eq_gt hlt]

theorem cmpRatio_eq (a b : Int × Nat) : Number.cmpRatio a b =
    compare (Scaled.ratio dec96 a.1 a.2) (Scaled.ratio dec96 b.1 b.2) := by
  have hpow : (0 : ℚ) < 10 ^ max a.2 b.2 := pow_pos (by norm_num) _
  rw [Number.cmpRatio, ← compare_intCast, Scaled.ratio_at (F := dec96) (le_max_left a.2 b.2),
    Scaled.ratio_at (F := dec96) (le_max_right a.2 b.2)]
  exact (compare_map (f := fun q : ℚ => q / 10 ^ max a.2 b.2)
    (fun _ _ h => div_lt_div_of_pos_right h hpow) _ _).symm

end Compare

/-! ## Integers and floats -/

theorem toI64_eq_some {n : Int} {k : Int64} (h : toI64 n = some k) : k.toInt = n := by
  rw [toI64, ite_none_right_eq_some] at h
  obtain ⟨⟨hmin, hmax⟩, hk⟩ := h
  rw [← Option.some.inj hk]
  exact Int64.toInt_ofInt_of_le hmin hmax

theorem toI64_eq_none {n : Int} : toI64 n = none ↔ n < -2 ^ 63 ∨ 2 ^ 63 ≤ n := by
  rw [toI64, ite_eq_right_iff]
  constructor
  · intro h
    by_contra hn
    rw [not_or, not_lt, not_le] at hn
    cases h hn
  · rintro (h | h) ⟨hmin, hmax⟩
    · exact absurd hmin (not_le.mpr h)
    · exact absurd hmax (not_lt.mpr h)

section Floats

variable {x : F64} (hx : x.isNan = false)

include hx

theorem cmpI64Float_eq (i : Int64) :
    Number.cmpI64Float i x = some (compare (((i.toInt : ℚ) : WithTop ℚ) : WithBot (WithTop ℚ)) x.value) := by
  have hmin : -2 ^ 63 ≤ i.toInt := i.le_toInt
  have hmax : i.toInt < 2 ^ 63 := i.toInt_lt
  rw [Number.cmpI64Float, if_neg (Bool.eq_false_iff.mp hx)]
  split_ifs with habove hbelow
  · have hlt : (((i.toInt : ℚ) : WithTop ℚ) : WithBot (WithTop ℚ)) < x.value := by
      refine lt_of_lt_of_le ?_ habove
      rw [WithBot.coe_lt_coe, WithTop.coe_lt_coe]
      exact_mod_cast hmax
    rw [compare_eq_lt hlt]
  · have hlt : x.value < (((i.toInt : ℚ) : WithTop ℚ) : WithBot (WithTop ℚ)) := by
      refine lt_of_lt_of_le hbelow ?_
      rw [WithBot.coe_le_coe, WithTop.coe_le_coe]
      exact_mod_cast hmin
    rw [compare_eq_gt hlt]
  · have hfinite : x.isFinite := by
      refine (F64.isFinite_or hx).resolve_right fun hinf => ?_
      rw [F64.value_of_isInfinite hinf] at habove hbelow
      split_ifs at habove hbelow
      · exact hbelow (WithBot.bot_lt_coe _)
      · exact habove (WithBot.coe_le_coe.mpr le_top)
    rw [F64.value_of_isFinite hfinite] at habove hbelow ⊢
    rw [WithBot.coe_le_coe, WithTop.coe_le_coe, not_le] at habove
    rw [WithBot.coe_lt_coe, WithTop.coe_lt_coe, not_lt] at hbelow
    have hfloor : (Int64.ofInt ⌊x.toRat⌋).toInt = ⌊x.toRat⌋ := by
      refine Int64.toInt_ofInt_of_le ?_ ?_
      · exact Int.le_floor.mpr (by exact_mod_cast hbelow)
      · exact Int.floor_lt.mpr (by exact_mod_cast habove)
    rw [compare_coe, ← compare_floor]
    dsimp only
    rw [hfloor] <;> rfl

theorem cmpIntFloat_eq (i : Int) :
    Number.cmpIntFloat i x = some (compare (((i : ℚ) : WithTop ℚ) : WithBot (WithTop ℚ)) x.value) := by
  rw [Number.cmpIntFloat, if_neg (Bool.eq_false_iff.mp hx)]
  split_ifs with hinf hneg
  · rw [F64.value_of_isInfinite hinf, if_pos hneg, compare_eq_gt (WithBot.bot_lt_coe _)]
  · rw [F64.value_of_isInfinite hinf, if_neg hneg,
      compare_eq_lt (WithBot.coe_lt_coe.mpr (WithTop.coe_lt_top _))]
  · have hfinite := (F64.isFinite_or hx).resolve_right hinf
    rw [F64.value_of_isFinite hfinite, compare_coe, ← compare_floor] <;> rfl

end Floats

theorem smallBig_eq (x : Int64) (y : Int) : Number.cmpIntBig.smallBig x y = compare x.toInt y := by
  have hmin : -2 ^ 63 ≤ x.toInt := x.le_toInt
  have hmax : x.toInt < 2 ^ 63 := x.toInt_lt
  rw [Number.cmpIntBig.smallBig]
  cases hy : toI64 y with
  | some k =>
    dsimp only
    rw [toI64_eq_some hy]
  | none =>
    dsimp only
    rcases toI64_eq_none.mp hy with h | h
    · rw [if_pos (h.trans (by norm_num)), compare_eq_gt (h.trans_le hmin)]
    · rw [if_neg (not_lt.mpr ((by norm_num : (0 : Int) ≤ 2 ^ 63).trans h)),
        compare_eq_lt (hmax.trans_le h)]

theorem cmpIntBig_eq {a b : Number} (ha : a.isInteger) (hb : b.isInteger) :
    Number.cmpIntBig a b = compare a.rat b.rat := by
  cases a with
  | int x =>
    cases b with
    | int y => exact (compare_intCast _ _).symm
    | big y => exact (smallBig_eq x y).trans (compare_intCast _ _).symm
    | _ => cases hb
  | big x =>
    cases b with
    | int y =>
      change (Number.cmpIntBig.smallBig y x).swap = compare (x : ℚ) (y.toInt : ℚ)
      rw [smallBig_eq, compare_intCast, Std.OrientedOrd.eq_swap (a := x)]
    | big y => exact (compare_intCast _ _).symm
    | _ => cases hb
  | _ => cases ha

/-! ## Decimals -/

namespace Number

theorem exactRatio_eq {a : Number} (h : a.isFloat = false) :
    ∃ p, a.exactRatio = some p ∧ Scaled.ratio dec96 p.1 p.2 = a.rat := by
  cases a with
  | float x => cases h
  | decimal d | bigDec b => exact ⟨_, rfl, rfl⟩
  | _ => exact ⟨_, rfl, div_one _⟩

theorem toDecimal_value (hI : R.ReadsIntegers) {a : Number} {d : Dec}
    (h : a.toDecimal R = some d) : d.value = a.rat := by
  cases a with
  | int n =>
    cases h
    exact div_one _
  | big n => exact hI n d h
  | decimal d => exact congrArg Scaled.Num.value (Option.some.inj h).symm
  | float x | bigDec b => cases h

end Number

/-! ## All numbers -/

section Numbers

variable (hR : R.ComparesValues) (hI : R.ReadsIntegers)

namespace Number

variable {a b : Number}

theorem compare_value (ha : a.isFloat = false) (hb : b.isFloat = false) :
    compare a.value b.value = compare a.rat b.rat := by
  rw [value_of_isFloat ha, value_of_isFloat hb, compare_coe]

theorem swap_compare (p q : WithBot (WithTop ℚ)) : (compare p q).swap = compare q p :=
  Std.OrientedOrd.eq_swap.symm

theorem mixes_of_not_isFloat (ha : a.isFloat = false) (hb : b.isFloat = false) :
    mixesDecimalFloat a b = false := by
  rw [mixesDecimalFloat, ha, hb, Bool.and_false, Bool.false_and, Bool.or_false]

theorem partialCmpNum_eq_decimals (ha : a.isFloat = false) (hb : b.isFloat = false)
    (hdec : anyDecimal a b) : partialCmpNum R a b =
      match a.toDecimal R, b.toDecimal R with
      | some x, some y => some (R.cmp x y)
      | _, _ => (do
          let x ← a.exactRatio
          let y ← b.exactRatio
          some (cmpRatio x y)) := by
  conv_lhs => unfold partialCmpNum
  split
  next => cases hdec
  next =>
    rw [if_neg (Bool.eq_false_iff.mp (mixes_of_not_isFloat ha hb)), if_pos hdec] <;> rfl

include hR hI

theorem partialCmpNum_of_anyDecimal (ha : a.isFloat = false) (hb : b.isFloat = false)
    (hdec : anyDecimal a b) : partialCmpNum R a b = some (compare a.value b.value) := by
  obtain ⟨p, hp, hpa⟩ := exactRatio_eq ha
  obtain ⟨q, hq, hqb⟩ := exactRatio_eq hb
  rw [compare_value ha hb, partialCmpNum_eq_decimals ha hb hdec]
  split
  next x y hx hy => rw [hR, toDecimal_value hI hx, toDecimal_value hI hy]
  next =>
    rw [hp, hq]
    change some (cmpRatio p q) = _
    rw [cmpRatio_eq, hpa, hqb]

theorem partialCmpNum_value (ha : a.isNan = false) (hb : b.isNan = false)
    (hmix : mixesDecimalFloat a b = false) :
    partialCmpNum R a b = some (compare a.value b.value) := by
  cases a with
  | int x =>
    cases b with
    | int y =>
      rw [compare_value rfl rfl]
      exact congrArg some (compare_intCast _ _).symm
    | big y =>
      rw [compare_value rfl rfl]
      exact congrArg some (cmpIntBig_eq rfl rfl)
    | float y => exact cmpI64Float_eq hb x
    | decimal d | bigDec d => exact partialCmpNum_of_anyDecimal hR hI rfl rfl rfl
  | big x =>
    cases b with
    | int y | big y =>
      rw [compare_value rfl rfl]
      exact congrArg some (cmpIntBig_eq rfl rfl)
    | float y => exact cmpIntFloat_eq hb x
    | decimal d | bigDec d => exact partialCmpNum_of_anyDecimal hR hI rfl rfl rfl
  | float x =>
    cases b with
    | int y =>
      change (cmpI64Float y x).map Ordering.swap = _
      rw [cmpI64Float_eq ha, map_some, swap_compare]
      rfl
    | big y =>
      change (cmpIntFloat y x).map Ordering.swap = _
      rw [cmpIntFloat_eq ha, map_some, swap_compare]
      rfl
    | float y =>
      change F64.partialCmp x y = _
      have hx : x.isNan = false := ha
      have hy : y.isNan = false := hb
      rw [F64.partialCmp, hx, hy]
      rfl
    | decimal d | bigDec d => cases hmix
  | decimal d | bigDec d =>
    cases b with
    | float y => cases hmix
    | _ => exact partialCmpNum_of_anyDecimal hR hI rfl rfl rfl

end Number

end Numbers

namespace Number

variable {a b : Number}

theorem numEq_of_anyDecimal (ha : a.isFloat = false) (hb : b.isFloat = false)
    (hdec : anyDecimal a b) : numEq R a b = (partialCmpNum R a b == some .eq) := by
  obtain ⟨p, hp, -⟩ := exactRatio_eq ha
  obtain ⟨q, hq, -⟩ := exactRatio_eq hb
  rw [partialCmpNum_eq_decimals ha hb hdec]
  unfold numEq
  split
  next => cases hdec
  next =>
    rw [if_neg (Bool.eq_false_iff.mp (mixes_of_not_isFloat ha hb)), if_pos hdec]
    cases a.toDecimal R with
    | none =>
      rw [hp, hq]
      rfl
    | some x =>
      cases b.toDecimal R with
      | none =>
        rw [hp, hq]
        rfl
      | some y => rfl

theorem numEq_eq (a b : Number) : numEq R a b = (partialCmpNum R a b == some .eq) := by
  have hswap (o : Option Ordering) : (o == some .eq) = (o.map Ordering.swap == some .eq) := by
    rcases o with _ | _ | _ | _ <;> rfl
  cases a with
  | int x =>
    cases b with
    | int y =>
      change (x == y) = (compare x.toInt y.toInt == .eq)
      rw [Bool.eq_iff_iff, beq_iff_eq, beq_iff_eq, compare_eq_iff_eq, Int64.toInt_inj]
    | big y | float y | decimal d | bigDec d => rfl
  | big x =>
    cases b with
    | decimal d | bigDec d => exact numEq_of_anyDecimal rfl rfl rfl
    | _ => rfl
  | float x =>
    cases b with
    | int y | big y => exact hswap _
    | _ => rfl
  | decimal d | bigDec d =>
    cases b with
    | float y => rfl
    | _ => exact numEq_of_anyDecimal rfl rfl rfl

/-- One number is up to another one. -/
def UpTo (R : Decimals) (a b : Number) : Prop :=
  partialCmpNum R a b = some .lt ∨ partialCmpNum R a b = some .eq

/-- Numbers that can be compared: integers and floats, or integers and decimals, all numbers. -/
def Kindred (s : List Number) : Prop :=
  (∀ a ∈ s, a.isNan = false) ∧ ((∀ a ∈ s, a.isDecimal = false) ∨ ∀ a ∈ s, a.isFloat = false)

theorem Kindred.mixes {s : List Number} (h : Kindred s) (ha : a ∈ s) (hb : b ∈ s) :
    mixesDecimalFloat a b = false := by
  rw [mixesDecimalFloat]
  rcases h.2 with h | h
  · rw [h a ha, h b hb, Bool.false_and, Bool.and_false, Bool.or_false]
  · rw [h a ha, h b hb, Bool.false_and, Bool.and_false, Bool.or_false]

theorem upTo_iff (hR : R.ComparesValues) (hI : R.ReadsIntegers) {s : List Number} (h : Kindred s)
    (ha : a ∈ s) (hb : b ∈ s) : UpTo R a b ↔ a.value ≤ b.value := by
  rw [UpTo, partialCmpNum_value hR hI (h.1 a ha) (h.1 b hb) (h.mixes ha hb), some_inj, some_inj,
    compare_lt_iff_lt, compare_eq_iff_eq, le_iff_lt_or_eq]

/-- **Comparison is exact across kinds**: numbers that are no decimal and float together compare by
what they stand for and are equal when they compare so, and the order is antisymmetric and
transitive over integers and floats, and over integers and decimals. -/
theorem order_exact (hR : R.ComparesValues) (hI : R.ReadsIntegers) :
    (∀ a b : Number, a.isNan = false → b.isNan = false → mixesDecimalFloat a b = false →
      partialCmpNum R a b = some (compare a.value b.value) ∧
        (numEq R a b = true ↔ partialCmpNum R a b = some .eq)) ∧
      (∀ a b : Number, Kindred [a, b] → UpTo R a b → UpTo R b a → numEq R a b = true) ∧
      ∀ a b c : Number, Kindred [a, b, c] → UpTo R a b → UpTo R b c → UpTo R a c := by
  refine ⟨fun a b ha hb hmix => ⟨partialCmpNum_value hR hI ha hb hmix, ?_⟩, ?_, ?_⟩
  · rw [numEq_eq, beq_iff_eq]
  · intro a b h hab hba
    have ha : a ∈ [a, b] := mem_cons_self
    have hb : b ∈ [a, b] := mem_cons_of_mem _ mem_cons_self
    rw [upTo_iff hR hI h ha hb] at hab
    rw [upTo_iff hR hI h hb ha] at hba
    rw [numEq_eq, beq_iff_eq, partialCmpNum_value hR hI (h.1 a ha) (h.1 b hb) (h.mixes ha hb),
      compare_eq_iff_eq.mpr (le_antisymm hab hba)]
  · intro a b c h hab hbc
    have ha : a ∈ [a, b, c] := mem_cons_self
    have hb : b ∈ [a, b, c] := mem_cons_of_mem _ mem_cons_self
    have hc : c ∈ [a, b, c] := mem_cons_of_mem _ (mem_cons_of_mem _ mem_cons_self)
    rw [upTo_iff hR hI h ha hb] at hab
    rw [upTo_iff hR hI h hb hc] at hbc
    exact (upTo_iff hR hI h ha hc).mpr (hab.trans hbc)

end Number

/-! ## The decimal arithmetic of reference -/

namespace Reference

theorem decimals_comparesValues : decimals.ComparesValues := by
  intro x y
  have hlt (x y : Dec) (h : x.mantissa * 10 ^ y.scale < y.mantissa * 10 ^ x.scale) :
      x.value < y.value := Scaled.Num.lt_iff.mp (decide_eq_true h)
  change compare (x.mantissa * 10 ^ y.scale) (y.mantissa * 10 ^ x.scale) = _
  rcases lt_trichotomy (x.mantissa * 10 ^ y.scale) (y.mantissa * 10 ^ x.scale) with h | h | h
  · rw [compare_eq_lt h, compare_eq_lt (hlt x y h)]
  · have heq : x.value = y.value := Scaled.ratio_eq_ratio_iff.mpr h
    rw [compare_eq_iff_eq.mpr h, compare_eq_iff_eq.mpr heq]
  · rw [compare_eq_gt h, compare_eq_gt (hlt y x h)]

theorem decimals_readsIntegers : decimals.ReadsIntegers := by
  intro n d h
  have hparts : Synsema.Reference.parts (toString n).toList = some (n, 0) :=
    Synsema.Reference.parts_fmtScaled n 0
  change Synsema.Reference.fromStrExact _ = _ at h
  rw [Synsema.Reference.fromStrExact, hparts, bind_some] at h
  rw [Scaled.Num.value_of_ofParts? h]
  exact div_one _

end Reference

/-- An integer, a decimal and an integer that is no machine word. -/
theorem Number.order_exact_sample :
    UpTo Reference.decimals (.int 1) (.big (10 ^ 30)) := by
  refine (order_exact Reference.decimals_comparesValues Reference.decimals_readsIntegers).2.2
    (.int 1) (.decimal ⟨15, 1, by decide, by decide⟩) (.big (10 ^ 30)) ⟨?_, .inr ?_⟩
    (.inl (by decide)) (.inl (by decide))
  · simp [isNan]
  · simp [isFloat]

end Synsema.Arith
