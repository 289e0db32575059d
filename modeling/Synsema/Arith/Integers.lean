import Synsema.Arith.Order

/-!
# Integer arithmetic

An integer has one representation: a machine word where it fits one, and else an integer of any size
(`Represents`).  The operations on integers give the representation of the exact result, whichever
representations they start from, and never trap (`integers_exact`).
-/

namespace Synsema.Arith

namespace Number

/-- The number is the canonical representation of the integer. -/
def Represents : Number → Int → Prop
  | int n, x => n.toInt = x
  | big n, x => n = x ∧ toI64 n = none
  | _, _ => False

variable {a b : Number} {x y : Int}

theorem represents_fromBigint (x : Int) : Represents (fromBigint x) x := by
  rw [fromBigint]
  cases h : toI64 x with
  | some n => exact toI64_eq_some h
  | none => exact ⟨rfl, h⟩

theorem Represents.asBigint (h : Represents a x) : a.asBigint = some x := by
  cases a with
  | int n => exact congrArg some h
  | big n => exact congrArg some h.1
  | _ => cases h

theorem Represents.isInteger (h : Represents a x) : a.isInteger = true := by
  cases a with
  | int n | big n => rfl
  | _ => cases h

theorem Represents.rat (h : Represents a x) : a.rat = x := by
  cases a with
  | int n => exact congrArg Int.cast (h : n.toInt = x)
  | big n => exact congrArg Int.cast h.1
  | _ => cases h

theorem Represents.isZero_iff (h : Represents a x) : a.isZero ↔ x = 0 := by
  cases a with
  | int n =>
    obtain rfl : n.toInt = x := h
    change (n == 0) = true ↔ _
    rw [beq_iff_eq, ← Int64.toInt_inj]
    rfl
  | big n =>
    obtain ⟨rfl, -⟩ := h
    exact beq_iff_eq
  | _ => cases h

theorem not_isFloat (h : a.isInteger) : a.isFloat = false := by
  cases a with
  | float x => cases h
  | _ => rfl

theorem not_isDecimal (h : a.isInteger) : a.isDecimal = false := by
  cases a with
  | decimal d | bigDec d => cases h
  | _ => rfl

/-! ## Division of machine words -/

theorem fmod_bounds (x : Int) (hy : y ≠ 0) :
    (0 < y ∧ 0 ≤ x.fmod y ∧ x.fmod y < y) ∨ (y < 0 ∧ y < x.fmod y ∧ x.fmod y ≤ 0) := by
  have hnonneg : 0 ≤ x % y := Int.emod_nonneg x hy
  have hlt : x % y < |y| := Int.emod_lt_abs x hy
  rw [Int.fmod_eq_emod]
  rcases lt_or_gt_of_ne hy with h | h
  · rw [abs_of_neg h] at hlt
    refine .inr ⟨h, ?_⟩
    split_ifs with hdvd
    · rw [Int.emod_eq_zero_of_dvd (hdvd.resolve_left (not_le.mpr h))]
      exact ⟨by omega, by omega⟩
    · have hne : x % y ≠ 0 := fun h0 => hdvd (.inr (Int.dvd_of_emod_eq_zero h0))
      exact ⟨by omega, by omega⟩
  · rw [abs_of_pos h] at hlt
    rw [if_pos (.inl h.le)]
    exact .inl ⟨h, by omega, by omega⟩

theorem toI64_fmod {x y : Int64} (hy : y.toInt ≠ 0) : (Int64.ofInt (x.toInt.fmod y.toInt)).toInt =
    x.toInt.fmod y.toInt := by
  have hmin : -2 ^ 63 ≤ y.toInt := y.le_toInt
  have hmax : y.toInt < 2 ^ 63 := y.toInt_lt
  apply Int64.toInt_ofInt_of_le <;>
    rcases fmod_bounds x.toInt hy with ⟨-, h₁, h₂⟩ | ⟨-, h₁, h₂⟩ <;> omega

theorem fdiv_bounds {x y : Int64} (hy : y.toInt ≠ 0) (htrap : ¬(x.toInt = -2 ^ 63 ∧ y.toInt = -1)) :
    -2 ^ 63 ≤ x.toInt.fdiv y.toInt ∧ x.toInt.fdiv y.toInt < 2 ^ 63 := by
  have hxmin : -2 ^ 63 ≤ x.toInt := x.le_toInt
  have hxmax : x.toInt < 2 ^ 63 := x.toInt_lt
  have heq := Int.mul_fdiv_add_fmod x.toInt y.toInt
  generalize x.toInt.fdiv y.toInt = q at *
  rcases fmod_bounds x.toInt hy with ⟨hpos, h₁, h₂⟩ | ⟨hneg, h₁, h₂⟩
  · constructor <;> nlinarith
  · constructor
    · nlinarith
    · by_contra hq
      rw [not_lt] at hq
      -- only the least word divided by -1 is so great
      have hone : y.toInt = -1 := by nlinarith
      rw [hone] at heq h₁ h₂
      exact htrap ⟨by omega, hone⟩

theorem traps_eq_false {x y : Int64} (hy : y.toInt ≠ 0)
    (htrap : ¬(x.toInt = -2 ^ 63 ∧ y.toInt = -1)) : I64.traps x y = false := by
  rw [I64.traps, Bool.or_eq_false_iff, Bool.and_eq_false_imp]
  constructor
  · rw [beq_eq_false_iff_ne]
    rintro rfl
    exact hy rfl
  · intro hx
    rw [beq_eq_false_iff_ne]
    rintro rfl
    exact htrap ⟨congrArg Int64.toInt (beq_iff_eq.mp hx), rfl⟩

/-! ## The operations -/

section Operations

variable {R : Decimals} {F : Floats} (ha : Represents a x) (hb : Represents b y)

include ha hb

theorem kinds_of_represents : anyDecimal a b = false ∧ anyFloat a b = false := by
  rw [anyDecimal, not_isDecimal ha.isInteger, not_isDecimal hb.isInteger, anyFloat,
    not_isFloat ha.isInteger, not_isFloat hb.isInteger]
  exact ⟨rfl, rfl⟩

theorem arith_represents (op : Op) :
    ∃ r, arith R F op a b = some r ∧ Represents r (op.onInt x y) := by
  obtain ⟨hdec, hflt⟩ := kinds_of_represents ha hb
  unfold arith
  rw [if_neg (Bool.eq_false_iff.mp hdec), if_neg (Bool.eq_false_iff.mp hflt)]
  split
  next m n =>
    obtain rfl : m.toInt = x := ha
    obtain rfl : n.toInt = y := hb
    have hword : checkedI64 op m n = toI64 (op.onInt m.toInt n.toInt) := by
      cases op <;> rfl
    rw [hword]
    cases h : toI64 (op.onInt m.toInt n.toInt) with
    | some r => exact ⟨int r, rfl, toI64_eq_some h⟩
    | none => exact ⟨_, rfl, represents_fromBigint _⟩
  next =>
    rw [ha.asBigint, hb.asBigint]
    exact ⟨_, rfl, represents_fromBigint _⟩

theorem modulo_represents (hy : y ≠ 0) :
    ∃ r, modulo F a b = some (some r) ∧ Represents r (x.fmod y) := by
  obtain ⟨hdec, hflt⟩ := kinds_of_represents ha hb
  unfold modulo
  rw [hdec, hflt, Bool.false_and, if_neg Bool.false_ne_true, if_neg Bool.false_ne_true]
  split
  next m n =>
    obtain rfl : m.toInt = x := ha
    obtain rfl : n.toInt = y := hb
    rw [if_neg (fun h => hy (congrArg Int64.toInt h))]
    split_ifs with hone
    · subst hone
      refine ⟨int 0, rfl, ?_⟩
      have hzero : m.toInt.fmod (-1) = 0 := by
        rcases fmod_bounds m.toInt (by decide : (-1 : Int) ≠ 0) with ⟨h, -⟩ | ⟨-, h₁, h₂⟩
        · cases h
        · omega
      exact hzero.symm
    · have htrap : ¬(m.toInt = -2 ^ 63 ∧ n.toInt = -1) :=
        fun h => hone (Int64.toInt_inj.mp h.2)
      refine ⟨int (Int64.ofInt (m.toInt.fmod n.toInt)), ?_, toI64_fmod hy⟩
      rw [I64.modFloor, traps_eq_false hy htrap, if_neg Bool.false_ne_true]
      rfl
  next =>
    rw [ha.asBigint, hb.asBigint]
    change ∃ r, (if y = 0 then some none else some (some (fromBigint (x.fmod y)))) = _ ∧ _
    rw [if_neg hy]
    exact ⟨_, rfl, represents_fromBigint _⟩

theorem floorDiv_represents (hy : y ≠ 0) :
    ∃ r, floorDiv F a b = some (some r) ∧ Represents r (x.fdiv y) := by
  obtain ⟨hdec, hflt⟩ := kinds_of_represents ha hb
  have hzero : ¬b.isZero := fun h => hy (hb.isZero_iff.mp h)
  unfold floorDiv
  rw [if_neg hzero, hdec, hflt, Bool.false_and, if_neg Bool.false_ne_true, if_neg Bool.false_ne_true]
  split
  next m n =>
    obtain rfl : m.toInt = x := ha
    obtain rfl : n.toInt = y := hb
    have hne : n ≠ 0 := fun h => hy (congrArg Int64.toInt h)
    rw [I64.checkedDivEuclid, if_neg hne]
    cases hdiv : toI64 (m.toInt / n.toInt) with
    | none => exact ⟨_, rfl, represents_fromBigint _⟩
    | some q =>
      have htrap : ¬(m.toInt = -2 ^ 63 ∧ n.toInt = -1) := by
        rintro ⟨hm, hn⟩
        rw [hm, hn] at hdiv
        cases hdiv
      obtain ⟨hmin, hmax⟩ := fdiv_bounds hy htrap
      refine ⟨int (Int64.ofInt (m.toInt.fdiv n.toInt)), ?_, Int64.toInt_ofInt_of_le hmin hmax⟩
      dsimp only
      rw [I64.divFloor, traps_eq_false hy htrap, if_neg Bool.false_ne_true]
      rfl
  next =>
    rw [ha.asBigint, hb.asBigint]
    exact ⟨_, rfl, represents_fromBigint _⟩

theorem division_zero (hy : y = 0) : modulo F a b = some none ∧ floorDiv F a b = some none := by
  obtain ⟨hdec, hflt⟩ := kinds_of_represents ha hb
  constructor
  · unfold modulo
    rw [hdec, hflt, Bool.false_and, if_neg Bool.false_ne_true, if_neg Bool.false_ne_true]
    split
    next m n =>
      have hn : n = 0 := Int64.toInt_inj.mp ((show n.toInt = y from hb).trans hy)
      rw [if_pos hn]
    next =>
      rw [hb.asBigint]
      exact if_pos hy
  · unfold floorDiv
    rw [if_pos (hb.isZero_iff.mpr hy)]

theorem pow_represents (hmin : 0 ≤ y) (hmax : y < 2 ^ 32) :
    ∃ r, pow F a b = some r ∧ Represents r (x ^ y.toNat) := by
  unfold pow
  rw [ha.isInteger, hb.isInteger, hb.asBigint, ha.asBigint, Bool.and_self, if_pos rfl]
  dsimp only
  rw [ if_pos hmin, if_pos hmax]
  exact ⟨_, rfl, represents_fromBigint _⟩

end Operations

theorem partialCmpNum_represents {R : Decimals} (ha : Represents a x) (hb : Represents b y) :
    partialCmpNum R a b = some (compare x y) := by
  have hcmp : partialCmpNum R a b = some (cmpIntBig a b) := by
    cases a with
    | int m | big m =>
      cases b with
      | int n | big n => rfl
      | _ => cases hb
    | _ => cases ha
  rw [hcmp, cmpIntBig_eq ha.isInteger hb.isInteger, ha.rat, hb.rat, compare_intCast]

theorem neg_represents (ha : Represents a x) : Represents (neg a) (-x) := by
  cases a with
  | int n =>
    obtain rfl : n.toInt = x := ha
    rw [neg, I64.checkedNeg]
    cases h : toI64 (-n.toInt) with
    | some r => exact toI64_eq_some h
    | none => exact represents_fromBigint _
  | big n =>
    obtain ⟨rfl, -⟩ := ha
    exact represents_fromBigint _
  | _ => cases ha

/-- **Integer arithmetic is that of the integers**, on their canonical representations. -/
theorem integers_exact {R : Decimals} {F : Floats} (ha : Represents a x) (hb : Represents b y) :
    (∃ r, add R F a b = some r ∧ Represents r (x + y)) ∧
      (∃ r, sub R F a b = some r ∧ Represents r (x - y)) ∧
      (∃ r, mul R F a b = some r ∧ Represents r (x * y)) ∧
      Represents (neg a) (-x) ∧
      (0 ≤ y → y < 2 ^ 32 → ∃ r, pow F a b = some r ∧ Represents r (x ^ y.toNat)) ∧
      (y = 0 → modulo F a b = some none ∧ floorDiv F a b = some none) ∧
      (y ≠ 0 → ∃ q r qn rn, floorDiv F a b = some (some q) ∧ modulo F a b = some (some r) ∧
        Represents q qn ∧ Represents r rn ∧ x = y * qn + rn ∧
        ((0 < y ∧ 0 ≤ rn ∧ rn < y) ∨ (y < 0 ∧ y < rn ∧ rn ≤ 0))) ∧
      partialCmpNum R a b = some (compare x y) ∧ (numEq R a b = true ↔ x = y) := by
  have hcmp := partialCmpNum_represents (R := R) ha hb
  refine ⟨arith_represents ha hb .plus, arith_represents ha hb .minus, arith_represents ha hb .times,
    neg_represents ha, pow_represents ha hb, division_zero ha hb, fun hy => ?_, hcmp, ?_⟩
  · obtain ⟨q, hq, hqx⟩ := floorDiv_represents (F := F) ha hb hy
    obtain ⟨r, hr, hrx⟩ := modulo_represents (F := F) ha hb hy
    exact ⟨q, r, _, _, hq, hr, hqx, hrx, (Int.mul_fdiv_add_fmod x y).symm, fmod_bounds x hy⟩
  · rw [numEq_eq, hcmp, beq_iff_eq, Option.some_inj, compare_eq_iff_eq]

/-- The least machine word divided by -1. -/
theorem integers_exact_sample : ∃ q r qn rn,
    floorDiv Reference.floats (int Int64.minValue) (int (-1)) = some (some q) ∧
      modulo Reference.floats (int Int64.minValue) (int (-1)) = some (some r) ∧
      Represents q qn ∧ Represents r rn ∧ -2 ^ 63 = -1 * qn + rn ∧
      (((0 : Int) < -1 ∧ 0 ≤ rn ∧ rn < -1) ∨ ((-1 : Int) < 0 ∧ -1 < rn ∧ rn ≤ 0)) := by
  have hmin : Represents (int Int64.minValue) (-2 ^ 63) := rfl
  have hone : Represents (int (-1)) (-1) := rfl
  exact (integers_exact (R := Reference.decimals) hmin hone).2.2.2.2.2.2.1 (by decide)

end Number

end Synsema.Arith
