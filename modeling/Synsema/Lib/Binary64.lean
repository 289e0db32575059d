import Mathlib.Algebra.Order.Field.Rat

/-!
# Binary64

The numbers of 64-bit floating-point arithmetic: a sign and 63 bits of magnitude, the
magnitudes in the order of their bits.  Rounding takes a rational number to the nearest
magnitude, to the even one of two that are equally near.

The grid of the magnitudes goes on past the greatest finite one: the number that stands where
infinity does, 2¹⁰²⁴, is what a number has to be nearest to for its rounding to overflow.
-/

/-! ## Grids -/

namespace Grid

/-- The greatest index of the `k` bits after `b` whose value is at most `q`, bit by bit. -/
def floorIndex (v : ℕ → ℚ) (q : ℚ) : ℕ → ℕ → ℕ
  | 0, b => b
  | k + 1, b => if v (b + 2 ^ k) ≤ q then floorIndex v q k (b + 2 ^ k) else floorIndex v q k b

/-- The index up to `top` of the value nearest to `q`. -/
def nearest (v : ℕ → ℚ) (top bits : ℕ) (q : ℚ) : ℕ :=
  let b := floorIndex v q bits 0
  if top ≤ b then top
  else if q - v b < v (b + 1) - q ∨ (q - v b = v (b + 1) - q ∧ Even b) then b
  else b + 1

theorem nearest_le (v : ℕ → ℚ) (top bits : ℕ) (q : ℚ) : nearest v top bits q ≤ top := by
  unfold nearest
  dsimp only
  split
  · exact le_refl top
  · split <;> omega

end Grid

/-! ## Numbers -/

/-- A 64-bit floating-point number. -/
structure F64 where
  neg : Bool
  /-- The bits after the sign. -/
  mag : ℕ
  mag_lt : mag < 2 ^ 63
deriving DecidableEq

namespace F64

/-- The magnitude of infinity; what is greater is no number. -/
def infinity : ℕ := 0x7ff0000000000000

/-- Is the number neither infinite nor no number? -/
def isFinite (x : F64) : Bool := x.mag < infinity

def isNan (x : F64) : Bool := infinity < x.mag

def isInfinite (x : F64) : Bool := x.mag == infinity

/-- What the bits of a magnitude stand for: 11 bits of exponent and 52 of mantissa. -/
def magnitude (b : ℕ) : ℚ :=
  if b / 2 ^ 52 = 0 then b / 2 ^ 1074
  else (2 ^ 52 + (b % 2 ^ 52 : ℕ)) * 2 ^ (b / 2 ^ 52) / 2 ^ 1075

/-- What a finite number stands for. -/
def toRat (x : F64) : ℚ := if x.neg then -magnitude x.mag else magnitude x.mag

/-- What a number stands for, the infinite ones as what is below and above all. -/
def value (x : F64) : WithBot (WithTop ℚ) :=
  if x.isFinite then ((x.toRat : WithTop ℚ) : WithBot (WithTop ℚ))
  else if x.neg then ⊥
  else ((⊤ : WithTop ℚ) : WithBot (WithTop ℚ))

theorem value_of_isFinite {x : F64} (h : x.isFinite) :
    x.value = ((x.toRat : WithTop ℚ) : WithBot (WithTop ℚ)) := if_pos h

theorem isFinite_or {x : F64} (h : x.isNan = false) : x.isFinite ∨ x.isInfinite = true := by
  rw [isNan, decide_eq_false_iff_not, not_lt] at h
  rcases h.lt_or_eq with h | h
  · exact .inl (decide_eq_true h)
  · exact .inr (beq_iff_eq.mpr h)

theorem value_of_isInfinite {x : F64} (h : x.isInfinite) :
    x.value = if x.neg then ⊥ else ((⊤ : WithTop ℚ) : WithBot (WithTop ℚ)) := by
  have hmag : x.mag = infinity := beq_iff_eq.mp h
  refine if_neg ?_
  rw [isFinite, hmag, decide_eq_true_iff]
  exact lt_irrefl _

/-- `partial_cmp`: the order of what the numbers stand for, the two zeros alike. -/
def partialCmp (x y : F64) : Option Ordering :=
  if x.isNan || y.isNan then none else some (compare x.value y.value)

/-- The number of a sign that is nearest to a rational number that is not negative. -/
def round (neg : Bool) (q : ℚ) : F64 where
  neg
  mag := Grid.nearest magnitude infinity 63 q
  mag_lt := (Grid.nearest_le ..).trans_lt (by decide)

end F64
