import Synsema.Decimal
import Synsema.Lib.Binary64

/-!
# Numbers and their arithmetic

The numbers of a program with their operations (`synsema-core/src/number.rs`): integers of 64 bits
that become integers of any size, floats, and decimals of 96 bits that become decimals of any size.

The decimals of 96 bits are those of the crate `rust_decimal`; what the crate and the arithmetic of
floats compute are parameters (`Decimals`, `Floats`).  Operations on machine words give nothing
where the processor would trap.
-/

namespace Synsema.Arith

open Text

/-! ## Machine words -/

/-- `BigInt::to_i64`. -/
def toI64 (n : Int) : Option Int64 :=
  if -2 ^ 63 ≤ n ∧ n < 2 ^ 63 then some (Int64.ofInt n) else none

namespace I64

def checkedAdd (a b : Int64) : Option Int64 := toI64 (a.toInt + b.toInt)

def checkedSub (a b : Int64) : Option Int64 := toI64 (a.toInt - b.toInt)

def checkedMul (a b : Int64) : Option Int64 := toI64 (a.toInt * b.toInt)

def checkedNeg (a : Int64) : Option Int64 := toI64 (-a.toInt)

def checkedDivEuclid (a b : Int64) : Option Int64 :=
  if b = 0 then none else toI64 (a.toInt / b.toInt)

/-- Does the division of the processor trap? -/
def traps (a b : Int64) : Bool := b == 0 || (a == Int64.minValue && b == -1)

/-- `mod_floor`, which divides. -/
def modFloor (a b : Int64) : Option Int64 :=
  if traps a b then none else some (Int64.ofInt (a.toInt.fmod b.toInt))

/-- `div_floor`, which divides. -/
def divFloor (a b : Int64) : Option Int64 :=
  if traps a b then none else some (Int64.ofInt (a.toInt.fdiv b.toInt))

end I64

/-! ## What is not of the repository -/

/-- The three operations that are exact on decimals of any size. -/
inductive Op where
  | plus
  | minus
  | times
deriving DecidableEq

/-- The operation on integers. -/
def Op.onInt : Op → Int → Int → Int
  | .plus, x, y => x + y
  | .minus, x, y => x - y
  | .times, x, y => x * y

/-- The operations of `rust_decimal`. -/
structure Decimals where
  /-- `checked_add`, `checked_sub` and `checked_mul`. -/
  checked : Op → Dec → Dec → Option Dec
  checkedDiv : Dec → Dec → Option Dec
  /-- `partial_cmp`, which always compares. -/
  cmp : Dec → Dec → Ordering
  fromStrExact : Text → Option Dec
  display : Dec → Text

/-- The arithmetic of floats. -/
structure Floats where
  op : Op → F64 → F64 → F64
  div : F64 → F64 → F64
  rem : F64 → F64 → F64
  pow : F64 → F64 → F64
  floor : F64 → F64
  copysign : F64 → F64 → F64
  /-- The float nearest to an integer. -/
  ofInt : Int → F64
  /-- `Decimal::to_f64`. -/
  ofDec : Dec → F64
  /-- `ratio_f64`, of a decimal. -/
  ofRatio : Int → Nat → F64

/-! ## Decimals of any size -/

/-- `BigDec`: a decimal that `rust_decimal` has no room for, `m / 10 ^ s`. -/
structure BigDec where
  m : Int
  s : Nat
  noRoom : ¬(m.natAbs < 2 ^ 96 ∧ s ≤ 28)
  noZeros : 28 < s → m % 10 ≠ 0
  scale_lt : s < 2 ^ 32

inductive Number where
  | int (n : Int64)
  | big (n : Int)
  | float (x : F64)
  | decimal (d : Dec)
  | bigDec (b : BigDec)

/-- The trailing zeros are dropped while the scale is above one that is wanted. -/
def dropZeros (ideal : Nat) (m : Int) : Nat → Int × Nat
  | 0 => (m, 0)
  | s + 1 => if ideal < s + 1 ∧ m % 10 = 0 then dropZeros ideal (m / 10) s else (m, s + 1)

theorem dropZeros_le (ideal : Nat) (m : Int) (s : Nat) : (dropZeros ideal m s).2 ≤ s := by
  induction s generalizing m with
  | zero => exact le_refl 0
  | succ s ih =>
    rw [dropZeros]
    split
    · exact (ih _).trans (Nat.le_succ s)
    · exact le_refl _

theorem dropZeros_noZeros {ideal : Nat} {m : Int} {s : Nat} (h : ideal < (dropZeros ideal m s).2) :
    (dropZeros ideal m s).1 % 10 ≠ 0 := by
  induction s generalizing m with
  | zero => exact absurd h (Nat.not_lt_zero _)
  | succ s ih =>
    rw [dropZeros] at h ⊢
    split at h
    next hdrop =>
      rw [if_pos hdrop]
      exact ih h
    next hdrop =>
      rw [if_neg hdrop]
      exact fun hm => hdrop ⟨h, hm⟩

theorem dropZeros_ratio (ideal : Nat) (m : Int) (s : Nat) :
    Scaled.ratio dec96 (dropZeros ideal m s).1 (dropZeros ideal m s).2 =
      Scaled.ratio dec96 m s := by
  induction s generalizing m with
  | zero => rfl
  | succ s ih =>
    rw [dropZeros]
    split
    next h =>
      rw [ih]
      obtain ⟨k, rfl⟩ := Int.dvd_of_emod_eq_zero h.2
      rw [Int.mul_ediv_cancel_left k (by decide), mul_comm]
      have hmul := Scaled.ratio_mul_pow (F := dec96) k s 1
      rw [pow_one] at hmul
      exact hmul.symm
    next => rfl

namespace Number

/-- `decimal_from_parts`.  The scale is a `u32`: what does not fit has wrapped. -/
def decimalFromParts (m : Int) (s : Nat) : Number :=
  let p := dropZeros 28 m (s % 2 ^ 32)
  if h : p.1.natAbs < 2 ^ 96 ∧ p.2 ≤ 28 then .decimal ⟨p.1, p.2, h.1, h.2⟩
  else .bigDec ⟨p.1, p.2, h, dropZeros_noZeros,
    (dropZeros_le 28 m _).trans_lt (Nat.mod_lt s (by decide))⟩

def fromBigint (n : Int) : Number :=
  match toI64 n with
  | some n => .int n
  | none => .big n

def isInteger : Number → Bool
  | int _ | big _ => true
  | _ => false

def isDecimal : Number → Bool
  | decimal _ | bigDec _ => true
  | _ => false

/-- Is the number a float? -/
def isFloat : Number → Bool
  | float _ => true
  | _ => false

def isZero : Number → Bool
  | int n => n == 0
  | big n => n == 0
  | float x => x.mag == 0
  | decimal d => d.mantissa == 0
  | bigDec _ => false

def asBigint : Number → Option Int
  | int n => some n.toInt
  | big n => some n
  | float _ => none
  | decimal d =>
    if d.mantissa % 10 ^ d.scale = 0 then some (d.mantissa / 10 ^ d.scale) else none
  | bigDec b => if b.m % 10 ^ b.s = 0 then some (b.m / 10 ^ b.s) else none

def toDecimal (R : Decimals) : Number → Option Dec
  | int n => some (Dec.ofInt64 n)
  | big n => R.fromStrExact (toString n).toList
  | decimal d => some d
  | float _ | bigDec _ => none

def exactRatio : Number → Option (Int × Nat)
  | int n => some (n.toInt, 0)
  | big n => some (n, 0)
  | decimal d => some (d.mantissa, d.scale)
  | bigDec b => some (b.m, b.s)
  | float _ => none

theorem exactRatio_lt {a : Number} {m : Int} {s : Nat} (h : a.exactRatio = some (m, s)) :
    s < 2 ^ 32 := by
  cases a with
  | decimal d =>
    cases h
    exact d.scale_le.trans_lt (by decide)
  | bigDec b =>
    cases h
    exact b.scale_lt
  | float x => cases h
  | _ =>
    cases h
    decide

def toF64 (F : Floats) : Number → F64
  | int n => F.ofInt n.toInt
  | big n => F.ofInt n
  | float x => x
  | decimal d => F.ofDec d
  | bigDec b => F.ofRatio b.m b.s

def anyFloat (a b : Number) : Bool := a.isFloat || b.isFloat

def anyDecimal (a b : Number) : Bool := a.isDecimal || b.isDecimal

def mixesDecimalFloat (a b : Number) : Bool :=
  (a.isDecimal && b.isFloat) || (a.isFloat && b.isDecimal)

/-! ## Addition, subtraction and multiplication -/

/-- `exact_op`, on `m / 10 ^ s`. -/
def exactOp (op : Op) (a b : Number) : Option Number := do
  let (ma, sa) ← a.exactRatio
  let (mb, sb) ← b.exactRatio
  match op with
  | .times => some (decimalFromParts (ma * mb) (sa + sb))
  | op =>
    let s := max sa sb
    some (decimalFromParts (op.onInt (ma * 10 ^ (s - sa)) (mb * 10 ^ (s - sb))) s)

/-- `decimal_binop`, of numbers of which one is a decimal. -/
def decimalBinop (R : Decimals) (F : Floats) (op : Op) (a b : Number) : Number :=
  let flt := float (F.op op (a.toF64 F) (b.toF64 F))
  if anyFloat a b then flt
  else
    let exact := (exactOp op a b).getD flt
    match a, b with
    | bigDec _, _ => exact
    | _, bigDec _ => exact
    | a, b =>
      match a.toDecimal R, b.toDecimal R with
      | some x, some y => ((R.checked op x y).map decimal).getD exact
      | _, _ => exact

/-- `checked_add`, `checked_sub` and `checked_mul` of a machine word. -/
def checkedI64 : Op → Int64 → Int64 → Option Int64
  | .plus => I64.checkedAdd
  | .minus => I64.checkedSub
  | .times => I64.checkedMul

/-- `add`, `sub` and `mul`, which are the same code on three operations. -/
def arith (R : Decimals) (F : Floats) (op : Op) (a b : Number) : Option Number :=
  if anyDecimal a b then some (decimalBinop R F op a b)
  else if anyFloat a b then some (float (F.op op (a.toF64 F) (b.toF64 F)))
  else
    match a, b with
    | int x, int y =>
      match checkedI64 op x y with
      | some r => some (int r)
      | none => some (fromBigint (op.onInt x.toInt y.toInt))
    | a, b => do
      let x ← a.asBigint
      let y ← b.asBigint
      some (fromBigint (op.onInt x y))

def add (R : Decimals) (F : Floats) : Number → Number → Option Number := arith R F .plus

def sub (R : Decimals) (F : Floats) : Number → Number → Option Number := arith R F .minus

def mul (R : Decimals) (F : Floats) : Number → Number → Option Number := arith R F .times

def neg : Number → Number
  | int n =>
    match I64.checkedNeg n with
    | some r => int r
    | none => fromBigint (-n.toInt)
  | big n => fromBigint (-n)
  | float x => float { x with neg := !x.neg }
  | decimal d =>
    decimal { d with
      mantissa := -d.mantissa
      mantissa_lt := Dec.natAbs_neg_lt d }
  | bigDec b =>
    bigDec { b with
      m := -b.m
      noRoom := by rw [Int.natAbs_neg]; exact b.noRoom
      noZeros := fun h hm => b.noZeros h
        (Int.emod_eq_zero_of_dvd (Int.dvd_neg.mp (Int.dvd_of_emod_eq_zero hm))) }

/-! ## Remainders, quotients and powers -/

def commonScale (a b : Number) : Option (Int × Int × Nat) := do
  let (ma, sa) ← a.exactRatio
  let (mb, sb) ← b.exactRatio
  let s := max sa sb
  some (ma * 10 ^ (s - sa), mb * 10 ^ (s - sb), s)

/-- `py_float_divmod`: the quotient and the remainder. -/
def pyFloatDivmod (F : Floats) (vx wx : F64) : F64 × F64 :=
  let zero := F64.round false 0
  let isNegative (x : F64) : Bool := x.neg && x.mag != 0 && !x.isNan
  let m := F.rem vx wx
  let div := F.div (F.op .minus vx m) wx
  let p :=
    if m.mag != 0 then
      if isNegative wx != isNegative m then (F.op .plus m wx, F.op .minus div (F64.round false 1))
      else (m, div)
    else (F.copysign zero wx, div)
  let floordiv :=
    if p.2.mag != 0 then
      let f := F.floor p.2
      if F64.partialCmp (F.op .minus p.2 f) (F64.round false (1 / 2)) = some .gt then
        F.op .plus f (F64.round false 1)
      else f
    else F.copysign zero (F.div vx wx)
  (floordiv, p.1)

/-- `modulo`; nothing where the processor would trap. -/
def modulo (F : Floats) (a b : Number) : Option (Option Number) :=
  if anyDecimal a b && !anyFloat a b then
    some (do
      let (x, y, s) ← commonScale a b
      if y = 0 then none else some (decimalFromParts (x.fmod y) s))
  else if anyFloat a b then
    if (b.toF64 F).mag = 0 then some none
    else some (some (float (pyFloatDivmod F (a.toF64 F) (b.toF64 F)).2))
  else
    match a, b with
    | int x, int y =>
      if y = 0 then some none
      else if y = -1 then some (some (int 0))
      else (I64.modFloor x y).map fun r => some (int r)
    | a, b => do
      let y ← b.asBigint
      if y = 0 then some none
      else
        let x ← a.asBigint
        some (some (fromBigint (x.fmod y)))

/-- `floor_div`; nothing where the processor would trap. -/
def floorDiv (F : Floats) (a b : Number) : Option (Option Number) :=
  if b.isZero then some none
  else if anyDecimal a b && !anyFloat a b then
    some (do
      let (x, y, _) ← commonScale a b
      some (decimalFromParts (x.fdiv y) 0))
  else if anyFloat a b then
    some (some (float (pyFloatDivmod F (a.toF64 F) (b.toF64 F)).1))
  else
    match a, b with
    | int x, int y =>
      match I64.checkedDivEuclid x y with
      | some _ => (I64.divFloor x y).map fun r => some (int r)
      | none => some (some (fromBigint (x.toInt.fdiv y.toInt)))
    | a, b => some (do
        let x ← a.asBigint
        let y ← b.asBigint
        some (fromBigint (x.fdiv y)))

def pow (F : Floats) (a b : Number) : Option Number :=
  let flt := float (F.pow (a.toF64 F) (b.toF64 F))
  if a.isInteger && b.isInteger then
    match b.asBigint with
    | some exp =>
      if 0 ≤ exp then
        -- the power is taken where the exponent is a `u32`
        if exp < 2 ^ 32 then a.asBigint.map fun base => fromBigint (base ^ exp.toNat)
        else some flt
      else some flt
    | none => some flt
  else some flt

/-! ## Comparisons -/

/-- `cmp_ratio`, of `m / 10 ^ s`. -/
def cmpRatio (a b : Int × Nat) : Ordering :=
  let s := max a.2 b.2
  compare (a.1 * 10 ^ (s - a.2)) (b.1 * 10 ^ (s - b.2))

def cmpIntBig : Number → Number → Ordering
  | int x, int y => compare x.toInt y.toInt
  | big x, big y => compare x y
  | int x, big y => smallBig x y
  | big x, int y => (smallBig y x).swap
  | a, b =>
    match a.asBigint, b.asBigint with
    | some x, some y => compare x y
    | some _, none => .gt
    | none, some _ => .lt
    | none, none => .eq
where
  /-- A machine word and an integer of any size: one that is no machine word is above or below
  by its sign. -/
  smallBig (x : Int64) (y : Int) : Ordering :=
    match toI64 y with
    | some y => compare x.toInt y.toInt
    | none => if y < 0 then .gt else .lt

/-- `cmp_i64_float`: past the machine words by the sign, and else by the floor. -/
def cmpI64Float (i : Int64) (f : F64) : Option Ordering :=
  if f.isNan then none
  else if ((2 ^ 63 : ℚ) : WithTop ℚ) ≤ f.value then some .lt
  else if f.value < ((-2 ^ 63 : ℚ) : WithTop ℚ) then some .gt
  else
    let fl := ⌊f.toRat⌋
    match compare i.toInt (Int64.ofInt fl).toInt with
    | .lt => some .lt
    | .gt => some .gt
    | .eq => some (if (fl : ℚ) = f.toRat then .eq else .lt)

def cmpIntFloat (i : Int) (f : F64) : Option Ordering :=
  if f.isNan then none
  else if f.isInfinite then some (if f.neg then .gt else .lt)
  else
    let fl := ⌊f.toRat⌋
    match compare i fl with
    | .lt => some .lt
    | .gt => some .gt
    | .eq => some (if (fl : ℚ) = f.toRat then .eq else .lt)

/-- `partial_cmp_num`; what is no number has no order. -/
def partialCmpNum (R : Decimals) (a b : Number) : Option Ordering :=
  match a, b with
  | int x, int y => some (compare x.toInt y.toInt)
  | a, b =>
    if mixesDecimalFloat a b then none
    else if anyDecimal a b then
      match a.toDecimal R, b.toDecimal R with
      | some x, some y => some (R.cmp x y)
      | _, _ => do
        let x ← a.exactRatio
        let y ← b.exactRatio
        some (cmpRatio x y)
    else
      match a, b with
      | float x, float y => F64.partialCmp x y
      | float x, int i => (cmpI64Float i x).map Ordering.swap
      | int i, float y => cmpI64Float i y
      | float x, b => b.asBigint.bind fun i => (cmpIntFloat i x).map Ordering.swap
      | a, float y => a.asBigint.bind fun i => cmpIntFloat i y
      | a, b => some (cmpIntBig a b)

def numEq (R : Decimals) (a b : Number) : Bool :=
  match a, b with
  | int x, int y => x == y
  | a, b =>
    if mixesDecimalFloat a b then false
    else if anyDecimal a b then
      match a.toDecimal R, b.toDecimal R with
      | some x, some y => R.cmp x y == .eq
      | _, _ =>
        match a.exactRatio, b.exactRatio with
        | some x, some y => cmpRatio x y == .eq
        | _, _ => false
    else
      match a, b with
      | float x, float y => F64.partialCmp x y == some .eq
      | float x, int i => cmpI64Float i x == some .eq
      | int i, float x => cmpI64Float i x == some .eq
      | float x, b => b.asBigint.any fun i => cmpIntFloat i x == some .eq
      | a, float y => a.asBigint.any fun i => cmpIntFloat i y == some .eq
      | a, b => cmpIntBig a b == .eq

end Number

/-! ## A decimal arithmetic -/

namespace Reference

/-- The exact result of an operation, as a mantissa and a scale. -/
def exactParts (op : Op) (x y : Dec) : Int × Nat :=
  match op with
  | .times => (x.mantissa * y.mantissa, x.scale + y.scale)
  | op =>
    let s := max x.scale y.scale
    (op.onInt (x.mantissa * 10 ^ (s - x.scale)) (y.mantissa * 10 ^ (s - y.scale)), s)

/-- A quotient with as many decimal places up to `s` as there is room for. -/
def quotient (num den : Int) : Nat → Option Dec
  | 0 => Scaled.Num.ofParts? dec96 (Scaled.halfEven num den) 0
  | s + 1 =>
    (Scaled.Num.ofParts? dec96 (Scaled.halfEven (num * 10 ^ (s + 1)) den) (s + 1)).or
      (quotient num den s)

/-- Decimals that round to the nearest one with the most decimal places, and to the integer part
where there is room for nothing more. -/
def decimals : Decimals where
  checked op x y :=
    let p := exactParts op x y
    (Scaled.round dec96 p.1 p.2).or (Scaled.Num.ofParts? dec96 (p.1.tdiv (10 ^ p.2)) 0)
  checkedDiv x y :=
    if y.mantissa = 0 then none
    else
      let num := x.mantissa * 10 ^ y.scale
      let den := y.mantissa * 10 ^ x.scale
      if den < 0 then quotient (-num) (-den) 28 else quotient num den 28
  cmp x y := compare (x.mantissa * 10 ^ y.scale) (y.mantissa * 10 ^ x.scale)
  fromStrExact := Synsema.Reference.fromStrExact
  display d := fmtScaled d.mantissa d.scale

/-- The float nearest to a rational number. -/
def nearest (q : ℚ) : F64 := F64.round (q < 0) |q|

/-- Floats that round to the nearest one, on finite numbers and integral exponents. -/
def floats : Floats where
  op o x y := nearest (match o with
    | .plus => x.toRat + y.toRat
    | .minus => x.toRat - y.toRat
    | .times => x.toRat * y.toRat)
  div x y := nearest (x.toRat / y.toRat)
  rem x y :=
    let q := x.toRat / y.toRat
    nearest (x.toRat - y.toRat * (if q < 0 then ⌈q⌉ else ⌊q⌋))
  pow x y := nearest (x.toRat ^ ⌊y.toRat⌋)
  floor x := nearest ⌊x.toRat⌋
  copysign x y := { x with neg := y.neg }
  ofInt n := nearest n
  ofDec d := nearest d.value
  ofRatio m s := nearest (m / 10 ^ s)

end Reference

end Synsema.Arith
