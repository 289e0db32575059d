import Synsema.Lib.Scaled
import Synsema.Text
import Mathlib.Data.Nat.Digits.Defs

/-!
# Numbers

The numbers of a program (`synsema-core/src/number.rs`) as far as the ledger reads them,
and the exact decimals they become.

The decimals are those of the crate `rust_decimal`: 96 bits of mantissa and up to 28
decimal places.  The crate is not part of the repository, so that its operations are a
parameter (`RustDecimal`), with what it documents of them (`RustDecimal.Lawful`).
-/

namespace Synsema

open Text List

/-- The decimals: a mantissa of 96 bits and a scale of up to 28. -/
def dec96 : Scaled.Format := { base := 10, base_gt := by decide, bound := 2 ^ 96, maxScale := 28 }

/-- `rust_decimal::Decimal`, without the sign of a zero. -/
abbrev Dec := Scaled.Num dec96

namespace Dec

/-- `Decimal::ZERO`. -/
def zero : Dec := { mantissa := 0, scale := 0, mantissa_lt := by decide, scale_le := by decide }

/-- `Decimal::from`, of a machine integer. -/
def ofInt64 (n : Int64) : Dec where
  mantissa := n.toInt
  scale := 0
  mantissa_lt := by
    have h₁ : -2 ^ 63 ≤ n.toInt := n.le_toInt
    have h₂ : n.toInt < 2 ^ 63 := n.toInt_lt
    show n.toInt.natAbs < 2 ^ 96
    omega
  scale_le := Nat.zero_le _

/-- The mantissa and the scale without the trailing zeros of the decimal places. -/
def stripZeros (m : Int) : Nat → Int × Nat
  | 0 => (m, 0)
  | s + 1 => if m % 10 = 0 then stripZeros (m / 10) s else (m, s + 1)

theorem stripZeros_le (m : Int) (s : Nat) :
    (stripZeros m s).1.natAbs ≤ m.natAbs ∧ (stripZeros m s).2 ≤ s := by
  induction s generalizing m with
  | zero => exact ⟨le_refl _, le_refl _⟩
  | succ s ih =>
    unfold stripZeros
    split
    · obtain ⟨hm, hs⟩ := ih (m / 10)
      omega
    · exact ⟨le_refl _, le_refl _⟩

/-- `Decimal::normalize`. -/
def normalize (d : Dec) : Dec where
  mantissa := (stripZeros d.mantissa d.scale).1
  scale := (stripZeros d.mantissa d.scale).2
  mantissa_lt := (stripZeros_le _ _).1.trans_lt d.mantissa_lt
  scale_le := (stripZeros_le _ _).2.trans d.scale_le

@[simp] theorem value_zero : Dec.zero.value = 0 := by
  simp [Dec.zero, Scaled.Num.value, Scaled.ratio]

theorem natAbs_neg_lt (d : Dec) : (-d.mantissa).natAbs < dec96.bound := by
  rw [Int.natAbs_neg]
  exact d.mantissa_lt

theorem natAbs_one_lt : (1 : Int).natAbs < dec96.bound := by decide

theorem one_le_maxScale : 1 ≤ dec96.maxScale := by decide

end Dec

/-- Is the rational number a decimal? -/
abbrev Representable (q : ℚ) : Prop := Scaled.Representable dec96 q

/-- The operations of `rust_decimal`. -/
structure RustDecimal where
  checkedAdd : Dec → Dec → Option Dec
  sub : Dec → Dec → Dec
  fromStr : Text → Option Dec
  fromStrExact : Text → Option Dec
  fromScientific : Text → Option Dec
  display : Dec → Text

/-- What the crate documents: a sum that a decimal can hold is exact, and where the exact
reading of a text accepts it, the reading that rounds gives the same. -/
structure RustDecimal.Lawful (R : RustDecimal) : Prop where
  checkedAdd_exact : ∀ a b : Dec, Representable (a.value + b.value) →
    ∃ c, R.checkedAdd a b = some c ∧ c.value = a.value + b.value
  fromStr_of_exact : ∀ t d, R.fromStrExact t = some d → R.fromStr t = some d

/-- What the crate documents of signs: the sign of a decimal is that of its text. -/
def RustDecimal.ReadsSigns (R : RustDecimal) : Prop :=
  ∀ t d, R.fromStrExact t = some d ∨ R.fromScientific t = some d → t.head? ≠ some '-' →
    0 ≤ d.value

/-- What the crate documents of texts: the text of a decimal is read back as its value. -/
def RustDecimal.ReadsDisplay (R : RustDecimal) : Prop :=
  ∀ d, ∃ d', R.fromStr (R.display d) = some d' ∧ d'.value = d.value

/-! ## Numbers of a program -/

/-- A floating-point number, as what the ledger reads of it. -/
structure Float where
  /-- `x == 0.0`. -/
  isZero : Bool
  /-- `x < 0.0`. -/
  isNegative : Bool
  /-- `py_float_str`. -/
  text : Text
  /-- Only the text of a negative number, or of a zero, has a sign. -/
  head_text : isNegative = false → isZero = false → text.head? ≠ some '-'

/-- A number of a program. -/
inductive Number where
  | int (n : Int64)
  | big (n : Int)
  | float (x : Float)
  | decimal (d : Dec)
  /-- A decimal that `rust_decimal` has no room for: `m / 10 ^ s`. -/
  | bigDec (m : Int) (s : Nat)

/-- The digits of `m / 10 ^ s`. -/
def fmtScaled (m : Int) (s : Nat) : Text :=
  if s = 0 then (toString m).toList
  else
    let digits := (toString m.natAbs).toList
    let padded := if digits.length ≤ s then replicate (s - digits.length + 1) '0' ++ digits
      else digits
    let i := padded.length - s
    (if m < 0 then ['-'] else []) ++ padded.take i ++ ['.'] ++ padded.drop i

namespace Number

def isZero : Number → Bool
  | int n => n == 0
  | big n => n == 0
  | float x => x.isZero
  | decimal d => d.mantissa == 0
  | bigDec .. => false

def isNegative : Number → Bool
  | int n => n < 0
  | big n => n < 0
  | float x => x.isNegative
  | decimal d => d.mantissa < 0
  | bigDec m _ => m < 0

/-- The number as the program shows it. -/
def display (R : RustDecimal) : Number → Text
  | int n => (toString n.toInt).toList
  | big n => (toString n).toList
  | float x => x.text
  | decimal d => R.display d
  | bigDec m s => fmtScaled m s

/-- `to_decimal`: the number as a decimal when it is one. -/
def toDecimal (R : RustDecimal) : Number → Option Dec
  | int n => some (Dec.ofInt64 n)
  | big n => R.fromStrExact (toString n).toList
  | decimal d => some d
  | float _ => none
  | bigDec .. => none

theorem neg_not_mem_toString (n : Nat) : '-' ∉ (toString n).toList := by
  intro h
  rw [Nat.toString_eq_repr, Nat.toList_repr] at h
  exact absurd (Nat.isDigit_of_mem_toDigits (by decide) (by decide) h) (by decide)

variable {m : Int} {R : RustDecimal} {n : Number}

theorem neg_not_mem_toString_int (hm : 0 ≤ m) : '-' ∉ (toString m).toList := by
  obtain ⟨k, rfl⟩ := Int.eq_ofNat_of_zero_le hm
  exact neg_not_mem_toString k

theorem neg_not_mem_fmtScaled (hm : 0 ≤ m) (s : Nat) : '-' ∉ fmtScaled m s := by
  have hdigits := neg_not_mem_toString m.natAbs
  unfold fmtScaled
  split
  · exact neg_not_mem_toString_int hm
  · have hpadded : '-' ∉ (if (toString m.natAbs).toList.length ≤ s then
        replicate (s - (toString m.natAbs).toList.length + 1) '0' ++
          (toString m.natAbs).toList
        else (toString m.natAbs).toList) := by
      split
      · rw [mem_append, not_or]
        exact ⟨by simp [mem_replicate], hdigits⟩
      · exact hdigits
    have hneg : ¬ m < 0 := not_lt.mpr hm
    intro h
    simp only [hneg, if_false, nil_append, mem_append, mem_singleton] at h
    rcases h with (h | h) | h
    · exact hpadded (mem_of_mem_take h)
    · cases h
    · exact hpadded (mem_of_mem_drop h)

theorem head_display (hneg : n.isNegative = false) (hzero : n.isZero = false)
    (hdec : n.toDecimal R = none) : (n.display R).head? ≠ some '-' := by
  have hmem : ∀ {l : Text}, '-' ∉ l → l.head? ≠ some '-' :=
    fun h hhead => h (mem_of_mem_head? hhead)
  cases n with
  | int n | decimal d => cases hdec
  | big n => exact hmem (neg_not_mem_toString_int (by simpa [isNegative] using hneg))
  | float x => exact x.head_text hneg hzero
  | bigDec m s => exact hmem (neg_not_mem_fmtScaled (by simpa [isNegative] using hneg) s)

theorem toDecimal_nonneg (hR : R.ReadsSigns) (hneg : n.isNegative = false) {d : Dec}
    (h : n.toDecimal R = some d) : 0 ≤ d.value := by
  cases n with
  | int n =>
    cases h
    rw [Scaled.Num.value_nonneg_iff]
    show 0 ≤ n.toInt
    have hle : ¬ n < 0 := by simpa [isNegative] using hneg
    rw [Int64.lt_iff_toInt_lt] at hle
    simpa using hle
  | big n =>
    have hn : 0 ≤ n := by simpa [isNegative] using hneg
    exact hR _ d (.inl h) fun hhead =>
      neg_not_mem_toString_int hn (mem_of_mem_head? hhead)
  | float x | bigDec m s => cases h
  | decimal d' =>
    cases h
    rw [Scaled.Num.value_nonneg_iff]
    simpa [isNegative] using hneg

/-- `type_name` of a number. -/
def typeName : Number → Text
  | decimal _ => "decimal"
  | bigDec .. => "decimal"
  | _ => "number"

end Number

/-! ## A decimal arithmetic -/

namespace Reference

/-- The mantissa and the number of decimal places of a text such as `-12.50`. -/
def parts (t : Text) : Option (Int × Nat) :=
  let (neg, body) := match t with
    | '-' :: r => (true, r)
    | '+' :: r => (false, r)
    | r => (false, r)
  let (i, f) := (splitOnce '.' body).getD (body, [])
  if i.isEmpty && f.isEmpty || !allDigits (i ++ f) then none
  else
    let m : Int := Nat.ofDigits 10 ((i ++ f).reverse.map fun c => c.toNat - '0'.toNat)
    some (if neg then -m else m, f.length)

/-- The decimal of a text with no more digits than there is room for. -/
def fromStrExact (t : Text) : Option Dec :=
  (parts t).bind fun (m, s) => Scaled.Num.ofParts? dec96 m s

/-- The decimal of a text, rounded. -/
def fromStr (t : Text) : Option Dec :=
  (fromStrExact t).or ((parts t).bind fun (m, s) => Scaled.round dec96 m s)

/-- The decimal of a text with a negative exponent. -/
def fromScientific (t : Text) : Option Dec :=
  (splitOnceStr "e-" t).bind fun (base, exp) =>
    (fromStr base).bind fun d => (parts exp).bind fun (e, _) =>
      Scaled.Num.ofParts? dec96 d.mantissa (d.scale + e.toNat)

/-- Decimals that round as `Scaled.add` does. -/
def rustDecimal : RustDecimal where
  checkedAdd := Scaled.add
  sub a b := (Scaled.add a { b with
    mantissa := -b.mantissa, mantissa_lt := Dec.natAbs_neg_lt b }).getD a
  fromStr := fromStr
  fromStrExact := fromStrExact
  fromScientific := fromScientific
  display d := fmtScaled d.mantissa d.scale

theorem rustDecimal_lawful : rustDecimal.Lawful where
  checkedAdd_exact _ _ h := Scaled.exists_add_eq h
  fromStr_of_exact t d h := by
    have hexact : fromStrExact t = some d := h
    show fromStr t = some d
    rw [fromStr, hexact]
    rfl

variable {t : Text} {d : Dec}

theorem parts_nonneg (ht : t.head? ≠ some '-') {m : Int} {s : Nat} (h : parts t = some (m, s)) :
    0 ≤ m := by
  unfold parts at h
  split at h
  rename_i neg body hsign
  have hneg : neg = false := by
    split at hsign
    · exact absurd rfl ht
    · cases hsign
      rfl
    · cases hsign
      rfl
  subst hneg
  dsimp only at h
  split at h
  · cases h
  · simp only [Bool.false_eq_true, if_false, Option.some.injEq, Prod.mk.injEq] at h
    have hcast := Nat.coe_ofDigits ℤ 10 (List.map (fun c => c.toNat - '0'.toNat)
      (((splitOnce '.' body).getD (body, [])).1 ++ ((splitOnce '.' body).getD (body, [])).2).reverse)
    rw [← h.1]
    exact hcast ▸ Int.natCast_nonneg _

theorem fromStrExact_nonneg (ht : t.head? ≠ some '-') (h : fromStrExact t = some d) :
    0 ≤ d.value := by
  obtain ⟨⟨m, s⟩, hparts, hd⟩ := Option.bind_eq_some_iff.mp h
  exact Scaled.Num.nonneg_of_ofParts? (parts_nonneg ht hparts) hd

theorem fromStr_nonneg (ht : t.head? ≠ some '-') (h : fromStr t = some d) : 0 ≤ d.value := by
  rcases Option.or_eq_some_iff.mp h with h | ⟨-, h⟩
  · exact fromStrExact_nonneg ht h
  · obtain ⟨⟨m, s⟩, hparts, hd⟩ := Option.bind_eq_some_iff.mp h
    exact Scaled.dropDigits_nonneg (parts_nonneg ht hparts) hd

theorem head_splitOnceStr {sep l r : Text} (ht : t.head? ≠ some '-')
    (h : splitOnceStr sep t = some (l, r)) : l.head? ≠ some '-' := by
  cases t with
  | nil =>
    obtain ⟨r', -, heq⟩ := Option.map_eq_some_iff.mp h
    cases heq
    simp
  | cons c t =>
    unfold splitOnceStr at h
    split at h
    · cases h
      simp
    · obtain ⟨p, -, heq⟩ := Option.map_eq_some_iff.mp h
      cases heq
      exact ht

theorem rustDecimal_readsSigns : rustDecimal.ReadsSigns := by
  rintro t d (h | h) ht
  · exact fromStrExact_nonneg ht h
  · obtain ⟨⟨base, exp⟩, hsplit, h⟩ := Option.bind_eq_some_iff.mp h
    obtain ⟨b, hb, h⟩ := Option.bind_eq_some_iff.mp h
    obtain ⟨e, -, h⟩ := Option.bind_eq_some_iff.mp h
    have hbase : 0 ≤ b.value := fromStr_nonneg (head_splitOnceStr ht hsplit) hb
    exact Scaled.Num.nonneg_of_ofParts? (Scaled.Num.value_nonneg_iff.mp hbase) h

theorem ofDigits_reverse (l : Text) :
    Nat.ofDigits (10 : ℤ) (l.reverse.map fun c => c.toNat - '0'.toNat) =
      Nat.ofDigitChars 10 l 0 := by
  induction l using List.reverseRecOn with
  | nil => rfl
  | append_singleton l c ih =>
    rw [reverse_concat, map_cons, Nat.ofDigitChars_append, Nat.ofDigitChars_cons,
      Nat.ofDigitChars_nil]
    show ((c.toNat - '0'.toNat : Nat) : ℤ) + 10 * Nat.ofDigits (10 : ℤ) _ = _
    rw [ih]
    push_cast
    ring

theorem parts_eq (m : Int) (i f : Text) (point : Bool) (hi : i ≠ []) (hdigits : allDigits (i ++ f))
    (hf : point = false → f = []) (hm : Nat.ofDigitChars 10 (i ++ f) 0 = m.natAbs) :
    parts (sign m ++ i ++ if point then '.' :: f else []) = some (m, f.length) := by
  have hpoint : '.' ∉ i := by
    intro h
    have := all_eq_true.mp hdigits '.' (mem_append_left _ h)
    cases this
  have hsplit : (splitOnce '.' (i ++ if point then '.' :: f else [])).getD
      (i ++ (if point then '.' :: f else []), []) = (i, f) := by
    cases point with
    | false => simp [splitOnce_eq_none_iff.mpr hpoint, hf rfl]
    | true => simp [splitOnce_append hpoint]
  obtain ⟨c, i, rfl⟩ := exists_cons_of_ne_nil hi
  have hc : c.isDigit := all_eq_true.mp hdigits c (by simp)
  have hsign : c ≠ '-' ∧ c ≠ '+' := by
    constructor <;> rintro rfl <;> cases hc
  have hm' : Nat.ofDigits (10 : ℤ) ((c :: i ++ f).reverse.map fun c => c.toNat - '0'.toNat) =
      m.natAbs := by rw [ofDigits_reverse, hm]
  have hbody : parts (sign m ++ c :: i ++ if point then '.' :: f else []) =
      some (if decide (m < 0) then -(m.natAbs : ℤ) else m.natAbs, f.length) := by
    unfold parts
    split
    rename_i neg body heq
    obtain ⟨rfl, rfl⟩ : neg = decide (m < 0) ∧ body = c :: i ++ if point then '.' :: f else [] := by
      by_cases hneg : m < 0
      · simp only [sign, if_pos hneg, cons_append, nil_append] at heq
        cases heq
        exact ⟨(decide_eq_true hneg).symm, rfl⟩
      · simp only [sign, if_neg hneg, cons_append, nil_append] at heq
        split at heq
        next h => exact absurd (cons.inj h).1 hsign.1
        next h => exact absurd (cons.inj h).1 hsign.2
        next =>
          cases heq
          exact ⟨(decide_eq_false hneg).symm, rfl⟩
    simp only [hsplit, hdigits, hm', isEmpty_cons, Bool.false_and, Bool.not_true, Bool.or_self,
      Bool.false_eq_true, if_false]
  rw [hbody]
  congr 2
  split
  next h =>
    have hneg := of_decide_eq_true h
    omega
  next h =>
    have hneg := of_decide_eq_false (Bool.eq_false_iff.mpr h)
    omega

theorem parts_fmtScaled (m : Int) (s : Nat) : parts (fmtScaled m s) = some (m, s) := by
  unfold fmtScaled
  split
  next hs =>
    rw [toString_eq]
    have hparts := parts_eq m (digits m.natAbs) [] false (digits_ne_nil _)
      (by simpa using allDigits_digits _) (fun _ => rfl) (by simpa using ofDigitChars_digits _)
    simpa [hs] using hparts
  next hs =>
    dsimp only
    generalize hpadded : (if (toString m.natAbs).toList.length ≤ s then
      replicate (s - (toString m.natAbs).toList.length + 1) '0' ++ (toString m.natAbs).toList
      else (toString m.natAbs).toList) = padded
    have hlen : s < padded.length := by
      rw [← hpadded]
      split
      next h =>
        rw [length_append, length_replicate]
        omega
      next h => exact not_le.mp h
    have hvalue : Nat.ofDigitChars 10 padded 0 = m.natAbs := by
      rw [← hpadded]
      split
      · rw [Nat.ofDigitChars_append, Nat.ofDigitChars_replicate_zero, Nat.mul_zero]
        exact ofDigitChars_digits _
      · exact ofDigitChars_digits _
    have hdigits : allDigits padded := by
      rw [← hpadded]
      split
      · rw [allDigits, all_append, all_replicate]
        simp only [Bool.and_eq_true]
        exact ⟨by simp, allDigits_digits _⟩
      · exact allDigits_digits _
    have htake : padded.take (padded.length - s) ≠ [] := by
      rw [Ne, take_eq_nil_iff]
      rintro (h | rfl)
      · omega
      · cases hlen
    have hparts := parts_eq m (padded.take (padded.length - s)) (padded.drop (padded.length - s))
      true htake (by rwa [take_append_drop]) (fun h => Bool.noConfusion h)
      (by rwa [take_append_drop])
    rw [length_drop, Nat.sub_sub_self hlen.le] at hparts
    simpa using hparts

theorem rustDecimal_readsDisplay : rustDecimal.ReadsDisplay := by
  intro d
  refine ⟨d, ?_, rfl⟩
  have hexact : fromStrExact (fmtScaled d.mantissa d.scale) = some d := by
    rw [fromStrExact, parts_fmtScaled, Option.bind_some]
    simp [Scaled.Num.ofParts?, d.mantissa_lt, d.scale_le]
  show fromStr (fmtScaled d.mantissa d.scale) = some d
  rw [fromStr, hexact]
  rfl

end Reference

end Synsema
