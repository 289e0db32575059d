import Mathlib.Data.Rat.Floor

/-!
# Scaled numbers

A *scaled number* is a mantissa over a power of a base, both bounded: the decimals of a
fixed number of bits.  A rational number is *representable* when it is the value of one.

Rounding drops digits until the mantissa fits.  It is exact on what is representable
(`exists_round_eq`), so that a sum of two scaled numbers is rounded only when the exact sum
has no representation.
-/

namespace Scaled

/-- The bounds of a scaled number. -/
structure Format where
  base : Nat
  base_gt : 1 < base
  /-- The mantissas are below, in absolute value. -/
  bound : Nat
  maxScale : Nat

/-- A number of the format: `mantissa / base ^ scale`. -/
@[ext] structure Num (F : Format) where
  mantissa : Int
  scale : Nat
  mantissa_lt : mantissa.natAbs < F.bound
  scale_le : scale ≤ F.maxScale
deriving DecidableEq

variable {F : Format}

theorem Format.base_pow_pos (F : Format) (k : Nat) : (0 : Int) < (F.base : Int) ^ k := by
  have := F.base_gt
  positivity

theorem Format.base_pow_pos' (F : Format) (k : Nat) : (0 : ℚ) < (F.base : ℚ) ^ k := by
  have hpos : (0 : ℚ) < F.base := by exact_mod_cast Nat.zero_lt_of_lt F.base_gt
  exact pow_pos hpos k

/-- The rational number that `m` over the `s`-th power of the base is. -/
def ratio (F : Format) (m : Int) (s : Nat) : ℚ := m / (F.base : ℚ) ^ s

namespace Num

/-- The value of a scaled number. -/
def value (a : Num F) : ℚ := ratio F a.mantissa a.scale

/-- Is there room for the mantissa and the scale? -/
def ofParts? (F : Format) (m : Int) (s : Nat) : Option (Num F) :=
  if h : m.natAbs < F.bound ∧ s ≤ F.maxScale then some ⟨m, s, h.1, h.2⟩ else none

/-- The comparison of two numbers, by their mantissas at a common scale. -/
def lt (a b : Num F) : Bool :=
  a.mantissa * (F.base : Int) ^ b.scale < b.mantissa * (F.base : Int) ^ a.scale

end Num

/-- A rational number with a scaled number. -/
def Representable (F : Format) (q : ℚ) : Prop := ∃ a : Num F, a.value = q

theorem Num.representable (a : Num F) : Representable F a.value := ⟨a, rfl⟩

/-! ## Scales -/

variable {m n d : Int} {s : Nat} {a : Num F}

variable {t : Nat} {b : Num F} {q : ℚ}

theorem ratio_eq_ratio_iff :
    ratio F m s = ratio F n t ↔ m * (F.base : Int) ^ t = n * (F.base : Int) ^ s := by
  unfold ratio
  rw [div_eq_div_iff (F.base_pow_pos' s).ne' (F.base_pow_pos' t).ne']
  exact_mod_cast Iff.rfl

theorem ratio_mul_pow (m : Int) (s k : Nat) :
    ratio F (m * (F.base : Int) ^ k) (s + k) = ratio F m s := by
  rw [ratio_eq_ratio_iff, pow_add]
  ring

theorem ratio_add (m n : Int) (s : Nat) : ratio F m s + ratio F n s = ratio F (m + n) s := by
  unfold ratio
  rw [← add_div]
  push_cast
  rfl

theorem ratio_at (h : s ≤ t) : ratio F m s = ratio F (m * (F.base : Int) ^ (t - s)) t := by
  conv_rhs => rw [← Nat.add_sub_of_le h]
  rw [Nat.add_sub_cancel_left]
  exact (ratio_mul_pow m s (t - s)).symm

theorem Num.lt_iff : a.lt b ↔ a.value < b.value := by
  unfold lt value ratio
  rw [div_lt_div_iff₀ (F.base_pow_pos' _) (F.base_pow_pos' _), decide_eq_true_iff]
  exact_mod_cast Iff.rfl

/-! ## Rounding -/

/-- The integer nearest to `m / d`, the even one of two. -/
def halfEven (m d : Int) : Int :=
  let q := m / d
  let r := 2 * (m % d)
  if r < d then q else if d < r then q + 1 else if q % 2 = 0 then q else q + 1

theorem halfEven_of_dvd (hd : 0 < d) (h : d ∣ m) : halfEven m d = m / d := by
  have hr : m % d = 0 := Int.emod_eq_zero_of_dvd h
  simp [halfEven, hr, hd]

theorem two_mul_abs_halfEven_le (m : Int) (hd : 0 < d) : 2 * |halfEven m d * d - m| ≤ d := by
  have hmod := Int.emod_add_mul_ediv m d
  have hnonneg := Int.emod_nonneg m hd.ne'
  have hlt := Int.emod_lt_of_pos m hd
  have hdown : m / d * d - m = -(m % d) := by linarith [mul_comm (m / d) d]
  have hup : (m / d + 1) * d - m = d - m % d := by linarith [mul_comm (m / d) d]
  unfold halfEven
  dsimp only
  split_ifs with h₁ h₂ h₃
  · rw [hdown, abs_neg, abs_of_nonneg hnonneg]
    exact h₁.le
  · rw [hup, abs_of_nonneg (by omega)]
    omega
  · rw [hdown, abs_neg, abs_of_nonneg hnonneg]
    exact not_lt.mp h₂
  · rw [hup, abs_of_nonneg (by omega)]
    omega

theorem abs_halfEven_sub_le (m : Int) (hd : 0 < d) : |(halfEven m d : ℚ) - m / d| ≤ 1 / 2 := by
  have hdq : (0 : ℚ) < d := Int.cast_pos.mpr hd
  have h : 2 * |(halfEven m d : ℚ) * d - m| ≤ d := by exact_mod_cast two_mul_abs_halfEven_le m hd
  have heq : (halfEven m d : ℚ) - m / d = (halfEven m d * d - m) / d := by
    rw [sub_div, mul_div_cancel_right₀ _ hdq.ne']
  rw [heq, abs_div, abs_of_pos hdq, div_le_iff₀ hdq]
  linarith

theorem le_halfEven (hd : 0 < d) (h : n * d ≤ m) : n ≤ halfEven m d := by
  have hq : n ≤ m / d := (Int.le_ediv_iff_mul_le hd).mpr h
  unfold halfEven
  dsimp only
  split_ifs <;> omega

theorem halfEven_le (hd : 0 < d) (h : m ≤ n * d) : halfEven m d ≤ n := by
  have hmod := Int.emod_add_mul_ediv m d
  have hnonneg := Int.emod_nonneg m hd.ne'
  have hq : m / d ≤ n := Int.ediv_le_of_le_mul hd h
  have hlast : m / d = n → m % d = 0 := by
    intro heq
    rw [heq] at hmod
    linarith [mul_comm n d]
  unfold halfEven
  dsimp only
  split_ifs <;> omega

/-- The integer nearest to a rational number, the even one of two. -/
def nearest (q : ℚ) : Int :=
  let k := ⌊q⌋
  if q - k < 1 / 2 then k else if 1 / 2 < q - k then k + 1 else if k % 2 = 0 then k else k + 1

theorem halfEven_eq_nearest (m : Int) (hd : 0 < d) : halfEven m d = nearest (m / d) := by
  have hdq : (0 : ℚ) < d := Int.cast_pos.mpr hd
  have hfloor : ⌊(m / d : ℚ)⌋ = m / d := by
    obtain ⟨n, rfl⟩ := Int.eq_ofNat_of_zero_le hd.le
    exact Rat.floor_intCast_div_natCast m n
  have hrest : (m / d : ℚ) - (m / d : Int) = (m % d : Int) / d := by
    have hmod : ((m % d : Int) : ℚ) + d * (m / d : Int) = m := by
      exact_mod_cast Int.emod_add_mul_ediv m d
    rw [sub_eq_iff_eq_add, ← hmod, add_div, mul_div_cancel_left₀ _ hdq.ne']
  have hdown : 2 * (m % d) < d ↔ ((m % d : Int) : ℚ) / d < 1 / 2 := by
    rw [div_lt_div_iff₀ hdq two_pos, one_mul, mul_comm]
    exact_mod_cast Iff.rfl
  have hup : d < 2 * (m % d) ↔ 1 / 2 < ((m % d : Int) : ℚ) / d := by
    rw [div_lt_div_iff₀ two_pos hdq, one_mul, mul_comm 2]
    exact_mod_cast Iff.rfl
  simp only [halfEven, nearest, hfloor, hrest, hdown, hup]

theorem abs_nearest_sub_le (q : ℚ) : |(nearest q : ℚ) - q| ≤ 1 / 2 := by
  have h := abs_halfEven_sub_le q.num (d := q.den) (Int.natCast_pos.mpr q.den_pos)
  rwa [halfEven_eq_nearest _ (Int.natCast_pos.mpr q.den_pos), Int.cast_natCast,
    Rat.num_div_den] at h

@[simp] theorem nearest_intCast (n : Int) : nearest n = n := by
  rw [nearest, Int.floor_intCast, sub_self]
  exact if_pos (by norm_num)

theorem even_nearest (h : |(nearest q : ℚ) - q| = 1 / 2) : Even (nearest q) := by
  rw [nearest] at h ⊢
  have hone := Int.fract_lt_one q
  rw [Int.fract] at hone
  split_ifs at h ⊢ with hdown hup heven
  · rw [abs_sub_comm, abs_of_nonneg (sub_nonneg.mpr (Int.floor_le q))] at h
    exact absurd h hdown.ne
  · push_cast at h
    rw [abs_of_pos (by linarith)] at h
    linarith
  · exact Int.even_iff.mpr heven
  · rw [Int.even_add_one, Int.even_iff]
    exact heven

theorem nearest_unique (h : |(n : ℚ) - q| ≤ 1 / 2) (heven : |(n : ℚ) - q| = 1 / 2 → Even n) :
    nearest q = n := by
  have hnear := abs_nearest_sub_le q
  by_contra hne
  have hone : (1 : ℚ) ≤ |(nearest q : ℚ) - n| := by
    have : (1 : Int) ≤ |nearest q - n| := Int.one_le_abs (sub_ne_zero.mpr hne)
    exact_mod_cast this
  have htri : |(nearest q : ℚ) - n| ≤ |(nearest q : ℚ) - q| + |(n : ℚ) - q| := by
    rw [abs_sub_comm (n : ℚ) q]
    exact abs_sub_le _ q _
  -- both are one half away, so that they are even and one apart
  have heq : |(nearest q : ℚ) - n| = 1 := by linarith
  have hdiff : |nearest q - n| = 1 := by exact_mod_cast heq
  have hq : Even (nearest q) := even_nearest (by linarith)
  obtain ⟨k, hk⟩ := hq.sub (heven (by linarith))
  rw [hk, abs_eq zero_le_one] at hdiff
  omega

theorem nearest_neg (q : ℚ) : nearest (-q) = -nearest q := by
  have habs : |((-nearest q : Int) : ℚ) - -q| = |(nearest q : ℚ) - q| := by
    rw [Int.cast_neg, ← neg_add', abs_neg, ← sub_eq_add_neg]
  apply nearest_unique
  · rw [habs]
    exact abs_nearest_sub_le q
  · rw [habs]
    exact fun h => (even_nearest h).neg

theorem nearest_le (h : q ≤ n) : nearest q ≤ n := by
  have hnear := (abs_le.mp (abs_nearest_sub_le q)).2
  rw [← Int.lt_add_one_iff]
  have hlt : (nearest q : ℚ) < n + 1 := by linarith
  exact_mod_cast hlt

theorem le_nearest_of_even (heven : Even n) (h : (n : ℚ) - 1 / 2 ≤ q) : n ≤ nearest q := by
  have hnear := (abs_le.mp (abs_nearest_sub_le q)).1
  by_contra hlt
  have hle : (nearest q : ℚ) ≤ n - 1 := by
    exact_mod_cast Int.le_sub_one_of_lt (not_le.mp hlt)
  have heq : nearest q = n - 1 := by
    have : (nearest q : ℚ) = n - 1 := by linarith
    exact_mod_cast this
  have hodd := even_nearest (q := q) (by
    rw [heq]
    push_cast
    rw [abs_of_neg (by linarith)]
    linarith)
  rw [heq, Int.even_sub_one] at hodd
  exact hodd heven

theorem natAbs_nearest (q : ℚ) : ((nearest q).natAbs : Int) = nearest |q| := by
  have hnonneg {q : ℚ} (hq : 0 ≤ q) : 0 ≤ nearest q := le_nearest_of_even Even.zero (by
    push_cast
    linarith)
  rcases le_total 0 q with hq | hq
  · rw [abs_of_nonneg hq, Int.natAbs_of_nonneg (hnonneg hq)]
  · rw [abs_of_nonpos hq, nearest_neg, Int.ofNat_natAbs_of_nonpos]
    have := hnonneg (neg_nonneg.mpr hq)
    rw [nearest_neg] at this
    omega

theorem abs_nearest_sub (q : ℚ) : |(nearest q : ℚ) - q| = |(nearest |q| : ℚ) - (|q|)| := by
  rcases le_total 0 q with hq | hq
  · rw [abs_of_nonneg hq]
  · rw [abs_of_nonpos hq, nearest_neg, Int.cast_neg, ← neg_add', abs_neg, ← sub_eq_add_neg]

theorem nearest_eq_zero (h : |q| < 1 / 2) : nearest q = 0 := by
  have hnear := abs_nearest_sub_le q
  have hlt : |(nearest q : ℚ)| < 1 := by
    calc |(nearest q : ℚ)| = |(nearest q - q) + q| := by rw [sub_add_cancel]
      _ ≤ |(nearest q : ℚ) - q| + |q| := abs_add_le _ _
      _ < 1 := by linarith
  rw [← Int.abs_lt_one_iff]
  exact_mod_cast hlt

/-- `m / base ^ (k + s)` with `k` digits dropped, or more, until there is room. -/
def dropDigits (F : Format) (m : Int) : Nat → Nat → Option (Num F)
  | k, 0 => Num.ofParts? F (halfEven m ((F.base : Int) ^ k)) 0
  | k, s + 1 =>
    (Num.ofParts? F (halfEven m ((F.base : Int) ^ k)) (s + 1)).or (dropDigits F m (k + 1) s)

/-- The number nearest to `m / base ^ s`, with the most digits there is room for; none when
there is no room for the integer part. -/
def round (F : Format) (m : Int) (s : Nat) : Option (Num F) := dropDigits F m 0 s

theorem le_natAbs_halfEven {n : Nat} (hd : 0 < d) (h : n * d ≤ |m|) :
    n ≤ (halfEven m d).natAbs := by
  rcases le_total 0 m with hm | hm
  · rw [abs_of_nonneg hm] at h
    have := le_halfEven hd h
    omega
  · rw [abs_of_nonpos hm] at h
    have hneg : m ≤ -(n : Int) * d := by linarith
    have := halfEven_le hd hneg
    omega

theorem dropDigits_eq_none :
    ∀ {s k : Nat}, F.bound * (F.base : Int) ^ (k + s) ≤ |m| → dropDigits F m k s = none := by
  have hparts {k t : Nat} (h : F.bound * (F.base : Int) ^ (k + t) ≤ |m|) :
      Num.ofParts? F (halfEven m ((F.base : Int) ^ k)) t = none := by
    have hbase : (1 : Int) ≤ (F.base : Int) ^ t := F.base_pow_pos t
    have hle : (F.bound : Int) * (F.base : Int) ^ k ≤ |m| := by
      refine le_trans ?_ h
      rw [pow_add]
      have hpos := F.base_pow_pos k
      nlinarith [mul_nonneg (Int.natCast_nonneg F.bound) hpos.le]
    have := le_natAbs_halfEven (F.base_pow_pos k) hle
    exact dif_neg fun hroom => absurd hroom.1 (not_lt.mpr this)
  intro s
  induction s with
  | zero => exact fun h => hparts h
  | succ s ih =>
    intro k h
    rw [dropDigits, hparts h, Option.none_or]
    apply ih
    rwa [Nat.succ_add_eq_add_succ]

/-- The sum of two numbers, rounded. -/
def add (a b : Num F) : Option (Num F) :=
  let s := max a.scale b.scale
  round F (a.mantissa * (F.base : Int) ^ (s - a.scale) +
    b.mantissa * (F.base : Int) ^ (s - b.scale)) s

theorem Num.ofParts?_of_le (hm : m.natAbs < F.bound) (hs : s ≤ F.maxScale) :
    Num.ofParts? F m s = some ⟨m, s, hm, hs⟩ := by
  rw [Num.ofParts?, dif_pos ⟨hm, hs⟩]

theorem Num.value_of_ofParts? (h : Num.ofParts? F m s = some a) : a.value = ratio F m s := by
  unfold Num.ofParts? at h
  split at h
  · cases h
    rfl
  · cases h

theorem Num.value_nonneg_iff : 0 ≤ a.value ↔ 0 ≤ a.mantissa := by
  unfold value ratio
  rw [le_div_iff₀ (F.base_pow_pos' _), zero_mul]
  exact_mod_cast Iff.rfl

theorem halfEven_nonneg (hm : 0 ≤ m) (hd : 0 < d) : 0 ≤ halfEven m d := by
  have hq : 0 ≤ m / d := Int.ediv_nonneg hm hd.le
  unfold halfEven
  dsimp only
  split_ifs <;> omega

theorem Num.nonneg_of_ofParts? (hm : 0 ≤ m) (h : Num.ofParts? F m s = some a) : 0 ≤ a.value := by
  rw [Num.value_of_ofParts? h]
  have hpow := F.base_pow_pos' s
  have hm' : (0 : ℚ) ≤ m := by exact_mod_cast hm
  exact div_nonneg hm' hpow.le

theorem dropDigits_nonneg (hm : 0 ≤ m) :
    ∀ {s k : Nat}, dropDigits F m k s = some a → 0 ≤ a.value := by
  intro s
  induction s with
  | zero =>
    intro k h
    exact Num.nonneg_of_ofParts? (halfEven_nonneg hm (F.base_pow_pos k)) h
  | succ s ih =>
    intro k h
    rcases Option.or_eq_some_iff.mp h with h | ⟨-, h⟩
    · exact Num.nonneg_of_ofParts? (halfEven_nonneg hm (F.base_pow_pos k)) h
    · exact ih h

theorem ratio_halfEven {k : Nat} (h : (F.base : Int) ^ k ∣ m) :
    ratio F (halfEven m ((F.base : Int) ^ k)) s = ratio F m (k + s) := by
  rw [halfEven_of_dvd (F.base_pow_pos k) h]
  obtain ⟨n, rfl⟩ := h
  rw [Int.mul_ediv_cancel_left _ (F.base_pow_pos k).ne', mul_comm, Nat.add_comm, ratio_mul_pow]

theorem exists_dropDigits_eq {j : Nat} :
    ∀ {s k : Nat}, k ≤ j → j ≤ k + s → k + s ≤ j + F.maxScale → (F.base : Int) ^ j ∣ m →
      (m / (F.base : Int) ^ j).natAbs < F.bound →
      ∃ a, dropDigits F m k s = some a ∧ a.value = ratio F m (k + s) := by
  intro s
  induction s with
  | zero =>
    intro k hk hj hs hdvd hfit
    obtain rfl : k = j := by omega
    rw [← halfEven_of_dvd (F.base_pow_pos k) hdvd] at hfit
    refine ⟨⟨_, 0, hfit, Nat.zero_le _⟩, Num.ofParts?_of_le hfit (Nat.zero_le _), ?_⟩
    exact ratio_halfEven hdvd
  | succ s ih =>
    intro k hk hj hs hdvd hfit
    have hdvdk : (F.base : Int) ^ k ∣ m := (pow_dvd_pow _ hk).trans hdvd
    unfold dropDigits
    cases hparts : Num.ofParts? F (halfEven m ((F.base : Int) ^ k)) (s + 1) with
    | some a =>
      refine ⟨a, rfl, ?_⟩
      rw [Num.value_of_ofParts? hparts, ratio_halfEven hdvdk]
    | none =>
      -- no room yet, so that the digits that make room are more than `k`
      have hne : k ≠ j := by
        rintro rfl
        rw [← halfEven_of_dvd (F.base_pow_pos k) hdvd] at hfit
        rw [Num.ofParts?_of_le hfit (by omega)] at hparts
        cases hparts
      obtain ⟨a, ha, hval⟩ :=
        ih (k := k + 1) (by omega) (by omega) (by omega) hdvd hfit
      refine ⟨a, ha, ?_⟩
      rw [hval]
      congr 1
      omega

theorem exists_round_eq (h : Representable F (ratio F m s)) :
    ∃ a, round F m s = some a ∧ a.value = ratio F m s := by
  obtain ⟨b, hb⟩ := h
  have heq : b.mantissa * (F.base : Int) ^ s = m * (F.base : Int) ^ b.scale :=
    ratio_eq_ratio_iff.mp hb
  obtain ⟨j, hj, hroom, hdvd, hfit⟩ : ∃ j ≤ s, s ≤ j + F.maxScale ∧ (F.base : Int) ^ j ∣ m ∧
      (m / (F.base : Int) ^ j).natAbs < F.bound := by
    have hscale := b.scale_le
    rcases Nat.le_total s b.scale with hle | hle
    · -- the number has all the digits of `m`
      refine ⟨0, Nat.zero_le s, by omega, one_dvd m, ?_⟩
      have hm : b.mantissa = m * (F.base : Int) ^ (b.scale - s) := by
        have hpow := (F.base_pow_pos s).ne'
        apply mul_right_cancel₀ hpow
        rw [heq, mul_assoc, ← pow_add, Nat.sub_add_cancel hle]
      have hpos : 1 ≤ (F.base ^ (b.scale - s) : Nat) :=
        Nat.one_le_pow _ _ (Nat.zero_lt_of_lt F.base_gt)
      have habs : b.mantissa.natAbs = m.natAbs * F.base ^ (b.scale - s) := by
        rw [hm, Int.natAbs_mul, Int.natAbs_pow, Int.natAbs_natCast]
      have hlt := b.mantissa_lt
      have hle' : m.natAbs ≤ m.natAbs * F.base ^ (b.scale - s) := Nat.le_mul_of_pos_right _ hpos
      simp only [pow_zero, Int.ediv_one]
      omega
    · -- the last digits of `m` are zero
      have hm : m = b.mantissa * (F.base : Int) ^ (s - b.scale) := by
        have hpow := (F.base_pow_pos b.scale).ne'
        apply mul_right_cancel₀ hpow
        rw [← heq, mul_assoc, ← pow_add, Nat.sub_add_cancel hle]
      refine ⟨s - b.scale, Nat.sub_le s _, by omega, ⟨b.mantissa, hm.trans (mul_comm _ _)⟩, ?_⟩
      rw [hm, Int.mul_ediv_cancel _ (F.base_pow_pos _).ne']
      exact b.mantissa_lt
  obtain ⟨a, ha, hval⟩ :=
    exists_dropDigits_eq (s := s) (k := 0) (Nat.zero_le j) (by omega) (by omega) hdvd hfit
  refine ⟨a, ha, ?_⟩
  rw [hval, Nat.zero_add]

theorem exists_add_eq (h : Representable F (a.value + b.value)) :
    ∃ c, add a b = some c ∧ c.value = a.value + b.value := by
  have hsum : a.value + b.value = ratio F (a.mantissa *
      (F.base : Int) ^ (max a.scale b.scale - a.scale) + b.mantissa *
      (F.base : Int) ^ (max a.scale b.scale - b.scale)) (max a.scale b.scale) := by
    rw [← ratio_add, ← ratio_at (Nat.le_max_left _ _), ← ratio_at (Nat.le_max_right _ _)]
    rfl
  rw [hsum] at h ⊢
  exact exists_round_eq h

end Scaled
