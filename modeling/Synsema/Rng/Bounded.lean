import Mathlib.Data.Nat.Size
import Mathlib.Dynamics.PeriodicPts.Lemmas
import Mathlib.NumberTheory.Multiplicity
import Synsema.Lib.Rejection

/-!
# Bounded random integers

`bounded` and `interval` of `rng.rs`, over any source of 64-bit words.  A loop takes as many
further words as its fuel says, `none` being a loop that still rejects.

Both draw by rejection: `bounded` multiplies (Lemire), `interval` masks.  Whatever the bound, each
number has the same number of accepted words.
-/

namespace Synsema.Rng

open Rejection (first drawn Exact)

/-! ## The generator -/

/-- `Generator`: the source of the words, and the half word that is kept. -/
structure Generator (σ : Type) where
  source : σ
  hasUint32 : Bool
  uinteger : UInt32
deriving DecidableEq

/-- The state of PCG64. -/
structure Pcg where
  state : BitVec 128
  inc : BitVec 128

def pcgMult : BitVec 128 := 0x2360ED051FC65DA44385DF649FCCF645

/-- `Generator::step` -/
def Pcg.step (p : Pcg) : Pcg := { p with state := p.state * pcgMult + p.inc }

/-- `from_seed_seq`, of the two numbers that the words of the seed sequence make. -/
def Pcg.fromSeed (s i : BitVec 128) : Pcg :=
  let g := Pcg.step { state := 0, inc := i <<< 1 ||| 1 }
  Pcg.step { g with state := g.state + s }

/-- `Generator::next_u64` of PCG64, one source of words. -/
def Pcg.next (p : Pcg) : UInt64 × Pcg :=
  let p := p.step
  let rot := (p.state >>> 122).toNat
  let xored := (p.state >>> 64).setWidth 64 ^^^ p.state.setWidth 64
  (⟨xored.rotateRight rot⟩, p)

/-! ## The period -/

section Period

open Function Finset

theorem emultiplicity_geom_sum {a : ℤ} (ha : 4 ∣ a) (hne : a ≠ 0) (n : ℕ) :
    emultiplicity 2 (∑ i ∈ range n, (a + 1) ^ i) = emultiplicity (2 : ℤ) n := by
  have h := Int.two_pow_sub_pow' (x := a + 1) (y := 1) n (by simpa) (by omega)
  rw [one_pow, ← geom_sum_mul, emultiplicity_mul Int.prime_two, add_comm, add_sub_cancel_right] at h
  have hfin : FiniteMultiplicity 2 a := Int.finiteMultiplicity_iff.mpr ⟨by decide, hne⟩
  exact ENat.add_right_injective_of_ne_top
    (finiteMultiplicity_iff_emultiplicity_ne_top.mp hfin) h

theorem iterate_affine (a c x n : ℕ) :
    (fun y => y * (a + 1) + c)^[n] x = x + (∑ i ∈ range n, (a + 1) ^ i) * (a * x + c) := by
  induction n with
  | zero => simp
  | succ n ih =>
    rw [iterate_succ_apply', ih, geom_sum_succ]
    ring

theorem iterate_affine_modEq {a c : ℕ} (ha : 4 ∣ a) (hne : a ≠ 0) (hc : ¬ 2 ∣ c) (k n x : ℕ) :
    (fun y => y * (a + 1) + c)^[n] x ≡ x [MOD 2 ^ k] ↔ 2 ^ k ∣ n := by
  have hodd : Nat.Coprime (2 ^ k) (a * x + c) := by
    refine Nat.Coprime.pow_left k (Nat.coprime_two_left.mpr (Nat.not_even_iff_odd.mp fun h => hc ?_))
    have h2 : 2 ∣ a * x := ((by decide : 2 ∣ 4).trans ha).mul_right x
    exact (Nat.dvd_add_right h2).mp h.two_dvd
  rw [iterate_affine, Nat.ModEq.comm, Nat.modEq_iff_dvd' (Nat.le_add_right ..),
    Nat.add_sub_cancel_left, hodd.dvd_mul_right, ← Int.natCast_dvd_natCast,
    ← Int.natCast_dvd_natCast (n := n)]
  push_cast
  rw [pow_dvd_iff_le_emultiplicity, pow_dvd_iff_le_emultiplicity,
    emultiplicity_geom_sum (by exact_mod_cast ha) (by exact_mod_cast hne)]

theorem toNat_iterate_affine {w : ℕ} (a c x : BitVec w) (n : ℕ) :
    ((fun y => y * a + c)^[n] x).toNat = (fun y => y * a.toNat + c.toNat)^[n] x.toNat % 2 ^ w := by
  induction n with
  | zero => exact (Nat.mod_eq_of_lt x.isLt).symm
  | succ n ih =>
    rw [iterate_succ_apply', iterate_succ_apply', BitVec.toNat_add, BitVec.toNat_mul, ih,
      Nat.mod_add_mod]
    exact ((Nat.mod_modEq _ _).mul_right _).add_right _

/-- An affine map runs through all words of `w` bits. -/
theorem minimalPeriod_affine {w : ℕ} {a c : BitVec w} (ha : a.toNat % 4 = 1) (hne : a.toNat ≠ 1)
    (hc : c.toNat % 2 = 1) (x : BitVec w) : minimalPeriod (fun y => y * a + c) x = 2 ^ w := by
  refine Nat.dvd_right_iff_eq.mp fun n => ?_
  obtain ⟨b, hb⟩ : ∃ b, a.toNat = b + 1 := ⟨_, (Nat.succ_pred (by omega)).symm⟩
  rw [← isPeriodicPt_iff_minimalPeriod_dvd, ← iterate_affine_modEq (a := b) (c := c.toNat)
    (by omega) (by omega) (by omega) w n x.toNat, Nat.ModEq, ← hb, ← toNat_iterate_affine,
    Nat.mod_eq_of_lt x.isLt, BitVec.toNat_inj]
  rfl

/-- **The generator has the full period**: from every seed it is in each of the `2 ^ 128` states
with its increment before it is in one again. -/
theorem pcg_period (s i : BitVec 128) : minimalPeriod Pcg.step (.fromSeed s i) = 2 ^ 128 := by
  have hiter (p : Pcg) (n : ℕ) :
      Pcg.step^[n] p = { p with state := (fun y => y * pcgMult + p.inc)^[n] p.state } := by
    induction n with
    | zero => rfl
    | succ n ih => rw [iterate_succ_apply', iterate_succ_apply', ih, Pcg.step]
  have hodd : (i <<< 1 ||| 1).toNat % 2 = 1 := by simp
  rw [← minimalPeriod_affine (a := pcgMult) (by decide) (by decide) hodd (Pcg.fromSeed s i).state]
  refine Nat.dvd_right_iff_eq.mp fun n => ?_
  rw [← isPeriodicPt_iff_minimalPeriod_dvd, ← isPeriodicPt_iff_minimalPeriod_dvd, IsPeriodicPt,
    IsFixedPt, hiter]
  exact Pcg.mk.injEq .. ▸ and_iff_left rfl

end Period

section Draw

variable {σ : Type} (next : σ → UInt64 × σ)

def nextU64 (g : Generator σ) : Nat × Generator σ :=
  ((next g.source).1.toNat, { g with source := (next g.source).2 })

/-- `next_u32`: the low half of a word, and then its high half. -/
def nextU32 (g : Generator σ) : Nat × Generator σ :=
  if g.hasUint32 then (g.uinteger.toNat, { g with hasUint32 := false })
  else
    let n := (next g.source).1
    (n.toUInt32.toNat,
      { source := (next g.source).2, hasUint32 := true, uinteger := (n >>> 32).toUInt32 })

/-- The two draws of 32 bits that begin at a word are its halves. -/
theorem nextU32_nextU32 {g : Generator σ} (h : g.hasUint32 = false) :
    (nextU32 next g).1 + 2 ^ 32 * (nextU32 next (nextU32 next g).2).1 =
      (next g.source).1.toNat := by
  have hlt := (next g.source).1.toNat_lt
  simp only [nextU32, h, Bool.false_eq_true, if_false, if_true, UInt64.toNat_toUInt32,
    UInt64.toNat_shiftRight, Nat.shiftRight_eq_div_pow]
  change _ % 2 ^ 32 + 2 ^ 32 * (_ / 2 ^ 32 % 2 ^ 32) = _
  omega

end Draw

/-! ## The loops -/

section Loops

variable {γ : Type}

/-- `while left < threshold`: draws until what is left of the product is large enough. -/
def redraw (bits excl threshold : Nat) (draw : γ → Nat × γ) : Nat → Nat → γ → Option (Nat × γ)
| fuel, m, g =>
  if m % 2 ^ bits < threshold then
    match fuel with
    | 0 => none
    | fuel + 1 => redraw bits excl threshold draw fuel ((draw g).1 * excl) (draw g).2
  else some (m, g)

/-- The two branches of `bounded` that multiply, at 32 and at 64 bits. -/
def multiplyReject (bits rng : Nat) (draw : γ → Nat × γ) (fuel : Nat) (g : γ) : Option (Nat × γ) :=
  let excl := rng + 1
  let m := (draw g).1 * excl
  let found :=
    if m % 2 ^ bits < excl then
      redraw bits excl ((2 ^ bits - 1 - rng) % excl) draw fuel m (draw g).2
    else some (m, (draw g).2)
  found.map fun (m, g) => (m >>> bits, g)

/-- `loop { let v = next & mask; if v <= max { return v } }`, at 32 and at 64 bits. -/
def maskReject (max mask : Nat) (draw : γ → Nat × γ) : Nat → γ → Option (Nat × γ)
| fuel, g =>
  let v := (draw g).1 &&& mask
  if v ≤ max then some (v, (draw g).2)
  else
    match fuel with
    | 0 => none
    | fuel + 1 => maskReject max mask draw fuel (draw g).2

variable {bits rng : Nat} {draw : γ → Nat × γ}

theorem redraw_eq_first {excl threshold fuel : Nat} {g : γ} :
    (redraw bits excl threshold draw fuel ((draw g).1 * excl) (draw g).2).map
        (fun (m, g) => (m >>> bits, g)) =
      (first draw (fun x => decide (threshold ≤ x * excl % 2 ^ bits)) (fuel + 1) g).map
        fun (x, g) => (x * excl / 2 ^ bits, g) := by
  induction fuel generalizing g with
  | zero =>
    rw [redraw, first]
    by_cases h : (draw g).1 * excl % 2 ^ bits < threshold
    · simp [h, first]
    · simp [h, Nat.not_lt.mp h, Nat.shiftRight_eq_div_pow]
  | succ fuel ih =>
    rw [redraw, first]
    by_cases h : (draw g).1 * excl % 2 ^ bits < threshold
    · simp only [h, if_true, ih, decide_eq_true_iff, Nat.not_le.mpr h, if_false]
    · simp [h, Nat.not_lt.mp h, Nat.shiftRight_eq_div_pow]

/-- The first test spares the division and rejects nothing more: the threshold is below `excl`. -/
theorem multiplyReject_eq_first (hrng : rng < 2 ^ bits) {fuel : Nat} {g : γ} :
    multiplyReject bits rng draw fuel g =
      (first draw (fun x => decide (2 ^ bits % (rng + 1) ≤ x * (rng + 1) % 2 ^ bits))
        (fuel + 1) g).map fun (x, g) => (x * (rng + 1) / 2 ^ bits, g) := by
  have hthreshold : (2 ^ bits - 1 - rng) % (rng + 1) = 2 ^ bits % (rng + 1) := by
    rw [Nat.sub_sub, Nat.add_comm 1, ← Nat.mod_eq_sub_mod hrng]
  rw [← redraw_eq_first, multiplyReject]
  dsimp only
  split
  · rw [hthreshold]
  · rename_i h
    have hlt := Nat.mod_lt (2 ^ bits) rng.succ_pos
    have hkept := Nat.not_lt.mpr (hlt.le.trans (Nat.not_lt.mp h))
    cases fuel <;> rw [redraw, if_neg hkept]

theorem maskReject_eq_first {max mask fuel : Nat} {g : γ} :
    maskReject max mask draw fuel g =
      (first draw (fun x => decide (x &&& mask ≤ max)) (fuel + 1) g).map
        fun (x, g) => (x &&& mask, g) := by
  induction fuel generalizing g with
  | zero =>
    rw [maskReject, first]
    by_cases h : (draw g).1 &&& mask ≤ max <;> simp [h, first]
  | succ fuel ih =>
    rw [maskReject, first]
    by_cases h : (draw g).1 &&& mask ≤ max
    · simp [h]
    · simp [h, ih]

end Loops

/-! ## The mask -/

/-- `mask |= mask >> s` for the powers of two up to 32. -/
def smear (max : Nat) : Nat := [1, 2, 4, 8, 16, 32].foldl (fun mask s => mask ||| mask >>> s) max

theorem testBit_smear (max i : Nat) :
    (smear max).testBit i ↔ ∃ d < 64, max.testBit (i + d) = true := by
  have hstep : ∀ {mask s : Nat}, (∀ i, mask.testBit i = true ↔ ∃ d < s, max.testBit (i + d) = true) →
      ∀ i, (mask ||| mask >>> s).testBit i = true ↔ ∃ d < s + s, max.testBit (i + d) = true := by
    intro mask s h i
    rw [Nat.testBit_or, Bool.or_eq_true, Nat.testBit_shiftRight, h, h]
    constructor
    · rintro (⟨d, hd, hb⟩ | ⟨d, hd, hb⟩)
      · exact ⟨d, by omega, hb⟩
      · exact ⟨s + d, by omega, by rwa [← Nat.add_assoc, Nat.add_comm i]⟩
    · rintro ⟨d, hd, hb⟩
      by_cases hs : d < s
      · exact Or.inl ⟨d, hs, hb⟩
      · refine Or.inr ⟨d - s, by omega, ?_⟩
        rwa [show s + i + (d - s) = i + d by omega]
  have h0 : ∀ i, max.testBit i ↔ ∃ d < 1, max.testBit (i + d) := by
    simp
  exact hstep (hstep (hstep (hstep (hstep (hstep h0))))) i

/-- The mask of a bound is all ones, as many as the bound has binary digits. -/
theorem smear_eq {max : Nat} (h : max < 2 ^ 64) : smear max = 2 ^ max.size - 1 := by
  apply Nat.eq_of_testBit_eq
  intro i
  rw [Nat.testBit_two_pow_sub_one, Bool.eq_iff_iff, testBit_smear, decide_eq_true_iff, Nat.lt_size]
  constructor
  · rintro ⟨d, -, hb⟩
    exact (Nat.pow_le_pow_right two_pos (Nat.le_add_right i d)).trans (Nat.ge_two_pow_of_testBit hb)
  · intro hle
    obtain ⟨j, hj, hb⟩ := Nat.exists_ge_and_testBit_of_ge_two_pow hle
    have hj64 : j < 64 := by
      by_contra hge
      rw [Nat.testBit_lt_two_pow (h.trans_le (Nat.pow_le_pow_right two_pos (Nat.not_lt.mp hge)))]
        at hb
      exact absurd hb Bool.false_ne_true
    exact ⟨j - i, by omega, by rwa [Nat.add_sub_cancel' hj]⟩

/-! ## `bounded` and `interval` -/

section Bounded

variable {σ : Type} (next : σ → UInt64 × σ)

/-- `bounded`: an integer in `[0, rng]`. -/
def bounded (rng : UInt64) (fuel : Nat) (g : Generator σ) : Option (Nat × Generator σ) :=
  if rng = 0 then some (0, g)
  else if rng ≤ 0xFFFFFFFF then
    if rng = 0xFFFFFFFF then some (nextU32 next g)
    else multiplyReject 32 rng.toNat (nextU32 next) fuel g
  else if rng = 0xFFFFFFFFFFFFFFFF then some (nextU64 next g)
  else multiplyReject 64 rng.toNat (nextU64 next) fuel g

/-- `interval`: an integer in `[0, max]`, by masking. -/
def interval (max : UInt64) (fuel : Nat) (g : Generator σ) : Option (Nat × Generator σ) :=
  if max = 0 then some (0, g)
  else
    let mask := smear max.toNat
    if max ≤ 0xFFFFFFFF then maskReject max.toNat mask (nextU32 next) fuel g
    else maskReject max.toNat mask (nextU64 next) fuel g

/-- The bits of the words that a bound is drawn from. -/
def width (rng : UInt64) : Nat := if rng ≤ 0xFFFFFFFF then 32 else 64

/-- The draw of these words. -/
def word (rng : UInt64) : Generator σ → Nat × Generator σ :=
  if rng ≤ 0xFFFFFFFF then nextU32 next else nextU64 next

theorem toNat_lt_width (rng : UInt64) : rng.toNat < 2 ^ width rng := by
  unfold width
  split
  · rename_i h
    exact Nat.lt_succ_of_le (UInt64.le_iff_toNat_le.mp h)
  · exact rng.toNat_lt

theorem word_lt (rng : UInt64) (g : Generator σ) : (word next rng g).1 < 2 ^ width rng := by
  unfold word width
  split
  · rw [nextU32]
    split <;> exact UInt32.toNat_lt _
  · exact UInt64.toNat_lt _

/-- A draw is exact: it gives a number up to the bound.  The bound 0 takes no word, and any other
takes words up to the first that is accepted, where every number up to the bound has as many
accepted words.  With fuel for `fuel` rejected words it returns if there is one more word that is
accepted. -/
def DrawnExactly (run : UInt64 → Nat → Generator σ → Option (Nat × Generator σ)) (rng : UInt64) :
    Prop :=
  (∀ fuel g, ∀ r ∈ run rng fuel g, r.1 ≤ rng.toNat) ∧
  if rng = 0 then ∀ fuel g, run rng fuel g = some (0, g)
  else ∃ accepted value c, Exact (2 ^ width rng) (rng.toNat + 1) c accepted value ∧
    ∀ fuel g, run rng fuel g =
        ((first (word next rng) accepted (fuel + 1) g).map fun (x, g) => (value x, g)) ∧
      ((run rng fuel g).isSome ↔
        ∃ i < fuel + 1, accepted (word next rng (drawn (word next rng) i g)).1 = true)

variable {next} in
theorem drawnExactly_zero {run : UInt64 → Nat → Generator σ → Option (Nat × Generator σ)}
    {rng : UInt64} (h0 : rng = 0) (hrun : ∀ fuel g, run rng fuel g = some (0, g)) :
    DrawnExactly next run rng := by
  rw [DrawnExactly, if_pos h0]
  refine ⟨fun fuel g r hr => ?_, hrun⟩
  rw [hrun] at hr
  obtain rfl := Option.some.inj hr
  exact Nat.zero_le _

variable {next} in
theorem drawnExactly_of_first {run : UInt64 → Nat → Generator σ → Option (Nat × Generator σ)}
    {rng : UInt64} {accepted : Nat → Bool} {value : Nat → Nat} {c : Nat} (h0 : rng ≠ 0)
    (he : Exact (2 ^ width rng) (rng.toNat + 1) c accepted value)
    (hrun : ∀ fuel g, run rng fuel g =
      (first (word next rng) accepted (fuel + 1) g).map fun (x, g) => (value x, g)) :
    DrawnExactly next run rng := by
  rw [DrawnExactly, if_neg h0]
  refine ⟨fun fuel g r hr => ?_, ?_⟩
  · rw [hrun] at hr
    obtain ⟨x, hx, rfl⟩ := Option.map_eq_some_iff.mp hr
    obtain ⟨ha, g', hg⟩ := Rejection.drawn_of_first _ _ hx
    exact Nat.le_of_lt_succ (he.lt x.1 (hg ▸ word_lt next rng g') ha)
  refine ⟨accepted, value, c, he, fun fuel g => ⟨hrun fuel g, ?_⟩⟩
  rw [hrun, Option.isSome_map, Rejection.isSome_first_iff]

/-- `bounded` is exactly uniform: `⌊2 ^ bits / (rng + 1)⌋` words for each number. -/
theorem bounded_exact (rng : UInt64) : DrawnExactly next (bounded next) rng := by
  by_cases h0 : rng = 0
  · exact drawnExactly_zero h0 fun fuel g => if_pos h0
  refine drawnExactly_of_first h0
    (Rejection.exact_multiply rng.toNat.succ_pos (toNat_lt_width rng)) ?_
  intro fuel g
  have hlt := toNat_lt_width rng
  -- at a full width every word is accepted and is its own number
  have hfull : ∀ {draw : Generator σ → Nat × Generator σ}, rng.toNat + 1 = 2 ^ width rng →
      some (draw g) = (first draw (fun x =>
        decide (2 ^ width rng % (rng.toNat + 1) ≤ x * (rng.toNat + 1) % 2 ^ width rng))
        (fuel + 1) g).map fun (x, g) => (x * (rng.toNat + 1) / 2 ^ width rng, g) := by
    intro draw hk
    rw [hk, first, Nat.mod_self, if_pos (decide_eq_true (Nat.zero_le _)), Option.map_some]
    change _ = some ((draw g).1 * 2 ^ width rng / 2 ^ width rng, (draw g).2)
    rw [Nat.mul_div_cancel _ (Nat.two_pow_pos _)]
  unfold bounded
  rw [if_neg h0]
  by_cases hsmall : rng ≤ 0xFFFFFFFF
  · have hw : width rng = 32 := if_pos hsmall
    have hword : word next rng = nextU32 next := if_pos hsmall
    rw [if_pos hsmall, hword]
    split
    · rename_i heq
      exact hfull (by rw [hw, heq]; rfl)
    · rw [hw] at hlt ⊢
      exact multiplyReject_eq_first hlt
  · have hw : width rng = 64 := if_neg hsmall
    have hword : word next rng = nextU64 next := if_neg hsmall
    rw [if_neg hsmall, hword]
    split
    · rename_i heq
      exact hfull (by rw [hw, heq]; rfl)
    · rw [hw] at hlt ⊢
      exact multiplyReject_eq_first hlt

/-- `interval` is exactly uniform: the words of a number are those with its bits under the mask. -/
theorem interval_exact (max : UInt64) : DrawnExactly next (interval next) max := by
  by_cases h0 : max = 0
  · exact drawnExactly_zero h0 fun fuel g => if_pos h0
  have hmask : smear max.toNat = 2 ^ max.toNat.size - 1 := smear_eq max.toNat_lt
  have hsize : max.toNat.size ≤ width max := Nat.size_le.mpr (toNat_lt_width max)
  refine drawnExactly_of_first h0 (Rejection.exact_mask max.toNat.succ_pos (Nat.lt_size_self _)
    (Nat.two_pow_pos _) (Nat.pow_dvd_pow 2 hsize)) ?_
  intro fuel g
  have hrun : ∀ draw : Generator σ → Nat × Generator σ,
      maskReject max.toNat (smear max.toNat) draw fuel g =
        (first draw (fun x => decide (x % 2 ^ max.toNat.size < max.toNat + 1)) (fuel + 1) g).map
          fun (x, g) => (x % 2 ^ max.toNat.size, g) := by
    intro draw
    simp only [maskReject_eq_first, hmask, Nat.and_two_pow_sub_one_eq_mod, Nat.lt_succ_iff]
  unfold interval
  rw [if_neg h0]
  by_cases hsmall : max ≤ 0xFFFFFFFF
  · have hword : word next max = nextU32 next := if_pos hsmall
    rw [hword, ← hrun]
    exact if_pos hsmall
  · have hword : word next max = nextU64 next := if_neg hsmall
    rw [hword, ← hrun]
    exact if_neg hsmall

/-- Bounded integers are exactly uniform, by multiplication and by mask, for every source of words;
a word serves two draws of 32 bits, and each half takes every value equally often. -/
theorem bounded_uniform (rng : UInt64) (g : Generator σ) :
    DrawnExactly next (bounded next) rng ∧ DrawnExactly next (interval next) rng ∧
      (let low := nextU32 next { g with hasUint32 := false }
       let high := nextU32 next low.2
       low.1 + 2 ^ 32 * high.1 = (nextU64 next g).1 ∧
         high.2 = { (nextU64 next g).2 with hasUint32 := false, uinteger := high.2.uinteger }) := by
  refine ⟨bounded_exact next rng, interval_exact next rng, ?_, ?_⟩
  · exact nextU32_nextU32 next rfl
  · rfl

end Bounded

end Synsema.Rng
