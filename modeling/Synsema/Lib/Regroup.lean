import Mathlib.Data.Nat.Digits.Lemmas
import Mathlib.Tactic.Ring

/-!
# Digits in groups of other sizes

Digits of `w` bits that are written as digits of `v` bits, the least first, through a buffer of 32
bits.  They are the digits of the same number (`ofDigits_regroup`): no bit is lost on the way.
-/

namespace Regroup

open List

/-- The bits that wait, and the digits written. -/
structure Buffer where
  buf : Nat
  bits : Nat
  out : List Nat

/-- Digits leave the buffer as long as it has the bits of one. -/
def drain (v : Nat) : Nat → Buffer → Buffer
  | 0, σ => σ
  | fuel + 1, σ =>
    if v ≤ σ.bits then
      drain v fuel ⟨σ.buf >>> v, σ.bits - v, σ.out ++ [σ.buf &&& (2 ^ v - 1)]⟩
    else σ

/-- A digit of `w` bits enters the buffer. -/
def push (w v : Nat) (σ : Buffer) (d : Nat) : Buffer :=
  drain v (σ.bits + w) ⟨(σ.buf ||| d <<< σ.bits) % 2 ^ 32, σ.bits + w, σ.out⟩

/-- The digits of `v` bits; what is left at the end fills the last one. -/
def regroup (w v : Nat) (ds : List Nat) : List Nat :=
  let σ := ds.foldl (push w v) ⟨0, 0, []⟩
  if 0 < σ.bits then σ.out ++ [σ.buf &&& (2 ^ v - 1)] else σ.out

variable {w v : Nat} {ds es : List Nat} {σ : Buffer}

/-- The digits written and the bits that wait are those of `ds`. -/
structure Holds (w v : Nat) (ds : List Nat) (σ : Buffer) : Prop where
  buf_lt : σ.buf < 2 ^ σ.bits
  out_lt : ∀ d ∈ σ.out, d < 2 ^ v
  length : v * σ.out.length + σ.bits = w * ds.length
  value : Nat.ofDigits (2 ^ v) σ.out + 2 ^ (v * σ.out.length) * σ.buf = Nat.ofDigits (2 ^ w) ds

theorem ofDigits_snoc (k : Nat) (ds : List Nat) (d : Nat) :
    Nat.ofDigits (2 ^ k) (ds ++ [d]) = Nat.ofDigits (2 ^ k) ds + 2 ^ (k * ds.length) * d := by
  rw [Nat.ofDigits_append, Nat.ofDigits_singleton, ← pow_mul]

theorem Holds.leave (h : Holds w v ds σ) (hv : v ≤ σ.bits) :
    Holds w v ds ⟨σ.buf >>> v, σ.bits - v, σ.out ++ [σ.buf &&& (2 ^ v - 1)]⟩ := by
  rw [Nat.and_two_pow_sub_one_eq_mod, Nat.shiftRight_eq_div_pow]
  refine ⟨?_, ?_, ?_, ?_⟩
  · refine Nat.div_lt_of_lt_mul ?_
    rw [← pow_add, Nat.add_sub_cancel' hv]
    exact h.buf_lt
  · intro d hd
    rcases mem_append.mp hd with hd | hd
    · exact h.out_lt d hd
    · exact mem_singleton.mp hd ▸ Nat.mod_lt _ (Nat.two_pow_pos v)
  · have hlength := h.length
    simp only [length_append, length_singleton, Nat.mul_add]
    omega
  · rw [ofDigits_snoc, ← h.value, length_append, length_singleton, Nat.mul_add, pow_add, mul_one,
      add_assoc, mul_assoc, ← mul_add, Nat.mod_add_div]

theorem Holds.drain (h : Holds w v ds σ) (hv : 0 < v) {fuel : Nat} (hfuel : σ.bits ≤ fuel) :
    Holds w v ds (drain v fuel σ) ∧ (Regroup.drain v fuel σ).bits < v := by
  induction fuel generalizing σ with
  | zero => exact ⟨h, (Nat.le_zero.mp hfuel).trans_lt hv⟩
  | succ fuel ih =>
    rw [Regroup.drain]
    split
    next hbits => exact ih (h.leave hbits) (by dsimp only; omega)
    next hbits => exact ⟨h, Nat.lt_of_not_le hbits⟩

theorem Holds.push (h : Holds w v ds σ) (hbits : σ.bits < v) (hsize : w + v ≤ 32) {d : Nat}
    (hd : d < 2 ^ w) : Holds w v (ds ++ [d]) (push w v σ d) ∧ (Regroup.push w v σ d).bits < v := by
  have hor : σ.buf ||| d <<< σ.bits = σ.buf + 2 ^ σ.bits * d := by
    rw [Nat.or_comm, ← Nat.shiftLeft_add_eq_or_of_lt h.buf_lt, Nat.shiftLeft_eq]
    ring
  have hlt : σ.buf + 2 ^ σ.bits * d < 2 ^ (σ.bits + w) := by
    have hstep : 2 ^ σ.bits * (d + 1) ≤ 2 ^ (σ.bits + w) := by
      rw [pow_add]
      exact Nat.mul_le_mul_left _ hd
    have hbuf := h.buf_lt
    rw [Nat.mul_add, mul_one] at hstep
    omega
  -- the buffer has room for the digit
  have hroom : 2 ^ (σ.bits + w) ≤ 2 ^ 32 := Nat.pow_le_pow_right (by decide) (by omega)
  refine Holds.drain ?_ (by omega) le_rfl
  rw [hor, Nat.mod_eq_of_lt (hlt.trans_le hroom)]
  refine ⟨hlt, h.out_lt, ?_, ?_⟩
  · rw [length_append, length_singleton, Nat.mul_add, mul_one, ← h.length]
    exact (Nat.add_assoc ..).symm
  · rw [ofDigits_snoc, ← h.value, ← h.length, pow_add]
    ring

theorem Holds.foldl (h : Holds w v ds σ) (hbits : σ.bits < v) (hsize : w + v ≤ 32)
    (hes : ∀ d ∈ es, d < 2 ^ w) :
    Holds w v (ds ++ es) (es.foldl (Regroup.push w v) σ) ∧
      (es.foldl (Regroup.push w v) σ).bits < v := by
  induction es generalizing ds σ with
  | nil => exact ⟨(append_nil ds).symm ▸ h, hbits⟩
  | cons d es ih =>
    obtain ⟨hd, hes⟩ := forall_mem_cons.mp hes
    obtain ⟨hpush, hlt⟩ := h.push hbits hsize hd
    rw [foldl_cons, append_cons]
    exact ih hpush hlt hes

section Whole

variable (hv : 0 < v) (hsize : w + v ≤ 32) (hds : ∀ d ∈ ds, d < 2 ^ w)

include hv hsize hds

theorem holds_foldl : Holds w v ds (ds.foldl (push w v) ⟨0, 0, []⟩) ∧
    (ds.foldl (push w v) ⟨0, 0, []⟩).bits < v :=
  @Holds.foldl w v [] ds ⟨0, 0, []⟩ ⟨by decide, nofun, rfl, rfl⟩ hv hsize hds

/-- The last digit holds the bits that are left. -/
theorem regroup_eq : ∃ σ, Holds w v ds σ ∧ σ.bits < v ∧
    regroup w v ds = if 0 < σ.bits then σ.out ++ [σ.buf] else σ.out := by
  obtain ⟨h, hlt⟩ := holds_foldl hv hsize hds
  refine ⟨_, h, hlt, ?_⟩
  have hbuf := h.buf_lt.trans_le (Nat.pow_le_pow_right (by decide) hlt.le)
  rw [regroup, Nat.and_two_pow_sub_one_eq_mod, Nat.mod_eq_of_lt hbuf]

theorem regroup_lt : ∀ d ∈ regroup w v ds, d < 2 ^ v := by
  obtain ⟨σ, h, hlt, heq⟩ := regroup_eq hv hsize hds
  rw [heq]
  split
  · intro d hd
    rcases mem_append.mp hd with hd | hd
    · exact h.out_lt d hd
    · rw [mem_singleton.mp hd]
      exact h.buf_lt.trans_le (Nat.pow_le_pow_right (by decide) hlt.le)
  · exact h.out_lt

theorem length_regroup : (regroup w v ds).length = (w * ds.length + (v - 1)) / v := by
  obtain ⟨σ, h, hlt, heq⟩ := regroup_eq hv hsize hds
  rw [heq, ← h.length, Nat.add_assoc, Nat.mul_add_div hv]
  split
  next hbits =>
    rw [length_append, length_singleton, Nat.div_eq_of_lt_le (k := 1)] <;> omega
  next hbits => rw [Nat.div_eq_of_lt (by omega), Nat.add_zero]

theorem ofDigits_regroup : Nat.ofDigits (2 ^ v) (regroup w v ds) = Nat.ofDigits (2 ^ w) ds := by
  obtain ⟨σ, h, -, heq⟩ := regroup_eq hv hsize hds
  rw [heq, ← h.value]
  split
  next => exact ofDigits_snoc ..
  next hbits =>
    have hzero : σ.buf = 0 := by
      have hbuf := h.buf_lt
      rw [Nat.eq_zero_of_not_pos hbits] at hbuf
      omega
    rw [hzero, Nat.mul_zero, Nat.add_zero]

end Whole

/-- Digits of the same number, one list no shorter than the other: it has zeros more. -/
theorem eq_append_replicate {b : Nat} (hb : 1 < b) (hds : ∀ d ∈ ds, d < b) (hes : ∀ d ∈ es, d < b)
    (hlength : ds.length ≤ es.length) (h : Nat.ofDigits b ds = Nat.ofDigits b es) :
    es = ds ++ replicate (es.length - ds.length) 0 := by
  refine Nat.ofDigits_inj_of_len_eq hb ?_ hes ?_ ?_
  · rw [length_append, length_replicate, Nat.add_sub_cancel' hlength]
  · intro d hd
    rcases mem_append.mp hd with hd | hd
    · exact hds d hd
    · exact (eq_of_mem_replicate hd).trans_lt (by omega)
  · rw [Nat.ofDigits_append, Nat.ofDigits_replicate_zero, Nat.mul_zero, Nat.add_zero, h]

end Regroup
