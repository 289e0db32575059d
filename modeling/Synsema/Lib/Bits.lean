import Mathlib.Data.Nat.Bitwise
import Mathlib.Data.List.Basic

/-!
# Bits

A number as its bits, the most significant first, and the bits of numbers of one width one after
the other.  What a text of symbols of `w` bits says about groups of `k` bits is said on the bits:
the groups are those of one stream, and what is left of it is shorter than a group.
-/

namespace Bits

open List

/-- The last `w` bits of a number, the most significant first. -/
@[grind] def bits : Nat → Nat → List Bool
  | 0, _ => []
  | w + 1, v => v.testBit w :: bits w v

/-- The bits of numbers of width `w`. -/
@[grind] def stream (w : Nat) (vs : List Nat) : List Bool := vs.flatMap (bits w)

/-! ## One number -/

@[simp] theorem length_bits (w v : Nat) : (bits w v).length = w := by
  induction w with
  | zero => rfl
  | succ w ih => rw [bits, length_cons, ih]

variable {u v w m n : Nat}

theorem bits_eq_iff_testBit :
    bits w v = bits w u ↔ ∀ i < w, v.testBit i = u.testBit i := by
  induction w with
  | zero => exact ⟨fun _ i hi => absurd hi (Nat.not_lt_zero i), fun _ => rfl⟩
  | succ w ih =>
    rw [bits, bits, List.cons.injEq, ih]
    constructor
    · rintro ⟨hw, h⟩ i hi
      rcases Nat.lt_succ_iff_lt_or_eq.mp hi with hi | rfl
      · exact h i hi
      · exact hw
    · intro h
      exact ⟨h w (Nat.lt_succ_self w), fun i hi => h i (Nat.lt_succ_of_lt hi)⟩

theorem bits_mod (h : w ≤ m) (v : Nat) : bits w (v % 2 ^ m) = bits w v := by
  refine bits_eq_iff_testBit.mpr fun i hi => ?_
  rw [Nat.testBit_mod_two_pow, decide_eq_true (hi.trans_le h), Bool.true_and]

theorem bits_injective (hv : v < 2 ^ w) (hu : u < 2 ^ w) (h : bits w v = bits w u) : v = u := by
  refine Nat.eq_of_testBit_eq fun i => ?_
  by_cases hi : i < w
  · exact bits_eq_iff_testBit.mp h i hi
  · have hpow : 2 ^ w ≤ 2 ^ i := Nat.pow_le_pow_right (by decide) (Nat.le_of_not_lt hi)
    rw [Nat.testBit_eq_false_of_lt (hv.trans_le hpow),
      Nat.testBit_eq_false_of_lt (hu.trans_le hpow)]

theorem bits_add (m n v : Nat) : bits (m + n) v = bits m (v / 2 ^ n) ++ bits n v := by
  induction m with
  | zero => rw [Nat.zero_add]; rfl
  | succ m ih =>
    rw [Nat.succ_add, bits, bits, ih, Nat.testBit_div_two_pow, cons_append]

@[simp] theorem bits_zero (w : Nat) : bits w 0 = replicate w false := by
  induction w with
  | zero => rfl
  | succ w ih => rw [bits, ih, Nat.zero_testBit, replicate_succ]

theorem bits_push (hv : v < 2 ^ w) (hm : n + w ≤ m) (acc : Nat) :
    bits (n + w) ((acc * 2 ^ w + v) % 2 ^ m) = bits n acc ++ bits w v := by
  have hdiv : (acc * 2 ^ w + v) / 2 ^ w = acc := by
    rw [Nat.mul_comm, Nat.mul_add_div (Nat.two_pow_pos w), Nat.div_eq_of_lt hv, Nat.add_zero]
  have hmod : (acc * 2 ^ w + v) % 2 ^ w = v := by
    rw [Nat.mul_comm, Nat.mul_add_mod, Nat.mod_eq_of_lt hv]
  rw [bits_mod hm, bits_add, hdiv, ← bits_mod le_rfl (acc * 2 ^ w + v), hmod]

theorem bits_take {k : Nat} (h : k ≤ n) (v : Nat) :
    bits n v = bits k (v / 2 ^ (n - k)) ++ bits (n - k) v := by
  rw [← bits_add, Nat.add_sub_cancel' h]

theorem bits_fill (h : n ≤ w) (v : Nat) :
    bits w (v * 2 ^ (w - n)) = bits n v ++ replicate (w - n) false := by
  rw [bits_take h, Nat.mul_div_cancel _ (Nat.two_pow_pos _), ← bits_mod le_rfl (v * 2 ^ (w - n)),
    Nat.mul_mod_left, bits_zero]

theorem bits_eq_replicate_iff :
    bits w v = replicate w false ↔ v % 2 ^ w = 0 := by
  rw [← bits_zero, ← bits_mod le_rfl v]
  constructor
  · exact bits_injective (Nat.mod_lt _ (Nat.two_pow_pos w)) (Nat.two_pow_pos w)
  · intro h
    rw [h]

/-! ## Streams -/

@[simp] theorem stream_nil (w : Nat) : stream w [] = [] := rfl

@[simp] theorem stream_cons (w v : Nat) (vs : List Nat) :
    stream w (v :: vs) = bits w v ++ stream w vs := flatMap_cons

@[simp] theorem stream_append (w : Nat) (vs us : List Nat) :
    stream w (vs ++ us) = stream w vs ++ stream w us := flatMap_append

@[simp] theorem length_stream (w : Nat) (vs : List Nat) : (stream w vs).length = vs.length * w := by
  induction vs with
  | nil => simp
  | cons v vs ih =>
    rw [stream_cons, length_append, ih, length_bits, length_cons, Nat.succ_mul, Nat.add_comm]

theorem stream_append_inj {vs us : List Nat} {r s : List Bool} (hvs : ∀ v ∈ vs, v < 2 ^ w)
    (hus : ∀ u ∈ us, u < 2 ^ w) (hr : r.length < w) (hs : s.length < w)
    (h : stream w vs ++ r = stream w us ++ s) : vs = us ∧ r = s := by
  induction vs generalizing us with
  | nil =>
    cases us with
    | nil => exact ⟨rfl, h⟩
    | cons u us =>
      have hlen := congrArg List.length h
      simp at hlen
      omega
  | cons v vs ih =>
    cases us with
    | nil =>
      have hlen := congrArg List.length h
      simp at hlen
      omega
    | cons u us =>
      rw [forall_mem_cons] at hvs hus
      rw [stream_cons, stream_cons, append_assoc, append_assoc] at h
      obtain ⟨hbits, hrest⟩ := append_inj h (by rw [length_bits, length_bits])
      obtain ⟨rfl, rfl⟩ := ih hvs.2 hus.2 hrest
      exact ⟨congrArg (· :: vs) (bits_injective hvs.1 hus.1 hbits), rfl⟩

end Bits
