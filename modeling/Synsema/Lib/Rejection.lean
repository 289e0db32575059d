import Mathlib.Algebra.Order.Floor.Div
import Mathlib.Order.Interval.Finset.Nat

/-!
# Drawing by rejection

A number below `k` is made of words of `N` values by drawing until a word is accepted.  The
draw is exact when every number has equally many accepted words.  Two ways to accept: the
word times `k`, with the remainder tested (`multiply`), and the word modulo `M` (`mask`).
-/

namespace Rejection

section First

variable {γ : Type} (draw : γ → Nat × γ) (accepted : Nat → Bool)

/-- The first accepted word of at most `n` draws, and the source as that draw leaves it. -/
def first : Nat → γ → Option (Nat × γ)
| 0, _ => none
| n + 1, g => if accepted (draw g).1 then some (draw g) else first n (draw g).2

/-- The source after `n` draws. -/
def drawn : Nat → γ → γ
| 0, g => g
| n + 1, g => drawn n (draw g).2

/-- The first word is found as soon as one of the words is accepted. -/
theorem isSome_first_iff {n : Nat} {g : γ} :
    (first draw accepted n g).isSome ↔ ∃ i < n, accepted (draw (drawn draw i g)).1 := by
  induction n generalizing g with
  | zero => simp [first]
  | succ n ih =>
    rw [first]
    by_cases h : accepted (draw g).1 = true
    · simp only [h, if_true, Option.isSome_some, true_iff]
      exact ⟨0, n.succ_pos, h⟩
    · rw [if_neg h, ih]
      constructor
      · rintro ⟨i, hi, ha⟩
        exact ⟨i + 1, Nat.succ_lt_succ hi, ha⟩
      · rintro ⟨i, hi, ha⟩
        cases i with
        | zero => exact absurd ha h
        | succ i => exact ⟨i, Nat.lt_of_succ_lt_succ hi, ha⟩

/-- What is found was drawn, and is accepted. -/
theorem drawn_of_first {n : Nat} {g : γ} {r : Nat × γ} (h : first draw accepted n g = some r) :
    accepted r.1 ∧ ∃ g', draw g' = r := by
  induction n generalizing g with
  | zero => cases h
  | succ n ih =>
    rw [first] at h
    split at h
    · rename_i ha
      obtain rfl := Option.some.inj h
      exact ⟨ha, g, rfl⟩
    · exact ih h

end First

/-- Of the `N` words, `c` are accepted for each number below `k`, and none for others. -/
structure Exact (N k c : Nat) (accepted : Nat → Bool) (value : Nat → Nat) : Prop where
  pos : 0 < c
  lt : ∀ x < N, accepted x = true → value x < k
  card : ∀ v < k, ((Finset.range N).filter fun x => accepted x = true ∧ value x = v).card = c

variable {N k M : Nat}

/-- Rejection of the words whose product with `k` leaves less than `N % k`. -/
theorem exact_multiply (hk : 0 < k) (hN : k ≤ N) :
    Exact N k (N / k) (fun x => decide (N % k ≤ x * k % N)) (fun x => x * k / N) where
  pos := Nat.div_pos hN hk
  lt := fun x hx _ => Nat.div_lt_of_lt_mul ((Nat.mul_lt_mul_right hk).mpr hx)
  card := by
    intro v hv
    have hpos : 0 < N := hk.trans_le hN
    have hsplit : N % k + k * (N / k) = N := Nat.mod_add_div N k
    -- the accepted words of `v`: their multiples of `k` fill the top of the `v`-th block
    have hmem : ∀ x, (x < N ∧ N % k ≤ x * k % N ∧ x * k / N = v) ↔
        v * N + N % k ≤ x * k ∧ x * k < v * N + N % k + k * (N / k) := by
      intro x
      have hx := Nat.div_add_mod (x * k) N
      rw [Nat.add_assoc, hsplit, ← Nat.succ_mul]
      constructor
      · rintro ⟨-, hle, rfl⟩
        have hlt := Nat.mod_lt (x * k) hpos
        rw [Nat.mul_comm N] at hx
        rw [Nat.succ_mul]
        omega
      · rintro ⟨hle, hlt⟩
        have hv' : x * k / N = v :=
          Nat.div_eq_of_lt_le ((Nat.le_add_right _ _).trans hle) hlt
        refine ⟨?_, ?_, hv'⟩
        · have hxk : x * k < N * k :=
            hlt.trans_le ((Nat.mul_le_mul_right N hv).trans_eq (Nat.mul_comm k N))
          exact Nat.lt_of_mul_lt_mul_right hxk
        · rw [hv', Nat.mul_comm N] at hx
          omega
    have hceil : (v * N + N % k + k * (N / k)) ⌈/⌉ k = (v * N + N % k) ⌈/⌉ k + N / k := by
      rw [Nat.ceilDiv_eq_add_pred_div, Nat.ceilDiv_eq_add_pred_div, ← Nat.add_mul_div_left _ _ hk]
      congr 1
      omega
    have hIco : (Finset.range N).filter (fun x => decide (N % k ≤ x * k % N) = true ∧
        x * k / N = v) =
        Finset.Ico ((v * N + N % k) ⌈/⌉ k) ((v * N + N % k + k * (N / k)) ⌈/⌉ k) := by
      ext x
      rw [Finset.mem_filter, Finset.mem_range, decide_eq_true_iff, hmem, Finset.mem_Ico,
        ← Nat.not_le, ← Nat.not_le, ceilDiv_le_iff_le_mul hk, ceilDiv_le_iff_le_mul hk,
        Nat.mul_comm k x]
    rw [hIco, Nat.card_Ico, hceil, Nat.add_sub_cancel_left]

/-- Rejection of the words that leave `k` or more modulo `M`, where `M` divides `N`. -/
theorem exact_mask (hk : 0 < k) (hM : k ≤ M) (hN : 0 < N) (hd : M ∣ N) :
    Exact N k (N / M) (fun x => decide (x % M < k)) (fun x => x % M) where
  pos := Nat.div_pos (Nat.le_of_dvd hN hd) (hk.trans_le hM)
  lt := fun x _ h => of_decide_eq_true h
  card := by
    intro v hv
    have hpos : 0 < M := hk.trans_le hM
    have hmul : M * (N / M) = N := Nat.mul_div_cancel' hd
    have himage : (Finset.range N).filter (fun x => decide (x % M < k) = true ∧ x % M = v) =
        (Finset.range (N / M)).image fun i => M * i + v := by
      ext x
      simp only [Finset.mem_filter, Finset.mem_range, decide_eq_true_iff, Finset.mem_image]
      constructor
      · rintro ⟨hx, -, rfl⟩
        exact ⟨x / M, Nat.div_lt_of_lt_mul (hmul.symm ▸ hx), Nat.div_add_mod x M⟩
      · rintro ⟨i, hi, rfl⟩
        have hmod : (M * i + v) % M = v := by
          rw [Nat.mul_add_mod, Nat.mod_eq_of_lt (hv.trans_le hM)]
        refine ⟨?_, hmod.symm ▸ hv, hmod⟩
        calc M * i + v < M * i + M := Nat.add_lt_add_left (hv.trans_le hM) _
          _ = M * (i + 1) := rfl
          _ ≤ M * (N / M) := Nat.mul_le_mul_left M hi
          _ = N := hmul
    rw [himage, Finset.card_image_of_injective, Finset.card_range]
    intro i j hij
    exact Nat.eq_of_mul_eq_mul_left hpos (Nat.add_right_cancel hij)

end Rejection
