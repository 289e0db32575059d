import Synsema.Captoken.Msgpack
import Mathlib.Data.Nat.Digits.Lemmas

/-!
# Bytes

What the codecs of the chains share: how a call ends, the byte strings and the machine words of
a program, the shortest big-endian bytes of a number, and what stands at a place of a byte
string.
-/

namespace Synsema.Blockchain

open Text Bytesutil Captoken List

/-! ## Machine words and byte strings -/

/-- A byte string that a program can hold: a `Vec` has at most `isize::MAX` bytes. -/
abbrev Slice := { b : Bytes // b.length < 2 ^ 63 }

/-- How a call ends without a value. -/
inductive Stop where
  | err (message : Text)
  /-- A `Vec` that would be too long, or a slice that ends before it starts. -/
  | panic
  /-- The call never returns. -/
  | diverges
deriving DecidableEq

/-- A buffer as a byte string of the program. -/
def toSlice (b : Bytes) : Except Stop Slice :=
  if h : b.length < 2 ^ 63 then .ok ⟨b, h⟩ else .error .panic

/-- `usize` addition. -/
def usizeAdd (a b : Nat) : Nat := (a + b) % 2 ^ 64

theorem usizeAdd_eq {a b : Nat} (h : a + b < 2 ^ 64) : usizeAdd a b = a + b :=
  Nat.mod_eq_of_lt h

/-! ## Shortest big-endian bytes -/

/-- The bytes of a number from its first that is not zero. -/
def minimalBe (n : Nat) : Bytes := ((Nat.digits 256 n).map UInt8.ofNat).reverse

/-- `BigInt::to_bytes_be`, of the magnitude. -/
def toBytesBe (n : Nat) : Bytes := if n = 0 then [0] else minimalBe n

/-- The bytes of a `u64` from its first that is not zero. -/
def significant (n : Nat) : Bytes := (beBytes 8 n).dropWhile (· == 0)

theorem beNat_append (a b : Bytes) :
    Cur.beNat (a ++ b) = Cur.beNat a * 256 ^ b.length + Cur.beNat b := by
  have hfold : ∀ (b : Bytes) (acc : Nat),
      b.foldl (fun acc c => acc * 256 + c.toNat) acc = acc * 256 ^ b.length + Cur.beNat b := by
    intro b
    induction b with
    | nil => intro acc; simp [Cur.beNat]
    | cons c b ih =>
      intro acc
      rw [Cur.beNat, foldl_cons, foldl_cons, ih, ih (0 * 256 + c.toNat), length_cons, pow_succ]
      ring
  rw [Cur.beNat, foldl_append, hfold]
  rfl

theorem beNat_cons (c : UInt8) (b : Bytes) :
    Cur.beNat (c :: b) = c.toNat * 256 ^ b.length + Cur.beNat b := by
  have hc : Cur.beNat [c] = c.toNat := by simp [Cur.beNat]
  rw [← singleton_append, beNat_append, hc]

theorem beNat_eq_ofDigits (b : Bytes) :
    Cur.beNat b = Nat.ofDigits 256 (b.map UInt8.toNat).reverse := by
  induction b with
  | nil => rfl
  | cons c b ih =>
    rw [beNat_cons, ih, map_cons, reverse_cons, Nat.ofDigits_append, length_reverse, length_map,
      Nat.ofDigits_singleton]
    ring

theorem beNat_inj {a b : Bytes} (hlen : a.length = b.length)
    (h : Cur.beNat a = Cur.beNat b) : a = b := by
  induction a generalizing b with
  | nil => exact (eq_nil_of_length_eq_zero hlen.symm).symm
  | cons c a ih =>
    obtain ⟨d, b, rfl⟩ := exists_cons_of_length_eq_add_one hlen.symm
    rw [length_cons, length_cons, Nat.add_right_cancel_iff] at hlen
    rw [beNat_cons, beNat_cons, hlen] at h
    have ha := Cur.beNat_lt a
    have hb := Cur.beNat_lt b
    rw [hlen] at ha
    have hpos : 0 < 256 ^ b.length := Nat.pow_pos (by decide)
    have hcd : c.toNat = d.toNat := by
      have hdiv := congrArg (· / 256 ^ b.length) h
      simpa only [Nat.mul_comm _ (256 ^ b.length), Nat.mul_add_div hpos, Nat.div_eq_of_lt ha,
        Nat.div_eq_of_lt hb, Nat.add_zero] using hdiv
    rw [hcd, Nat.add_left_cancel_iff] at h
    rw [UInt8.toNat.inj hcd, ih hlen h]

theorem beNat_minimalBe (n : Nat) : Cur.beNat (minimalBe n) = n := by
  rw [beNat_eq_ofDigits, minimalBe, map_reverse, reverse_reverse, map_map]
  have hid : (Nat.digits 256 n).map (UInt8.toNat ∘ UInt8.ofNat) = Nat.digits 256 n := by
    rw [map_congr_left (g := id), map_id]
    intro d hd
    exact UInt8.toNat_ofNat_of_lt' (Nat.digits_lt_base (by decide) hd)
  rw [hid, Nat.ofDigits_digits]

theorem eq_minimalBe {b : Bytes} (hb : b.head? ≠ some 0) : b = minimalBe (Cur.beNat b) := by
  have hdigits : Nat.digits 256 (Cur.beNat b) = (b.map UInt8.toNat).reverse := by
    rw [beNat_eq_ofDigits]
    refine Nat.digits_ofDigits 256 (by decide) _ ?_ ?_
    · intro d hd
      obtain ⟨c, -, rfl⟩ := mem_map.mp (mem_reverse.mp hd)
      exact c.toNat_lt
    · intro hne
      rw [getLast_reverse]
      cases b with
      | nil => simp at hne
      | cons c b =>
        intro hc
        refine hb ?_
        have : c = 0 := UInt8.toNat.inj (by simpa using hc)
        rw [this]
        rfl
  rw [minimalBe, hdigits, map_reverse, reverse_reverse, map_map]
  have hid : (UInt8.ofNat ∘ UInt8.toNat) = id := by
    funext c
    simp
  rw [hid, map_id]

theorem head?_minimalBe (n : Nat) : (minimalBe n).head? ≠ some 0 := by
  intro hhead
  rw [minimalBe, head?_reverse, getLast?_map, Option.map_eq_some_iff] at hhead
  obtain ⟨d, hd, hzero⟩ := hhead
  obtain ⟨hne, rfl⟩ := mem_getLast?_eq_getLast hd
  have hlt : (Nat.digits 256 n).getLast hne < 256 :=
    Nat.digits_lt_base (by decide) (getLast_mem hne)
  have hn : n ≠ 0 := by
    rintro rfl
    simp at hne
  refine Nat.getLast_digit_ne_zero 256 hn ?_
  rw [← UInt8.toNat_ofNat_of_lt' hlt, hzero]
  rfl

theorem beNat_dropWhile_zero (b : Bytes) : Cur.beNat (b.dropWhile (· == 0)) = Cur.beNat b := by
  induction b with
  | nil => rfl
  | cons c b ih =>
    by_cases hc : c = 0
    · rw [dropWhile_cons_of_pos (by simp [hc]), ih, hc]
      rfl
    · rw [dropWhile_cons_of_neg (by simp [hc])]

theorem significant_eq {n : Nat} (hn : n < 2 ^ 64) : significant n = minimalBe n := by
  have hhead : (significant n).head? ≠ some 0 := by
    intro h
    have := head?_dropWhile_not (· == 0) (beBytes 8 n)
    rw [significant] at h
    rw [h] at this
    simp at this
  have hval : Cur.beNat (significant n) = n := by
    rw [significant, beNat_dropWhile_zero, Cur.beNat_beBytes (by simpa using hn)]
  rw [eq_minimalBe hhead, hval]

theorem length_significant_le (n : Nat) : (significant n).length ≤ 8 := by
  calc (significant n).length ≤ (beBytes 8 n).length := (dropWhile_sublist _).length_le
    _ = 8 := Cur.length_beBytes 8 n

theorem significant_ne_nil {n : Nat} (hn : n < 2 ^ 64) (h0 : n ≠ 0) : significant n ≠ [] := by
  intro hnil
  have hval := beNat_minimalBe n
  rw [← significant_eq hn, hnil] at hval
  exact h0 hval.symm

/-! ## Places in the byte string -/

/-- The bytes `b` stand in `data` at the place `i`. -/
def At (data : Bytes) (i : Nat) (b : Bytes) : Prop := ∃ l r, data = l ++ b ++ r ∧ l.length = i

namespace At

variable {data a b : Bytes} {i j : Nat} {c : UInt8}

theorem le (h : At data i b) : i + b.length ≤ data.length := by
  obtain ⟨l, r, rfl, rfl⟩ := h
  simp

theorem append_iff : At data i (a ++ b) ↔ At data i a ∧ At data (i + a.length) b := by
  constructor
  · rintro ⟨l, r, rfl, rfl⟩
    exact ⟨⟨l, b ++ r, by simp, rfl⟩, ⟨l ++ a, r, by simp, by simp⟩⟩
  · rintro ⟨⟨l, r, rfl, rfl⟩, ⟨l', r', heq, hlen⟩⟩
    have hl : l' = l ++ a := by
      have := congrArg (List.take (l.length + a.length)) heq
      rw [append_assoc l', take_left' hlen] at this
      rw [← this, take_left' (by simp)]
    refine ⟨l, r', ?_, rfl⟩
    rw [heq, hl]
    simp

theorem cons_iff : At data i (c :: b) ↔ At data i [c] ∧ At data (i + 1) b := by
  rw [← singleton_append, append_iff]
  rfl

theorem getD_eq (h : At data i [c]) : data.getD i 0 = c := by
  obtain ⟨l, r, rfl, rfl⟩ := h
  simp

theorem lt (h : At data i [c]) : i < data.length := h.le

theorem of_getD (hi : i < data.length) : At data i [data.getD i 0] := by
  refine ⟨data.take i, data.drop (i + 1), ?_, by simp [hi.le]⟩
  have hget : data.getD i 0 = data[i] := by
    rw [getD_eq_getElem?_getD, getElem?_eq_getElem hi]
    rfl
  rw [append_assoc, singleton_append, hget, getElem_cons_drop, take_append_drop]

theorem take_drop (h : At data i b) : (data.take (i + b.length)).drop i = b := by
  obtain ⟨l, r, rfl, rfl⟩ := h
  rw [take_left' (by simp)]
  simp

theorem drop_take (h : At data i b) : (data.drop i).take b.length = b := by
  obtain ⟨l, r, rfl, rfl⟩ := h
  simp

theorem of_slice (hij : i ≤ j) (hj : j ≤ data.length) : At data i ((data.take j).drop i) := by
  refine ⟨data.take i, data.drop j, ?_, by simp [hij.trans hj]⟩
  have htake : data.take i = (data.take j).take i := by
    rw [take_take, Nat.min_eq_left hij]
  rw [htake, take_append_drop, take_append_drop]

theorem of_drop_take (hj : i + j ≤ data.length) : At data i ((data.drop i).take j) := by
  have h : At data i ((data.take (i + j)).drop i) := of_slice (Nat.le_add_right i j) hj
  rwa [List.drop_take, Nat.add_sub_cancel_left] at h

end At

theorem length_slice {data : Bytes} {i j : Nat} (hj : j ≤ data.length) :
    ((data.take j).drop i).length = j - i := by
  simp [Nat.min_eq_left hj]

end Synsema.Blockchain
