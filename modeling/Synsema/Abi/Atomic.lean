import Synsema.Abi.Codec
import Synsema.Abi.Address
import Mathlib.Data.List.GetD

/-!
# Words

What the codec puts into a word of 32 bytes and takes out of it: offsets and lengths, and the
values of the atomic types.  What is read at a place is described by what stands there (`At`).
-/

namespace Synsema.Abi

open Text Bytesutil List
open Captoken (beBytes)
open Captoken.Cur (beNat beNat_lt length_beBytes beNat_beBytes)
open Blockchain (Stop Slice At usizeAdd usizeAdd_eq minimalBe toBytesBe beNat_append beNat_inj
  beNat_minimalBe head?_minimalBe)

/-! ## Numbers and bytes -/

theorem beNat_zeros (n : Nat) : beNat (replicate n 0) = 0 := by
  induction n with
  | zero => rfl
  | succ n ih => rw [replicate_succ, Blockchain.beNat_cons, ih]; simp

theorem beNat_ones (n : Nat) : beNat (replicate n 0xff) + 1 = 256 ^ n := by
  induction n with
  | zero => rfl
  | succ n ih =>
    have hff : UInt8.toNat 0xff = 255 := rfl
    rw [replicate_succ, Blockchain.beNat_cons, length_replicate, Nat.add_assoc, ih, hff, pow_succ]
    ring

variable {b w : Bytes} {n : Nat}

theorem all_iff_replicate {c : UInt8} : b.all (· == c) = true ↔ b = replicate b.length c := by
  rw [eq_replicate_iff, all_eq_true]
  simp

theorem allZero_iff : allZero b ↔ b = replicate b.length 0 :=
  all_iff_replicate

theorem beNat_eq_zero : beNat b = 0 ↔ allZero b = true := by
  rw [allZero_iff]
  constructor
  · intro h
    exact beNat_inj (by simp) (h.trans (beNat_zeros _).symm)
  · intro h
    rw [h, beNat_zeros]

theorem beNat_add_one_eq :
    beNat b + 1 = 256 ^ b.length ↔ b.all (· == 0xff) = true := by
  rw [all_iff_replicate]
  constructor
  · intro h
    exact beNat_inj (by simp) (Nat.add_right_cancel (h.trans (beNat_ones _).symm))
  · intro h
    have hones := beNat_ones b.length
    rwa [← h] at hones

variable {k : Nat}

theorem length_minimalBe_le (hn : n < 256 ^ k) : (minimalBe n).length ≤ k := by
  rw [minimalBe, length_reverse, length_map]
  exact (Nat.digits_length_le_iff (by decide) n).mpr hn

theorem stripped_toBytesBe (n : Nat) :
    (if toBytesBe n = [0] then [] else toBytesBe n) = minimalBe n := by
  by_cases hn : n = 0
  · subst hn
    rfl
  · rw [toBytesBe, if_neg hn, if_neg]
    intro h
    exact head?_minimalBe n (congrArg List.head? h)

theorem length_magWord (hn : n < 2 ^ 256) : (magWord n).length = 32 := by
  have hle : (minimalBe n).length ≤ 32 := length_minimalBe_le (by simpa using hn)
  rw [magWord, stripped_toBytesBe, length_append, length_replicate]
  exact Nat.sub_add_cancel hle

theorem beNat_magWord (n : Nat) : beNat (magWord n) = n := by
  rw [magWord, stripped_toBytesBe, beNat_append, beNat_zeros, beNat_minimalBe, Nat.zero_mul,
    Nat.zero_add]

theorem beNat_lt_word (hw : w.length = 32) : beNat w < 2 ^ 256 := by
  have h := beNat_lt w
  rw [hw] at h
  simpa using h

theorem magWord_beNat (hw : w.length = 32) : magWord (beNat w) = w :=
  beNat_inj ((length_magWord (beNat_lt_word hw)).trans hw.symm) (beNat_magWord _)

@[simp] theorem length_u256Word (n : Nat) : (u256Word n).length = 32 := by
  rw [u256Word, length_append, length_replicate, length_beBytes]

/-! ## Reading at a place -/

section Read

variable {data : Bytes} {fname : Text}

variable {i pos : Nat}

theorem byteRange_ok {j : Nat} : byteRange data i j = .ok b ↔ i + b.length = j ∧ At data i b := by
  rw [byteRange]
  by_cases h : i ≤ j ∧ j ≤ data.length
  · rw [if_pos h, Except.ok.injEq]
    constructor
    · rintro rfl
      refine ⟨?_, At.of_slice h.1 h.2⟩
      rw [Blockchain.length_slice h.2, Nat.add_sub_cancel' h.1]
    · rintro ⟨rfl, hat⟩
      exact hat.take_drop
  · rw [if_neg h]
    constructor
    · rintro ⟨⟩
    · rintro ⟨rfl, hat⟩
      exact (h ⟨Nat.le_add_right _ _, hat.le⟩).elim

variable (hdata : data.length < 2 ^ 63)
include hdata

theorem usizeAdd_at (h : At data i b) : usizeAdd i b.length = i + b.length :=
  usizeAdd_eq (by have := h.le; omega)

theorem word_ok :
    word data fname pos = .ok w ↔ w.length = 32 ∧ At data pos w := by
  rw [word, if_fail_ok, byteRange_ok]
  constructor
  · rintro ⟨hfits, hlen, hat⟩
    refine ⟨?_, hat⟩
    rw [usizeAdd] at hfits hlen
    omega
  · rintro ⟨hlen, hat⟩
    have hadd := usizeAdd_at hdata hat
    rw [hlen] at hadd
    refine ⟨?_, hlen ▸ hadd.symm, hat⟩
    have := hat.le
    omega

theorem usizeWord_ok {what : Text} :
    usizeWord data fname pos what = .ok n ↔ n ≤ data.length ∧ At data pos (u256Word n) := by
  rw [usizeWord, Except.bind_eq_ok]
  constructor
  · rintro ⟨w, hw, h⟩
    rw [word_ok hdata] at hw
    rw [if_fail_ok, if_fail_ok, pure_ok] at h
    obtain ⟨hzero, hle, rfl⟩ := h
    refine ⟨Nat.le_of_not_lt hle, ?_⟩
    have hdrop : (w.drop 24).length = 8 := by simp [hw.1]
    have htake : w.take 24 = replicate 24 0 := by
      have := allZero_iff.mp (Bool.of_not_eq_false hzero)
      rwa [length_take, hw.1] at this
    have hlow : beBytes 8 (beNat (w.drop 24)) = w.drop 24 := by
      refine beNat_inj ((length_beBytes _ _).trans hdrop.symm) (beNat_beBytes ?_)
      exact hdrop ▸ beNat_lt _
    rw [u256Word, ← htake, hlow, take_append_drop]
    exact hw.2
  · rintro ⟨hle, hat⟩
    refine ⟨u256Word n, (word_ok hdata).mpr ⟨length_u256Word n, hat⟩, ?_⟩
    have hzeros : (u256Word n).take 24 = replicate 24 0 := take_left' (by simp)
    have hlow : (u256Word n).drop 24 = beBytes 8 n := drop_left' (by simp)
    have hval : beNat (beBytes 8 n) = n := beNat_beBytes (by omega)
    rw [if_fail_ok, if_fail_ok, pure_ok, hzeros, hlow, hval]
    exact ⟨by decide, Nat.not_lt.mpr hle, rfl⟩

end Read

/-! ## Values as they come back -/

section Canonical

variable (keccak : Bytes → Bytes)

mutual

/-- The value as it is decoded: an integer as the number `from_bigint` gives, an address as its
text. -/
def canonical : AbiType → SynValue → SynValue
  | .uint _, .number k | .int _, .number k => .number (((asBigint k).map fromBigint).getD k)
  | .address, v =>
    match addr20 keccak v [] [] with
    | .ok a => .text (eip55 keccak a)
    | .error _ => v
  | .array t, .list items | .fixedArray t _, .list items => .list (items.map (canonical t))
  | .tuple ts, .list items => .list (canonicals ts items)
  | _, v => v

/-- `canonical`, of each value at its type. -/
def canonicals : List AbiType → List SynValue → List SynValue
  | t :: ts, v :: vs => canonical t v :: canonicals ts vs
  | _, _ => []

end

end Canonical

theorem asBigint_fromBigint (i : Int) : asBigint (fromBigint i) = some i := by
  rw [fromBigint]
  split_ifs with h
  · rw [asBigint, Int64.toInt_ofInt_of_le h.1 h.2]
  · rfl

theorem intValue_ok {v : SynValue} {path fname : Text} {i : Int} :
    intValue v path fname = .ok i ↔ ∃ k, v = .number k ∧ asBigint k = some i := by
  constructor
  · intro h
    cases v with
    | number k =>
      rw [intValue] at h
      cases hk : asBigint k with
      | none =>
        rw [hk] at h
        cases h
      | some j =>
        rw [hk] at h
        cases h
        exact ⟨k, rfl, hk⟩
    | _ => cases h
  · rintro ⟨k, rfl, hk⟩
    rw [intValue, hk]

/-! ## Words of the atomic types -/

theorem allZero_take_iff (hw : w.length = 32) (hk : k ≤ 32) :
    allZero (w.take (32 - k)) ↔ beNat w < 256 ^ k := by
  have hlen : (w.drop (32 - k)).length = k := by
    rw [length_drop, hw, Nat.sub_sub_self hk]
  have hsplit := beNat_append (w.take (32 - k)) (w.drop (32 - k))
  have hlow := beNat_lt (w.drop (32 - k))
  rw [take_append_drop, hlen] at hsplit
  rw [hlen] at hlow
  rw [← beNat_eq_zero, hsplit]
  constructor
  · intro h
    rwa [h, Nat.zero_mul, Nat.zero_add]
  · intro h
    by_contra hne
    have := Nat.le_mul_of_pos_left (256 ^ k) (Nat.pos_of_ne_zero hne)
    omega

theorem pow_bytes (hn : n % 8 = 0) : 256 ^ (n / 8) = 2 ^ n := by
  rw [show 256 = 2 ^ 8 from rfl, ← pow_mul, Nat.mul_div_cancel' (Nat.dvd_of_mod_eq_zero hn)]

/-- Two's complement in a word: what stands above the low bytes repeats their sign exactly where
the number lies in their range.  `M` and `N` count the values of the upper and the lower bytes. -/
theorem sign_extended_iff {A B M N H P : Nat} (hA : A < M) (hB : B < N) (hN : N = 2 * H)
    (hMN : M * N = 2 * P) :
    (if H ≤ B then A + 1 = M else A = 0) ↔
      -(H : Int) ≤ (if P ≤ A * N + B then ((A * N + B : Nat) : Int) - 2 * P else (A * N + B : Nat)) ∧
        (if P ≤ A * N + B then ((A * N + B : Nat) : Int) - 2 * P else (A * N + B : Nat)) < H := by
  have hAN : A * N + N ≤ 2 * P := by
    rw [← hMN, ← Nat.succ_mul]
    exact Nat.mul_le_mul_right N hA
  have hM : 2 * P = N + (M - 1) * N := by
    rw [← hMN, Nat.sub_mul, Nat.one_mul, Nat.add_sub_cancel']
    exact Nat.le_mul_of_pos_left N (Nat.pos_of_ne_zero (by omega))
  -- the upper bytes are neither all zero nor all set exactly between these bounds
  have hzero : A ≠ 0 → N ≤ A * N := fun h => Nat.le_mul_of_pos_left N (Nat.pos_of_ne_zero h)
  have htop : A + 1 ≠ M → A * N + N ≤ (M - 1) * N := by
    intro h
    rw [← Nat.succ_mul]
    exact Nat.mul_le_mul_right N (by omega)
  have htop' : A + 1 = M → A * N = (M - 1) * N := by
    rintro rfl
    rfl
  have hzero' : A = 0 → A * N = 0 := by
    rintro rfl
    exact Nat.zero_mul N
  generalize A * N = X at *
  generalize (M - 1) * N = Y at *
  by_cases hs : H ≤ B
  · rw [if_pos hs]
    by_cases hp : P ≤ X + B
    · rw [if_pos hp]
      by_cases hA : A + 1 = M <;> grind
    · rw [if_neg hp]
      by_cases hA : A + 1 = M <;> grind
  · rw [if_neg hs]
    by_cases hp : P ≤ X + B
    · rw [if_pos hp]
      by_cases hA : A = 0 <;> grind
    · rw [if_neg hp]
      by_cases hA : A = 0 <;> grind

theorem top_bit_iff (c : UInt8) : c &&& 0x80 ≠ 0 ↔ 128 ≤ c.toNat := by
  have hall : ∀ n < 256, (UInt8.ofNat n &&& 0x80 ≠ 0 ↔ 128 ≤ n) := by decide +kernel
  have h := hall c.toNat c.toNat_lt
  rwa [UInt8.ofNat_toNat] at h

theorem fill_iff (hw : w.length = 32) (h8 : 8 ≤ n) (h256 : n ≤ 256) (hn : n % 8 = 0) :
    (w.take (32 - n / 8)).all
        (· == if w.getD (32 - n / 8) 0 &&& 0x80 ≠ 0 then 0xff else 0) = true ↔
      -2 ^ (n - 1) ≤ signed w ∧ signed w < 2 ^ (n - 1) := by
  obtain ⟨a, ha⟩ : ∃ a, w.take (32 - n / 8) = a := ⟨_, rfl⟩
  obtain ⟨c, b, hcb⟩ : ∃ c b, w.drop (32 - n / 8) = c :: b :=
    exists_cons_of_length_pos (by rw [length_drop, hw]; omega)
  have hlena : a.length = 32 - n / 8 := by
    rw [← ha, length_take, hw]
    omega
  have hlenb : b.length + 1 = n / 8 := by
    rw [← length_cons (a := c), ← hcb, length_drop, hw]
    omega
  have hw' : w = a ++ c :: b := by rw [← ha, ← hcb, take_append_drop]
  have hget : w.getD (32 - n / 8) 0 = c := by
    rw [hw', getD_append_right _ _ _ _ hlena.le, hlena, Nat.sub_self, getD_cons_zero]
  have hN : 256 ^ (n / 8) = 2 * 2 ^ (n - 1) := by
    rw [pow_bytes hn, ← pow_succ', Nat.sub_add_cancel (by omega)]
  have hMN : 256 ^ (32 - n / 8) * 256 ^ (n / 8) = 2 * 2 ^ 255 := by
    rw [← pow_add, Nat.sub_add_cancel (by omega)]
    rfl
  have hbit : 128 ≤ c.toNat ↔ 2 ^ (n - 1) ≤ beNat (c :: b) := by
    have hH : 2 ^ (n - 1) = 128 * 256 ^ b.length := by
      have h2 : 2 * 2 ^ (n - 1) = 2 * (128 * 256 ^ b.length) := by
        rw [← hN, ← hlenb, pow_succ]
        ring
      exact Nat.eq_of_mul_eq_mul_left (by decide) h2
    have hlow := beNat_lt b
    rw [hH, Blockchain.beNat_cons]
    constructor
    · intro h
      exact (Nat.mul_le_mul_right _ h).trans (Nat.le_add_right _ _)
    · intro h
      by_contra hc
      have := Nat.mul_le_mul_right (256 ^ b.length) (Nat.lt_of_not_le hc)
      rw [Nat.succ_mul] at this
      omega
  have hA := beNat_lt a
  have hB := beNat_lt (c :: b)
  rw [hlena] at hA
  rw [length_cons, hlenb] at hB
  have hval : beNat w = beNat a * 256 ^ (n / 8) + beNat (c :: b) := by
    rw [hw', beNat_append, length_cons, hlenb]
  have hext := sign_extended_iff hA hB hN hMN
  have hsigned : signed w = if 2 ^ 255 ≤ beNat w then ((beNat w : Nat) : Int) - 2 * (2 ^ 255 : Nat)
      else (beNat w : Nat) := by
    rw [signed]
    rfl
  rw [ha, hget, hsigned, hval]
  rw [Nat.cast_pow] at hext
  refine Iff.trans ?_ hext
  by_cases hc : 128 ≤ c.toNat
  · rw [if_pos ((top_bit_iff c).mpr hc), if_pos (hbit.mp hc), ← hlena]
    exact beNat_add_one_eq.symm
  · rw [if_neg (fun h => hc ((top_bit_iff c).mp h)), if_neg (fun h => hc (hbit.mpr h))]
    exact beNat_eq_zero.symm

/-! ## Encoders and decoders of one type -/

section Codec

variable (data : Bytes)

/-- Whatever is encoded and stands at a place is decoded there, as what `f` makes of it. -/
def Complete (enc : Encoder) (dec : Decoder) (f : SynValue → SynValue) : Prop :=
  ∀ v path pos b, enc v path = .ok b → At data pos b → dec pos = .ok (f v, b.length)

/-- Whatever is decoded at a place is encoded as what stands there. -/
def Sound (enc : Encoder) (dec : Decoder) : Prop :=
  ∀ pos v n, pos < 2 ^ 64 → dec pos = .ok (v, n) →
    ∃ b, At data pos b ∧ b.length = n ∧ ∀ path, enc v path = .ok b

/-- The call ends with a value or with an error of its own: it does not panic, as a slice does
that begins or ends outside the data, and it does return. -/
def Ends {α : Type} (x : Except Stop α) : Prop := ∀ e, x = .error e → ∃ message, e = .err message

/-- The decoder ends at each place from which a word does not leave the range of `usize`. -/
def Safe (dec : Decoder) : Prop := ∀ pos, pos + 32 < 2 ^ 64 → Ends (dec pos)

/-- The decoder takes the words with the property `P`, each as `val` of it. -/
def Reads (dec : Decoder) (P : Bytes → Prop) (val : Bytes → SynValue) : Prop :=
  ∀ pos r, dec pos = .ok r ↔ ∃ w, w.length = 32 ∧ At data pos w ∧ P w ∧ (val w, 32) = r

variable {data} {enc : Encoder} {dec : Decoder} {P : Bytes → Prop} {val : Bytes → SynValue}
variable {f : SynValue → SynValue}

theorem Reads.complete (h : Reads data dec P val)
    (henc : ∀ v path b, enc v path = .ok b → b.length = 32 ∧ P b ∧ val b = f v) :
    Complete data enc dec f := by
  intro v path pos b hb hat
  obtain ⟨hlen, hP, hval⟩ := henc v path b hb
  exact (h pos _).mpr ⟨b, hlen, hat, hP, by rw [hval, hlen]⟩

theorem Reads.sound (h : Reads data dec P val)
    (henc : ∀ w path, w.length = 32 → P w → enc (val w) path = .ok w) : Sound data enc dec := by
  intro pos v n _ hdec
  obtain ⟨w, hlen, hat, hP, heq⟩ := (h pos _).mp hdec
  cases heq
  exact ⟨w, hat, hlen, fun path => henc w path hlen hP⟩

end Codec

section Ends

variable {α β : Type} {message : Text}

theorem ok_ends {a : α} : Ends (.ok a) := nofun

theorem fail_ends : Ends (fail message : Except Stop α) := by
  rintro e ⟨⟩
  exact ⟨message, rfl⟩

variable {x : Except Stop α} {pos : Nat}

theorem bind_ends {g : α → Except Stop β} (hx : Ends x) (hg : ∀ a, x = .ok a → Ends (g a)) :
    Ends (x >>= g) := by
  cases x with
  | error e =>
    rintro e ⟨⟩
    exact hx e rfl
  | ok a => exact hg a rfl

theorem if_fail_ends {c : Prop} [Decidable c] (hx : ¬ c → Ends x) :
    Ends (if c then fail message else x) := by
  by_cases hc : c
  · rw [if_pos hc]
    exact fail_ends
  · rw [if_neg hc]
    exact hx hc

variable {data : Bytes} {fname : Text}

theorem byteRange_ends {i j : Nat} (hij : i ≤ j) (hj : j ≤ data.length) :
    Ends (byteRange data i j) := by
  rw [byteRange, if_pos ⟨hij, hj⟩]
  exact ok_ends

theorem word_ends (hpos : pos + 32 < 2 ^ 64) : Ends (word data fname pos) := by
  refine if_fail_ends fun h => byteRange_ends ?_ (Nat.le_of_not_lt h)
  rw [usizeAdd_eq hpos]
  exact Nat.le_add_right _ _

theorem usizeWord_ends {what : Text} (hpos : pos + 32 < 2 ^ 64) :
    Ends (usizeWord data fname pos what) :=
  bind_ends (word_ends hpos) fun _ _ =>
    if_fail_ends fun _ => if_fail_ends fun _ => ok_ends

end Ends

end Synsema.Abi
