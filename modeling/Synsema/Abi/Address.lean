import Synsema.Abi.Types

/-!
# Addresses

An address that `eip55` writes is one that `addr20` takes, and gives the same 20 bytes.
-/

namespace Synsema.Abi

open Text Bytesutil List
open Blockchain (Stop)

variable {keccak : Bytes → Bytes}

/-! ## Hexadecimal digits -/

/-- The character is a digit of value `n`, in either case. -/
def DigitOf (c : Char) (n : Nat) : Prop := hexVal c = some n

theorem digitOf_hexDigit {n : Nat} (hn : n < 16) : DigitOf (hexDigit n) n := by
  have : ∀ n < 16, hexVal (hexDigit n) = some n := by decide
  exact this n hn

theorem digitOf_toUpper {n : Nat} (hn : n < 16) : DigitOf (hexDigit n).toUpper n := by
  have : ∀ n < 16, hexVal (hexDigit n).toUpper = some n := by decide
  exact this n hn

/-- The values of the two digits of a byte. -/
def nibbles (c : UInt8) : List Nat := [c.toNat / 16, c.toNat % 16]

theorem hexEncode_eq (b : Bytes) : hexEncode b = (b.flatMap nibbles).map hexDigit := by
  rw [hexEncode, map_flatMap]
  rfl

variable {b a : Bytes} {t : Text}

theorem nibbles_lt : ∀ n ∈ b.flatMap nibbles, n < 16 := by
  intro n hn
  obtain ⟨c, -, hc⟩ := mem_flatMap.mp hn
  have := c.toNat_lt
  rcases List.mem_cons.mp hc with rfl | hc
  · omega
  · obtain rfl := mem_singleton.mp hc
    omega

theorem digits_checksummed {ds : List Nat} (hds : ∀ n ∈ ds, n < 16) (hash : Text) :
    Forall₂ DigitOf (checksummed (ds.map hexDigit) hash) ds := by
  induction ds generalizing hash with
  | nil => exact Forall₂.nil
  | cons n ds ih =>
    obtain ⟨hn, hds⟩ := forall_mem_cons.mp hds
    refine Forall₂.cons ?_ (ih hds _)
    split_ifs
    · exact digitOf_hexDigit hn
    · exact digitOf_toUpper hn
    · exact digitOf_hexDigit hn

theorem hexPairs_of_digits (h : Forall₂ DigitOf t (b.flatMap nibbles)) :
    hexPairs t = some b := by
  induction b generalizing t with
  | nil =>
    obtain rfl := forall₂_nil_right_iff.mp h
    rfl
  | cons c b ih =>
    rw [flatMap_cons, nibbles, cons_append, cons_append, nil_append] at h
    obtain ⟨hi, u, hhi, hu, rfl⟩ := forall₂_cons_right_iff.mp h
    obtain ⟨lo, t, hlo, ht, rfl⟩ := forall₂_cons_right_iff.mp hu
    have hc : UInt8.ofNat (c.toNat / 16 * 16 + c.toNat % 16) = c := by
      rw [Nat.div_add_mod', UInt8.ofNat_toNat]
    rw [hexPairs, hhi, hlo, ih ht]
    exact congrArg (fun d => some (d :: b)) hc

theorem length_hexPairs (h : hexPairs t = some b) : t.length = 2 * b.length := by
  induction t using hexPairs.induct generalizing b with
  | case1 =>
    cases h
    rfl
  | case2 => cases h
  | case3 hi lo t ih =>
    rw [hexPairs] at h
    simp only [Option.bind_eq_bind, Option.bind_eq_some_iff] at h
    obtain ⟨_, -, _, -, b, hb, h⟩ := h
    cases h
    rw [length_cons, length_cons, ih hb, length_cons]
    ring

theorem length_utf8_of_hex (h : t.all isHexDigit) : (utf8 t).length = t.length := by
  induction t with
  | nil => rfl
  | cons c t ih =>
    rw [all_cons, Bool.and_eq_true] at h
    have hc : c.utf8Size = 1 := by
      rw [Char.utf8Size_eq_one_iff]
      have hhex := h.1
      rw [isHexDigit, hexVal] at hhex
      split_ifs at hhex with h₁ h₂ h₃
      · exact UInt32.le_trans h₁.2 (by decide : '9'.val ≤ 127)
      · exact UInt32.le_trans h₂.2 (by decide : 'f'.val ≤ 127)
      · exact UInt32.le_trans h₃.2 (by decide : 'F'.val ≤ 127)
      · cases hhex
    rw [utf8, flatMap_cons, length_append, String.length_utf8EncodeChar, hc, ← utf8, ih h.2,
      length_cons, Nat.add_comm]

/-! ## What is an address -/

/-- The value stands for the address `a`: it is its bytes, or its digits after `0x`, with the
checksum of the address where they have both small letters and capitals. -/
inductive Denotes (keccak : Bytes → Bytes) : SynValue → Bytes → Prop
  | bytes {a : Bytes} (hlen : a.length = 20) : Denotes keccak (.bytes a) a
  | text {s hexs : Text} {a : Bytes} (hstrip : stripHexPrefix s = some hexs)
      (hlen : hexs.length = 40) (hhex : hexs.all isHexDigit = true)
      (hraw : hexPairs hexs = some a)
      (hsum : ¬ (hexs.any Char.isLower ∧ hexs.any Char.isUpper ∧
        (eip55 keccak a).drop 2 ≠ hexs)) : Denotes keccak (.text s) a

theorem addr20_ok {v : SynValue} {path fname : Text} :
    addr20 keccak v path fname = .ok a ↔ Denotes keccak v a := by
  constructor
  · intro h
    cases v with
    | bytes b =>
      rw [addr20, if_fail_ok] at h
      obtain ⟨hlen, ⟨⟩⟩ := h
      exact .bytes (not_not.mp hlen)
    | text s =>
      rw [addr20] at h
      cases hstrip : stripHexPrefix s with
      | none =>
        rw [hstrip] at h
        cases h
      | some hexs =>
        rw [hstrip] at h
        simp only at h
        rw [if_fail_ok, not_or, not_not, Bool.not_eq_false] at h
        obtain ⟨⟨hlen, hhex⟩, h⟩ := h
        cases hraw : hexPairs hexs with
        | none =>
          rw [hraw] at h
          cases h
        | some raw =>
          rw [hraw] at h
          simp only at h
          rw [if_fail_ok] at h
          obtain ⟨hsum, ⟨⟩⟩ := h
          exact .text hstrip (length_utf8_of_hex hhex ▸ hlen) hhex hraw hsum
    | _ => cases h
  · intro h
    cases h with
    | bytes hlen =>
      rw [addr20, if_neg (not_not.mpr hlen)]
    | text hstrip hlen hhex hraw hsum =>
      rw [addr20, hstrip]
      simp only
      rw [if_neg (by rw [length_utf8_of_hex hhex, hlen, hhex]; decide), hraw]
      simp only
      rw [if_neg hsum]

theorem Denotes.length_eq {v : SynValue} (h : Denotes keccak v a) : a.length = 20 := by
  cases h with
  | bytes hlen => exact hlen
  | text _ hlen _ hraw _ =>
    have := length_hexPairs hraw
    omega

theorem denotes_eip55 (ha : a.length = 20) : Denotes keccak (.text (eip55 keccak a)) a := by
  have hdigits := digits_checksummed (nibbles_lt (b := a)) (hexEncode (keccak (utf8 (hexEncode a))))
  rw [← hexEncode_eq] at hdigits
  refine .text rfl ?_ ?_ (hexPairs_of_digits hdigits) (fun h => h.2.2 rfl)
  · refine hdigits.length_eq.trans ?_
    have htwo : ∀ c ∈ a, (nibbles c).length = 2 := fun _ _ => rfl
    rw [length_flatMap, map_congr_left htwo, map_const', sum_replicate, ha]
    rfl
  · rw [all_eq_true]
    intro c hc
    obtain ⟨i, hi, rfl⟩ := mem_iff_getElem.mp hc
    have hdigit := (forall₂_iff_get.mp hdigits).2 i hi (hdigits.length_eq ▸ hi)
    exact Option.isSome_of_mem hdigit

end Synsema.Abi
