import Synsema.Abi.Atomic
import Mathlib.Data.Nat.Size

/-!
# Types of one value

At a type without items, a value that stands encoded at a place is decoded there (`Complete`),
and what is decoded at a place stands there encoded (`Sound`).
-/

namespace Synsema.Abi

open Text Bytesutil List
open Except (bind_eq_ok)
open Captoken (beBytes)
open Captoken.Cur (beNat beNat_lt length_beBytes beNat_beBytes)
open Blockchain (Stop Slice toSlice At usizeAdd usizeAdd_eq beNat_append)

variable {keccak : Bytes → Bytes} {data : Bytes} {ename dname : Text}

/-! ## Atomic types -/

section Atomic

variable {c : Bytes → Prop} [DecidablePred c] {message : Bytes → Nat → Text}
variable {val : Bytes → SynValue}

theorem reads_of_check (hdata : data.length < 2 ^ 63) {P : Bytes → Prop}
    (hP : ∀ w, w.length = 32 → (¬ c w ↔ P w)) :
    Reads data (fun pos => do
      let w ← word data dname pos
      if c w then fail (message w pos) else return (val w, 32)) P val := by
  intro pos r
  simp only [bind_eq_ok, word_ok hdata, if_fail_ok, pure_ok]
  constructor
  · rintro ⟨w, ⟨hlen, hat⟩, hc, hr⟩
    exact ⟨w, hlen, hat, (hP w hlen).mp hc, hr⟩
  · rintro ⟨w, hlen, hat, hw, hr⟩
    exact ⟨w, ⟨hlen, hat⟩, (hP w hlen).mpr hw, hr⟩

theorem safe_of_check :
    Safe (fun pos => do
      let w ← word data dname pos
      if c w then fail (message w pos) else return (val w, 32)) :=
  fun _ hpos => bind_ends (word_ends hpos) fun _ _ => if_fail_ends fun _ => ok_ends

end Atomic

section Atoms

variable (hdata : data.length < 2 ^ 63)
include hdata

variable {n : Nat}

theorem reads_uint (h256 : n ≤ 256) (hn : n % 8 = 0) :
    Reads data (uintElem data dname n) (fun w => beNat w < 2 ^ n)
      (fun w => .number (fromBigint (beNat w))) := by
  refine reads_of_check hdata fun w hw => ?_
  rw [Bool.not_eq_false, allZero_take_iff hw (by omega), pow_bytes hn]

theorem reads_int (h8 : 8 ≤ n) (h256 : n ≤ 256) (hn : n % 8 = 0) :
    Reads data (intElem data dname n) (fun w => -2 ^ (n - 1) ≤ signed w ∧ signed w < 2 ^ (n - 1))
      (fun w => .number (fromBigint (signed w))) := by
  refine reads_of_check hdata fun w hw => ?_
  rw [← fill_iff hw h8 h256 hn, not_and, Bool.not_eq_false]
  refine ⟨fun h => ?_, fun h _ => h⟩
  by_cases hlt : n / 8 < 32
  · exact h hlt
  · have hzero : 32 - n / 8 = 0 := by omega
    rw [hzero, take_zero]
    rfl

theorem reads_address :
    Reads data (addressElem keccak data dname) (fun w => w.take 12 = replicate 12 0)
      (fun w => .text (eip55 keccak (w.drop 12))) := by
  refine reads_of_check hdata fun w hw => ?_
  rw [Bool.not_eq_false, allZero_iff, length_take, hw, Nat.min_eq_left (by decide)]

theorem reads_bool :
    Reads data (boolElem data dname)
      (fun w => w.take 31 = replicate 31 0 ∧ w.getD 31 0 ≤ 1)
      (fun w => .bool (w.getD 31 0 == 1)) := by
  refine reads_of_check hdata fun w hw => ?_
  rw [not_or, Bool.not_eq_false, allZero_iff, length_take, hw,
    Nat.min_eq_left (by decide), UInt8.not_lt]

theorem reads_fixedBytes {k : Nat} :
    Reads data (fixedBytesElem data dname k)
      (fun w => w.drop k = replicate (32 - k) 0) (fun w => .bytes (w.take k)) := by
  refine reads_of_check hdata fun w hw => ?_
  rw [Bool.not_eq_false, allZero_iff, length_drop, hw]

end Atoms

/-! ### What an integer is written as -/

variable {b : Bytes} {n : Nat} {path : Text} {v : SynValue} {i : Int}

theorem encodeAtomic_uint :
    encodeAtomic keccak ename (.uint n) v path = .ok b ↔
      ∃ k m : _, v = .number k ∧ asBigint k = some (m : Nat) ∧ m < 2 ^ n ∧ magWord m = b := by
  rw [encodeAtomic, bind_eq_ok]
  constructor
  · rintro ⟨i, hi, h⟩
    obtain ⟨k, rfl, hk⟩ := intValue_ok.mp hi
    rw [if_fail_ok, if_fail_ok, pure_ok] at h
    obtain ⟨hneg, hsize, rfl⟩ := h
    obtain ⟨m, rfl⟩ := Int.eq_ofNat_of_zero_le (Int.not_lt.mp hneg)
    exact ⟨k, m, rfl, hk, Nat.size_le.mp (Nat.le_of_not_lt hsize), rfl⟩
  · rintro ⟨k, m, rfl, hk, hm, rfl⟩
    refine ⟨m, intValue_ok.mpr ⟨k, rfl, hk⟩, ?_⟩
    rw [if_fail_ok, if_fail_ok, pure_ok]
    exact ⟨by omega, Nat.not_lt.mpr (Nat.size_le.mpr hm), rfl⟩

/-- The bytes of two's complement in a word. -/
def intWord (i : Int) : Bytes := magWord (if i < 0 then i + 2 ^ 256 else i).natAbs

theorem encodeAtomic_int :
    encodeAtomic keccak ename (.int n) v path = .ok b ↔
      ∃ k i, v = .number k ∧ asBigint k = some i ∧ (-2 ^ (n - 1) ≤ i ∧ i < 2 ^ (n - 1)) ∧
        intWord i = b := by
  rw [encodeAtomic, bind_eq_ok]
  constructor
  · rintro ⟨i, hi, h⟩
    obtain ⟨k, rfl, hk⟩ := intValue_ok.mp hi
    simp only at h
    rw [if_fail_ok, pure_ok, not_or, Int.not_le, Int.not_lt] at h
    exact ⟨k, i, rfl, hk, h.1.symm, h.2⟩
  · rintro ⟨k, i, rfl, hk, hi, rfl⟩
    refine ⟨i, intValue_ok.mpr ⟨k, rfl, hk⟩, ?_⟩
    simp only
    rw [if_fail_ok, pure_ok, not_or, Int.not_le, Int.not_lt]
    exact ⟨hi.symm, rfl⟩

theorem signed_intWord (h : -2 ^ 255 ≤ i ∧ i < 2 ^ 255) :
    (intWord i).length = 32 ∧ signed (intWord i) = i := by
  rw [signed, intWord, beNat_magWord]
  by_cases hneg : i < 0
  · rw [if_pos hneg, if_pos (by omega)]
    exact ⟨length_magWord (by omega), by omega⟩
  · rw [if_neg hneg, if_neg (by omega)]
    exact ⟨length_magWord (by omega), by omega⟩

theorem intWord_signed {w : Bytes} (hw : w.length = 32) : intWord (signed w) = w := by
  have hlt := beNat_lt_word hw
  have habs : (if signed w < 0 then signed w + 2 ^ 256 else signed w).natAbs = beNat w := by
    rw [signed]
    by_cases hb : 2 ^ 255 ≤ beNat w
    · rw [if_pos hb, if_pos (by omega)]
      omega
    · rw [if_neg hb, if_neg (by omega)]
      omega
  rw [intWord, habs, magWord_beNat hw]

/-! ### Each atomic type -/

/-- Encoding and decoding at a type are inverse to each other, and what is encoded has the size
of the type. -/
structure Faithful (keccak : Bytes → Bytes) (data : Bytes) (ename dname : Text) (t : AbiType) :
    Prop where
  complete : Complete data (encodeValue keccak ename t) (elem keccak data dname t)
    (canonical keccak t)
  sound : Sound data (encodeValue keccak ename t) (elem keccak data dname t)
  safe : Safe (elem keccak data dname t)
  sized : ∀ v path b, encodeValue keccak ename t v path = .ok b → t.isDynamic = false →
    b.length % 2 ^ 64 = t.staticSize ∧ 32 ≤ b.length

theorem Faithful.of_word {t : AbiType} {P : Bytes → Prop} {val : Bytes → SynValue}
    (hreads : Reads data (elem keccak data dname t) P val)
    (hsafe : Safe (elem keccak data dname t)) (hsize : t.staticSize = 32)
    (hput : ∀ v path b, encodeValue keccak ename t v path = .ok b →
      b.length = 32 ∧ P b ∧ val b = canonical keccak t v)
    (hget : ∀ w path, w.length = 32 → P w → encodeValue keccak ename t (val w) path = .ok w) :
    Faithful keccak data ename dname t where
  complete := hreads.complete hput
  sound := hreads.sound hget
  safe := hsafe
  sized := by
    intro v path b hb _
    rw [(hput v path b hb).1, hsize]
    exact ⟨rfl, Nat.le_refl _⟩

theorem canonical_number {k : Number} (hk : asBigint k = some i) :
    canonical keccak (.uint n) (.number k) = .number (fromBigint i) ∧
      canonical keccak (.int n) (.number k) = .number (fromBigint i) := by
  rw [canonical, canonical, hk]
  exact ⟨rfl, rfl⟩

section Atoms

variable (hdata : data.length < 2 ^ 63)
include hdata

variable {n : Nat}

theorem faithful_uint (h256 : n ≤ 256) (hn : n % 8 = 0) :
    Faithful keccak data ename dname (.uint n) := by
  have helem : elem keccak data dname (.uint n) = uintElem data dname n := by
    funext pos
    rw [elem]
  have hle : 2 ^ n ≤ 2 ^ 256 := Nat.pow_le_pow_right (by decide) h256
  refine Faithful.of_word (helem ▸ reads_uint hdata h256 hn) (helem ▸ safe_of_check) rfl ?_ ?_
  · intro v path b hb
    rw [encodeValue, encodeAtomic_uint] at hb
    · obtain ⟨k, m, rfl, hk, hm, rfl⟩ := hb
      rw [beNat_magWord, (canonical_number hk).1]
      exact ⟨length_magWord (hm.trans_le hle), hm, rfl⟩
    all_goals nofun
  · intro w path hw hlt
    rw [encodeValue, encodeAtomic_uint]
    · exact ⟨_, _, rfl, asBigint_fromBigint _, hlt, magWord_beNat hw⟩
    all_goals nofun

theorem faithful_int (h8 : 8 ≤ n) (h256 : n ≤ 256) (hn : n % 8 = 0) :
    Faithful keccak data ename dname (.int n) := by
  have helem : elem keccak data dname (.int n) = intElem data dname n := by
    funext pos
    rw [elem]
  have hle : (2 : Int) ^ (n - 1) ≤ 2 ^ 255 := pow_le_pow_right₀ (by decide) (by omega)
  refine Faithful.of_word (helem ▸ reads_int hdata h8 h256 hn) (helem ▸ safe_of_check) rfl ?_ ?_
  · intro v path b hb
    rw [encodeValue, encodeAtomic_int] at hb
    · obtain ⟨k, i, rfl, hk, hi, rfl⟩ := hb
      obtain ⟨hlen, hval⟩ := signed_intWord (i := i) ⟨by omega, by omega⟩
      rw [hval, (canonical_number hk).2]
      exact ⟨hlen, hi, rfl⟩
    all_goals nofun
  · intro w path hw hrange
    rw [encodeValue, encodeAtomic_int]
    · exact ⟨_, _, rfl, asBigint_fromBigint _, hrange, intWord_signed hw⟩
    all_goals nofun

theorem faithful_address : Faithful keccak data ename dname .address := by
  have helem : elem keccak data dname .address = addressElem keccak data dname := by
    funext pos
    rw [elem]
  refine Faithful.of_word (helem ▸ reads_address hdata) (helem ▸ safe_of_check) rfl ?_ ?_
  · intro v path b hb
    rw [encodeValue, encodeAtomic, bind_eq_ok] at hb
    · obtain ⟨a, ha, hb⟩ := hb
      rw [addr20_ok] at ha
      obtain rfl := pure_ok.mp hb
      have hdrop : (replicate 12 0 ++ a).drop 12 = a := drop_left' (by simp)
      refine ⟨by simp [ha.length_eq], take_left' (by simp), ?_⟩
      rw [canonical, addr20_ok.mpr ha, hdrop]
    all_goals nofun
  · intro w path hw hzero
    have hlen : (w.drop 12).length = 20 := by rw [length_drop, hw]
    rw [encodeValue, encodeAtomic, addr20_ok.mpr (denotes_eip55 hlen)]
    · change Except.ok _ = _
      rw [← hzero, take_append_drop]
    all_goals nofun

theorem faithful_bool : Faithful keccak data ename dname .bool := by
  have helem : elem keccak data dname .bool = boolElem data dname := by
    funext pos
    rw [elem]
  refine Faithful.of_word (helem ▸ reads_bool hdata) (helem ▸ safe_of_check) rfl ?_ ?_
  · intro v path b hb
    cases v with
    | bool x =>
      cases hb
      refine ⟨by simp, ⟨take_left' (by simp), ?_⟩, ?_⟩
      · cases x <;> decide
      · cases x <;> rfl
    | _ => cases hb
  · rintro w path hw ⟨hzero, hle⟩
    have hlast : w.drop 31 = [w.getD 31 0] := by
      obtain ⟨x, hx⟩ := length_eq_one_iff.mp (show (w.drop 31).length = 1 by simp [hw])
      have hget : w.getD 31 0 = x := by
        rw [← take_append_drop 31 w, hx, getD_append_right _ _ _ _ (by simp)]
        simp [hw]
      rw [hx, hget]
    have hbit : (if (w.getD 31 0 == 1) = true then 1 else 0) = w.getD 31 0 := by
      rw [UInt8.le_iff_toNat_le] at hle
      by_cases hone : w.getD 31 0 = 1
      · rw [hone]
        rfl
      · have hne : (w.getD 31 0).toNat ≠ 1 := fun h => hone (UInt8.toNat.inj h)
        have hzero : w.getD 31 0 = 0 := UInt8.toNat.inj (by
          change (w.getD 31 0).toNat ≤ 1 at hle
          change (w.getD 31 0).toNat = 0
          omega)
        rw [hzero]
        rfl
    change Except.ok (replicate 31 0 ++ [if (w.getD 31 0 == 1) = true then 1 else 0]) = _
    rw [hbit, ← hlast, ← hzero, take_append_drop]

theorem faithful_fixedBytes {k : Nat} (hk : k ≤ 32) :
    Faithful keccak data ename dname (.fixedBytes k) := by
  have helem : elem keccak data dname (.fixedBytes k) = fixedBytesElem data dname k := by
    funext pos
    rw [elem]
  refine Faithful.of_word (helem ▸ reads_fixedBytes hdata) (helem ▸ safe_of_check) rfl ?_ ?_
  · intro v path b hb
    cases v with
    | bytes x =>
      rw [encodeValue, encodeAtomic, if_fail_ok, not_not] at hb
      · obtain ⟨rfl, ⟨⟩⟩ := hb
        exact ⟨by simp [hk], drop_left, by rw [take_left]; rfl⟩
      all_goals nofun
    | _ => cases hb
  · intro w path hw hzero
    rw [encodeValue, encodeAtomic, if_fail_ok, not_not, ← hzero, take_append_drop]
    · exact ⟨by simp [hw, hk], rfl⟩
    all_goals nofun

end Atoms

/-! ## Bytes and texts -/

theorem pad32Len_bounds (n : Nat) : n ≤ pad32Len n ∧ pad32Len n < n + 32 := by
  rw [pad32Len]
  omega

theorem length_padded (b : Bytes) : (padded b).length = 32 + pad32Len b.length := by
  have := (pad32Len_bounds b.length).1
  simp only [padded, length_append, length_u256Word, length_replicate]
  omega

section Content

variable (hdata : data.length < 2 ^ 63)
include hdata

variable {pos : Nat} {t : AbiType}

theorem content_ok {n : Nat} {b : Bytes} :
    content data dname t pos = .ok (b, n) ↔ At data pos (padded b) ∧ (padded b).length = n := by
  simp only [content, bind_eq_ok, if_fail_ok, pure_ok, Prod.mk.injEq]
  constructor
  · rintro ⟨len, hlen, hfits, hroom, filler, hfiller, hzero, b, hb, rfl, rfl⟩
    obtain ⟨hle, hword⟩ := (usizeWord_ok hdata).mp hlen
    have hend := hword.le
    rw [length_u256Word] at hend
    have hstart : usizeAdd pos 32 = pos + 32 := usizeAdd_eq (by omega)
    rw [hstart] at hfits hroom hfiller hb
    have hcontent : usizeAdd (pos + 32) len = pos + 32 + len := usizeAdd_eq (by omega)
    rw [hcontent] at hfits hfiller hb
    obtain ⟨hlow, hhigh⟩ := pad32Len_bounds len
    have hpad : usizeAdd (pos + 32) (pad32Len len) = pos + 32 + pad32Len len :=
      usizeAdd_eq (by omega)
    rw [hpad] at hroom hfiller
    obtain ⟨hblen, hbat⟩ := byteRange_ok.mp hb
    obtain ⟨hflen, hfat⟩ := byteRange_ok.mp hfiller
    obtain rfl : b.length = len := by omega
    have hzeros : filler = replicate (pad32Len b.length - b.length) 0 := by
      rw [allZero_iff.mp (Bool.of_not_eq_false hzero)]
      congr 1
      omega
    refine ⟨?_, ?_⟩
    · rw [padded, At.append_iff, At.append_iff, length_append, length_u256Word, ← hzeros,
        ← Nat.add_assoc]
      exact ⟨⟨hword, hbat⟩, hfat⟩
    · rw [length_padded, usizeAdd_eq (by omega)]
  · rintro ⟨hat, rfl⟩
    have hend := hat.le
    rw [length_padded] at hend
    obtain ⟨hlow, hhigh⟩ := pad32Len_bounds b.length
    rw [padded, At.append_iff, At.append_iff, length_append, length_u256Word,
      ← Nat.add_assoc] at hat
    obtain ⟨⟨hword, hbat⟩, hfat⟩ := hat
    have hstart : usizeAdd pos 32 = pos + 32 := usizeAdd_eq (by omega)
    have hcontent : usizeAdd (pos + 32) b.length = pos + 32 + b.length := usizeAdd_eq (by omega)
    have hpad : usizeAdd (pos + 32) (pad32Len b.length) = pos + 32 + pad32Len b.length :=
      usizeAdd_eq (by omega)
    refine ⟨b.length, (usizeWord_ok hdata).mpr ⟨by omega, hword⟩, ?_⟩
    rw [hstart, hcontent, hpad]
    refine ⟨by omega, by omega, _, byteRange_ok.mpr ⟨?_, hfat⟩, ?_, b,
      byteRange_ok.mpr ⟨rfl, hbat⟩, rfl, ?_⟩
    · rw [length_replicate]
      omega
    · rw [Bool.not_eq_false, allZero_iff, length_replicate]
    · rw [length_padded, usizeAdd_eq (by omega)]

theorem content_ends (hpos : pos + 32 < 2 ^ 64) : Ends (content data dname t pos) := by
  refine bind_ends (usizeWord_ends hpos) fun len hlen => ?_
  obtain ⟨hle, hword⟩ := (usizeWord_ok hdata).mp hlen
  have hend := hword.le
  rw [length_u256Word] at hend
  obtain ⟨hlow, hhigh⟩ := pad32Len_bounds len
  have hstart : usizeAdd pos 32 = pos + 32 := usizeAdd_eq (by omega)
  have hcontent : usizeAdd (pos + 32) len = pos + 32 + len := usizeAdd_eq (by omega)
  simp only [hstart, hcontent]
  refine if_fail_ends fun hfits => if_fail_ends fun hroom => ?_
  rw [usizeAdd_eq (by omega)] at hroom ⊢
  refine bind_ends (byteRange_ends (by omega) (by omega)) fun _ _ => ?_
  refine if_fail_ends fun _ => ?_
  exact bind_ends (byteRange_ends (by omega) (by omega)) fun _ _ => ok_ends

theorem faithful_bytes : Faithful keccak data ename dname .bytes where
  complete := by
    intro v path pos b hb hat
    cases v with
    | bytes x =>
      cases hb
      rw [elem, bind_eq_ok]
      exact ⟨_, (content_ok hdata).mpr ⟨hat, rfl⟩, rfl⟩
    | _ => cases hb
  sound := by
    intro pos v n _ h
    rw [elem, bind_eq_ok] at h
    obtain ⟨⟨b, k⟩, hb, h⟩ := h
    cases h
    obtain ⟨hat, hlen⟩ := (content_ok hdata).mp hb
    exact ⟨padded b, hat, hlen, fun path => rfl⟩
  safe := by
    intro pos hpos
    rw [elem]
    exact bind_ends (content_ends hdata hpos) fun _ _ => ok_ends
  sized := fun _ _ _ _ h => by cases h

theorem faithful_string : Faithful keccak data ename dname .string where
  complete := by
    intro v path pos b hb hat
    cases v with
    | text x =>
      cases hb
      rw [elem, bind_eq_ok]
      refine ⟨_, (content_ok hdata).mpr ⟨hat, rfl⟩, ?_⟩
      simp only [fromUtf8_utf8]
      rfl
    | _ => cases hb
  sound := by
    intro pos v n _ h
    rw [elem, bind_eq_ok] at h
    obtain ⟨⟨b, k⟩, hb, h⟩ := h
    obtain ⟨hat, hlen⟩ := (content_ok hdata).mp hb
    simp only at h
    cases htext : fromUtf8 b with
    | none =>
      rw [htext] at h
      cases h
    | some x =>
      rw [htext] at h
      cases h
      refine ⟨padded b, hat, hlen, fun path => ?_⟩
      rw [← utf8_of_fromUtf8 htext]
      rfl
  safe := by
    intro pos hpos
    rw [elem]
    refine bind_ends (content_ends hdata hpos) fun r _ => ?_
    cases fromUtf8 r.1 with
    | none => exact fail_ends
    | some x => exact ok_ends
  sized := fun _ _ _ _ h => by cases h

end Content

end Synsema.Abi
