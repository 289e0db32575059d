import Synsema.Abi.Scopes

/-!
# Decoding inverts encoding

`abi_decode` takes what `abi_encode` gives, and nothing else: what it takes is encoded as the
bytes that it came from.  Type by type this is an induction over the types of a signature.
-/

namespace Synsema.Abi

open Blockchain (Stop Slice toSlice At usizeAdd usizeAdd_eq)
open Except (bind_eq_ok)

variable {keccak : Bytes → Bytes} {data : Bytes} {ename dname : Text}

/-! ## Types with items -/

theorem sumHeadSize_replicate {t : AbiType} (ht : t.isDynamic = false) (k : Nat) :
    AbiType.sumHeadSize (List.replicate k t) = AbiType.usizeMul t.staticSize k := by
  induction k with
  | zero => rfl
  | succ k ih =>
    rw [List.replicate_succ, AbiType.sumHeadSize, ih, AbiType.headSize, if_neg (by simp [ht]),
      AbiType.usizeMul, AbiType.usizeMul, usizeAdd, Nat.add_mod_mod, Nat.mul_succ, Nat.add_comm]

theorem sumHeadSize_static {ts : List AbiType} (hts : AbiType.anyDynamic ts = false) :
    AbiType.sumHeadSize ts = AbiType.sumStaticSize ts := by
  induction ts with
  | nil => rfl
  | cons t ts ih =>
    rw [AbiType.anyDynamic, Bool.or_eq_false_iff] at hts
    rw [AbiType.sumHeadSize, AbiType.sumStaticSize, ih hts.2, AbiType.headSize,
      if_neg (by simp [hts.1])]

theorem anyDynamic_replicate {t : AbiType} (ht : t.isDynamic = false) (k : Nat) :
    AbiType.anyDynamic (List.replicate k t) = false := by
  rw [← Bool.not_eq_true, AbiType.anyDynamic_iff]
  rintro ⟨u, hu, hdyn⟩
  rw [List.eq_of_mem_replicate hu, ht] at hdyn
  cases hdyn

section Items

variable {t : AbiType} {ts : List AbiType} {items : List SynValue} {v : SynValue}
variable {path : Text} {b : Bytes} {k : Nat}

theorem listItems_ok : listItems ename v path = .ok items ↔ v = .list items := by
  constructor
  · intro h
    cases v with
    | list l =>
      cases h
      rfl
    | _ => cases h
  · rintro rfl
    rfl

theorem encodeValue_array :
    encodeValue keccak ename (.array t) v path = .ok b ↔
      ∃ items body, v = .list items ∧ encodeScope (itemPath path)
        (encoders keccak ename (List.replicate items.length t)) items = .ok body ∧
        u256Word items.length ++ body = b := by
  rw [encodeValue, bind_eq_ok]
  simp only [listItems_ok, bind_eq_ok, pure_ok, encoders_replicate, exists_and_left]

theorem encodeValue_fixedArray :
    encodeValue keccak ename (.fixedArray t k) v path = .ok b ↔
      ∃ items, v = .list items ∧ items.length = k ∧ encodeScope (itemPath path)
        (encoders keccak ename (List.replicate k t)) items = .ok b := by
  rw [encodeValue, bind_eq_ok]
  simp only [listItems_ok, if_fail_ok, not_not, encoders_replicate]

theorem encodeValue_tuple :
    encodeValue keccak ename (.tuple ts) v path = .ok b ↔
      ∃ items, v = .list items ∧ items.length = ts.length ∧ encodeScope (itemPath path)
        (encoders keccak ename ts) items = .ok b := by
  rw [encodeValue, bind_eq_ok]
  simp only [listItems_ok, if_fail_ok, not_not]

variable (hdata : data.length < 2 ^ 63)
include hdata

theorem faithful_array (ht : Faithful keccak data ename dname t) :
    Faithful keccak data ename dname (.array t) where
  complete := by
    intro v path pos b hb hat
    obtain ⟨items, body, rfl, henc, rfl⟩ := encodeValue_array.mp hb
    have hfits := hat.le
    rw [At.append_iff, length_u256Word] at hat
    rw [List.length_append, length_u256Word] at hfits ⊢
    have hall : ∀ u ∈ List.replicate items.length t, Faithful keccak data ename dname u :=
      fun u hu => List.eq_of_mem_replicate hu ▸ ht
    obtain ⟨hscope, hroom⟩ := scope_of_encodeScope hdata hall (by simp) henc hat.2
    rw [List.length_replicate] at hroom
    rw [elems_replicate, canonicals_replicate] at hscope
    simp only [elem, bind_eq_ok, if_fail_ok, pure_ok, canonical]
    refine ⟨items.length, (usizeWord_ok hdata).mpr ⟨by omega, hat.1⟩, ?_⟩
    rw [usizeAdd_eq (a := pos) (by omega)]
    refine ⟨by omega, _, hscope, ?_⟩
    rw [usizeAdd_eq (by omega)]
  sound := by
    intro pos v n _ hdec
    simp only [elem, bind_eq_ok, if_fail_ok, pure_ok] at hdec
    obtain ⟨k, hk, -, ⟨vs, m⟩, hscope, heq⟩ := hdec
    cases heq
    obtain ⟨hle, hword⟩ := (usizeWord_ok hdata).mp hk
    have hend := hword.le
    rw [length_u256Word] at hend
    rw [usizeAdd_eq (by omega), ← elems_replicate] at hscope
    have hall : ∀ u ∈ List.replicate k t, Faithful keccak data ename dname u :=
      fun u hu => List.eq_of_mem_replicate hu ▸ ht
    obtain ⟨body, henc, hlen, hat, rfl⟩ :=
      encodeScope_of_scope hdata hall (by omega) (fun _ => hend) hscope
    have hfits := hat.le
    rw [List.length_replicate] at hlen
    subst hlen
    refine ⟨u256Word vs.length ++ body, ?_, ?_, fun path => ?_⟩
    · rw [At.append_iff, length_u256Word]
      exact ⟨hword, hat⟩
    · rw [List.length_append, length_u256Word, usizeAdd_eq (by omega)]
    · exact encodeValue_array.mpr ⟨vs, body, rfl, henc _, rfl⟩
  safe := by
    intro pos hpos
    rw [elem]
    refine bind_ends (usizeWord_ends hpos) fun k hk => if_fail_ends fun _ => ?_
    have hend := ((usizeWord_ok hdata).mp hk).2.le
    rw [length_u256Word] at hend
    rw [usizeAdd_eq (by omega), ← elems_replicate]
    have hall : ∀ u ∈ List.replicate k t, Faithful keccak data ename dname u :=
      fun u hu => List.eq_of_mem_replicate hu ▸ ht
    exact bind_ends (scope_safe hdata hall (by omega)) fun _ _ => ok_ends
  sized := fun _ _ _ _ h => by cases h

theorem faithful_fixedArray (ht : Faithful keccak data ename dname t) (hk : 0 < k) :
    Faithful keccak data ename dname (.fixedArray t k) := by
  have hall : ∀ u ∈ List.replicate k t, Faithful keccak data ename dname u :=
    fun u hu => List.eq_of_mem_replicate hu ▸ ht
  refine ⟨?_, ?_, ?_, ?_⟩
  · intro v path pos b hb hat
    obtain ⟨items, rfl, rfl, henc⟩ := encodeValue_fixedArray.mp hb
    obtain ⟨hscope, -⟩ := scope_of_encodeScope hdata hall (by simp) henc hat
    rw [elems_replicate, canonicals_replicate] at hscope
    rw [elem, hscope, canonical]
    rfl
  · intro pos v n hpos hdec
    simp only [elem, bind_eq_ok, pure_ok] at hdec
    obtain ⟨⟨vs, m⟩, hscope, heq⟩ := hdec
    cases heq
    rw [← elems_replicate] at hscope
    have hne : List.replicate k t ≠ [] := by
      rw [ne_eq, List.replicate_eq_nil_iff]
      exact hk.ne'
    obtain ⟨b, henc, hlen, hat, rfl⟩ :=
      encodeScope_of_scope hdata hall hpos (fun h => (hne h).elim) hscope
    rw [List.length_replicate] at hlen
    exact ⟨b, hat, rfl, fun path => encodeValue_fixedArray.mpr ⟨vs, rfl, hlen, henc _⟩⟩
  · intro pos hpos
    rw [elem, ← elems_replicate]
    exact bind_ends (scope_safe hdata hall hpos) fun _ _ => ok_ends
  · intro v path b hb hstatic
    obtain ⟨items, rfl, hlen, henc⟩ := encodeValue_fixedArray.mp hb
    rw [AbiType.isDynamic] at hstatic
    obtain ⟨hs, tl, h, rfl⟩ := encodeScope_ok.mp henc
    obtain ⟨hmod, hle, htl⟩ := length_encodeItems hall (by simpa using hlen) h
    rw [htl (anyDynamic_replicate hstatic k), List.append_nil, hmod,
      sumHeadSize_replicate hstatic, AbiType.staticSize]
    rw [List.length_replicate] at hle
    exact ⟨rfl, by omega⟩

theorem faithful_tuple (hts : ts ≠ []) (hall : ∀ t ∈ ts, Faithful keccak data ename dname t) :
    Faithful keccak data ename dname (.tuple ts) := by
  refine ⟨?_, ?_, ?_, ?_⟩
  · intro v path pos b hb hat
    obtain ⟨items, rfl, hlen, henc⟩ := encodeValue_tuple.mp hb
    rw [elem, (scope_of_encodeScope hdata hall hlen henc hat).1, canonical]
    rfl
  · intro pos v n hpos hdec
    simp only [elem, bind_eq_ok, pure_ok] at hdec
    obtain ⟨⟨vs, m⟩, hscope, heq⟩ := hdec
    cases heq
    obtain ⟨b, henc, hlen, hat, rfl⟩ :=
      encodeScope_of_scope hdata hall hpos (fun h => (hts h).elim) hscope
    exact ⟨b, hat, rfl, fun path => encodeValue_tuple.mpr ⟨vs, rfl, hlen, henc _⟩⟩
  · intro pos hpos
    rw [elem]
    exact bind_ends (scope_safe hdata hall hpos) fun _ _ => ok_ends
  · intro v path b hb hstatic
    obtain ⟨items, rfl, hlen, henc⟩ := encodeValue_tuple.mp hb
    rw [AbiType.isDynamic] at hstatic
    obtain ⟨hs, tl, h, rfl⟩ := encodeScope_ok.mp henc
    obtain ⟨hmod, hle, htl⟩ := length_encodeItems hall hlen h
    have hpos := List.length_pos_iff.mpr hts
    rw [htl hstatic, List.append_nil, hmod, sumHeadSize_static hstatic, AbiType.staticSize]
    exact ⟨rfl, by omega⟩

end Items

mutual

theorem faithful (hdata : data.length < 2 ^ 63) :
    ∀ {t : AbiType}, t.Valid → Faithful keccak data ename dname t
  | .uint _, h => faithful_uint hdata h.2.1 h.2.2
  | .int _, h => faithful_int hdata h.1 h.2.1 h.2.2
  | .address, _ => faithful_address hdata
  | .bool, _ => faithful_bool hdata
  | .fixedBytes _, h => faithful_fixedBytes hdata h.2
  | .bytes, _ => faithful_bytes hdata
  | .string, _ => faithful_string hdata
  | .array _, h => faithful_array hdata (faithful hdata h)
  | .fixedArray _ _, h => faithful_fixedArray hdata (faithful hdata h.1) h.2.1
  | .tuple _, h => faithful_tuple hdata h.1 (faithfulAll hdata h.2)
  | .struct _, h => h.elim

theorem faithfulAll (hdata : data.length < 2 ^ 63) :
    ∀ {ts : List AbiType}, AbiType.AllValid ts → ∀ t ∈ ts, Faithful keccak data ename dname t
  | [], _ => fun _ ht => absurd ht List.not_mem_nil
  | _ :: _, h => List.forall_mem_cons.mpr ⟨faithful hdata h.1, faithfulAll hdata h.2⟩

end

/-! ## Whole calls -/

section Calls

variable {ts : List AbiType} {vals : List SynValue} {b : Slice}

theorem abiEncode_ok :
    abiEncode keccak ts vals = .ok b ↔ vals.length = ts.length ∧
      encodeScope argumentPath (encoders keccak "abi_encode" ts) vals = .ok b.1 := by
  rw [abiEncode, if_fail_ok, not_not, bind_eq_ok]
  refine and_congr_right fun _ => ?_
  constructor
  · rintro ⟨out, hout, h⟩
    rw [toSlice] at h
    split_ifs at h with hlt
    cases h
    exact hout
  · intro h
    exact ⟨b.1, h, by rw [toSlice, dif_pos b.2]⟩

theorem abiDecode_ok :
    abiDecode keccak ts b = .ok vals ↔
      scope b.1 "abi_decode" (elems keccak b.1 "abi_decode" ts) 0 =
        .ok (vals, b.1.length) := by
  simp only [abiDecode, bind_eq_ok, if_fail_ok, pure_ok, not_not]
  constructor
  · rintro ⟨⟨vs, n⟩, hscope, rfl, rfl⟩
    exact hscope
  · intro h
    exact ⟨_, h, rfl, rfl⟩

theorem abiDecode_of_abiEncode (hts : AbiType.AllValid ts) (h : abiEncode keccak ts vals = .ok b) :
    abiDecode keccak ts b = .ok (canonicals keccak ts vals) := by
  obtain ⟨hlen, henc⟩ := abiEncode_ok.mp h
  have hat : At b.1 0 b.1 := ⟨[], [], by simp, rfl⟩
  exact abiDecode_ok.mpr (scope_of_encodeScope b.2 (faithfulAll b.2 hts) hlen henc hat).1

theorem abiEncode_of_abiDecode (hts : AbiType.AllValid ts) (h : abiDecode keccak ts b = .ok vals) :
    abiEncode keccak ts vals = .ok b := by
  have hall : ∀ t ∈ ts, Faithful keccak b.1 "abi_encode" "abi_decode" t :=
    faithfulAll b.2 hts
  obtain ⟨out, henc, hlen, ⟨l, r, hb, hl⟩, hn⟩ := encodeScope_of_scope b.2 hall (by decide)
    (fun _ => Nat.zero_le _) (abiDecode_ok.mp h)
  have hout : out = b.1 := by
    have hlens := congrArg List.length hb
    rw [List.length_append, List.length_append] at hlens
    obtain rfl := List.eq_nil_of_length_eq_zero hl
    obtain rfl : r = [] := List.eq_nil_of_length_eq_zero (by omega)
    rw [hb, List.nil_append, List.append_nil]
  exact abiEncode_ok.mpr ⟨hlen, hout ▸ henc _⟩

end Calls

/-- Decoding is the exact inverse of encoding, at the types of a signature.  What `abi_encode`
accepts `abi_decode` gives back, with the integers as integers and the addresses as texts; what
`abi_decode` accepts is the encoding of what it gives, so no two byte strings decode to the same
values; and it ends on every byte string without reading outside it. -/
theorem abi_inverse (keccak : Bytes → Bytes) (ts : List AbiType) (hts : AbiType.AllValid ts) :
    (∀ vals b, abiEncode keccak ts vals = .ok b →
      abiDecode keccak ts b = .ok (canonicals keccak ts vals)) ∧
    (∀ b vals, abiDecode keccak ts b = .ok vals → abiEncode keccak ts vals = .ok b) ∧
    (∀ b b' vals vals', abiDecode keccak ts b = .ok vals → abiDecode keccak ts b' = .ok vals' →
      b ≠ b' → vals ≠ vals') ∧
    ∀ b, Ends (abiDecode keccak ts b) := by
  refine ⟨fun vals b h ↦ abiDecode_of_abiEncode hts h, fun b vals h ↦ abiEncode_of_abiDecode hts h,
    ?_, fun b => ?_⟩
  · rintro b b' vals _ h h' hne rfl
    have heq := (abiEncode_of_abiDecode hts h).symm.trans (abiEncode_of_abiDecode hts h')
    exact hne (Except.ok.inj heq)
  · have hall : ∀ t ∈ ts, Faithful keccak b.1 [] "abi_decode" t := faithfulAll b.2 hts
    exact bind_ends (scope_safe b.2 hall (by decide)) fun _ _ => if_fail_ends fun _ => ok_ends

/-- A number, a list of texts and an address. -/
def sampleTypes : List AbiType := [.uint 8, .array .string, .address]

/-- Values of these types: 5.0, one text, and the address zero. -/
def sampleValues : List SynValue :=
  [.number (.decimal { mantissa := 50, scale := 1, mantissa_lt := by decide, scale_le := Dec.one_le_maxScale }),
    .list [.text ['h', 'i']], .bytes (List.replicate 20 0)]

/-- The values as they come back.  The text of the address zero has no letters. -/
def sampleBack : List SynValue :=
  [.number (.int 5), .list [.text ['h', 'i']], .text ('0' :: 'x' :: List.replicate 40 '0')]

/-- Their encoding. -/
def sampleCall : Slice :=
  ⟨u256Word 5 ++ u256Word 96 ++ u256Word 0 ++ u256Word 1 ++ u256Word 32 ++ padded [0x68, 0x69],
    by decide +kernel⟩

theorem abi_inverse_sample :
    abiEncode (fun _ => []) sampleTypes sampleValues = .ok sampleCall ∧
      abiDecode (fun _ => []) sampleTypes sampleCall = .ok sampleBack ∧
      abiEncode (fun _ => []) sampleTypes sampleBack = .ok sampleCall := by
  have hencode : abiEncode (fun _ => []) sampleTypes sampleValues = .ok sampleCall :=
    abiEncode_ok.mpr ⟨rfl, by decide +kernel⟩
  have htypes : AbiType.AllValid sampleTypes := by
    simp [sampleTypes, AbiType.AllValid, AbiType.Valid]
  have hback := (abi_inverse (fun _ => []) sampleTypes htypes).1 sampleValues sampleCall hencode
  exact ⟨hencode, hback, (abi_inverse (fun _ => []) sampleTypes htypes).2.1 _ _ hback⟩

end Synsema.Abi
