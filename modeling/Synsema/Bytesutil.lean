import Synsema.Text
import Mathlib.Data.List.Forall2

/-!
# Base64url

The transport text of bytes (`synsema-core/src/bytesutil.rs`): base64 with the alphabet
that is safe in URLs, written without padding and read with or without.
-/

namespace Synsema

open List

abbrev Bytes := List UInt8

namespace Bytesutil

open Text

/-! ## UTF-8 -/

/-- `str::as_bytes`. -/
@[grind] def utf8 (t : Text) : Bytes := t.flatMap String.utf8EncodeChar

/-- `String::from_utf8`. -/
def fromUtf8 (b : Bytes) : Option Text := b.toByteArray.utf8Decode?.map Array.toList

theorem fromUtf8_utf8 (t : Text) : fromUtf8 (utf8 t) = some t := by
  show (List.utf8Encode t).utf8Decode?.map Array.toList = some t
  rw [utf8Decode?_utf8Encode]
  rfl

theorem utf8_injective {s t : Text} (h : utf8 s = utf8 t) : s = t := by
  have hread := fromUtf8_utf8 s
  rw [h, fromUtf8_utf8] at hread
  exact (Option.some.inj hread).symm

theorem utf8_of_fromUtf8 {b : Bytes} {t : Text} (h : fromUtf8 b = some t) : utf8 t = b := by
  rw [fromUtf8, Option.map_eq_some_iff] at h
  obtain ⟨a, ha, rfl⟩ := h
  have hsome : b.toByteArray.utf8Decode?.isSome := by simp [ha]
  have hget : b.toByteArray.utf8Decode?.get hsome = a := by simp [ha]
  have hencode := ByteArray.utf8Encode_get_utf8Decode? (h := hsome)
  rw [hget] at hencode
  show a.toList.flatMap String.utf8EncodeChar = b
  have hdata := congrArg (fun x => x.data.toList) hencode
  simpa [List.utf8Encode] using hdata

/-! ## Writing -/

def b64Alphabet : Text := "ABCDEFGHIJKLMNOPQRSTUVWXYZabcdefghijklmnopqrstuvwxyz0123456789+/"

/-- A character of the alphabet. -/
def b64Char (v : Nat) : Char := b64Alphabet.getD v '='

/-- Three bytes as one number. -/
def triple (b₀ b₁ b₂ : UInt8) : Nat := b₀.toNat * 2 ^ 16 + b₁.toNat * 2 ^ 8 + b₂.toNat

/-- `b64_encode`: three bytes are four characters. -/
def b64Encode : Bytes → Text
  | [] => []
  | [b₀] =>
    let t := triple b₀ 0 0
    [b64Char (t / 2 ^ 18 % 64), b64Char (t / 2 ^ 12 % 64), '=', '=']
  | [b₀, b₁] =>
    let t := triple b₀ b₁ 0
    [b64Char (t / 2 ^ 18 % 64), b64Char (t / 2 ^ 12 % 64), b64Char (t / 2 ^ 6 % 64), '=']
  | b₀ :: b₁ :: b₂ :: rest =>
    let t := triple b₀ b₁ b₂
    [b64Char (t / 2 ^ 18 % 64), b64Char (t / 2 ^ 12 % 64), b64Char (t / 2 ^ 6 % 64),
      b64Char (t % 64)] ++ b64Encode rest

/-- The character that stands for one of the standard alphabet in a URL. -/
def urlSafe (c : Char) : Char := if c = '+' then '-' else if c = '/' then '_' else c

def b64urlEncode (b : Bytes) : Text := (trimEndMatches (· == '=') (b64Encode b)).map urlSafe

/-! ## Reading -/

def b64Val (c : UInt8) : Option Nat :=
  if 'A'.toNat ≤ c.toNat ∧ c.toNat ≤ 'Z'.toNat then some (c.toNat - 'A'.toNat)
  else if 'a'.toNat ≤ c.toNat ∧ c.toNat ≤ 'z'.toNat then some (c.toNat - 'a'.toNat + 26)
  else if '0'.toNat ≤ c.toNat ∧ c.toNat ≤ '9'.toNat then some (c.toNat - '0'.toNat + 52)
  else if c.toNat = '+'.toNat then some 62
  else if c.toNat = '/'.toNat then some 63
  else none

def b64urlVal (c : UInt8) : Option Nat :=
  if c.toNat = '-'.toNat then some 62
  else if c.toNat = '_'.toNat then some 63
  else if c.toNat = '+'.toNat ∨ c.toNat = '/'.toNat then none
  else b64Val c

/-- The bits read and not yet written, in a machine word that is never cleared; how many of
them there are; the bytes written. -/
structure Reading where
  acc : Nat
  nbits : Nat
  out : Bytes

/-- One character of the text. -/
def Reading.push (σ : Reading) (c : UInt8) : Option Reading :=
  (b64urlVal c).map fun v =>
    let acc := (σ.acc * 64 + v) % 2 ^ 32
    let nbits := σ.nbits + 6
    if 8 ≤ nbits then
      { acc, nbits := nbits - 8, out := σ.out ++ [UInt8.ofNat (acc / 2 ^ (nbits - 8))] }
    else { acc, nbits, out := σ.out }

/-- `b64url_decode`; none stands for any of its errors. -/
def b64urlDecode (s : Text) : Option Bytes :=
  let bytes := utf8 (trimEndMatches (· == '=') s)
  if bytes.length % 4 = 1 then none
  else
    match bytes.foldlM Reading.push { acc := 0, nbits := 0, out := [] } with
    | none => none
    | some σ => if 0 < σ.nbits ∧ σ.acc % 2 ^ σ.nbits ≠ 0 then none else some σ.out

/-! ## Round trip -/

/-- The groups of six bits of the bytes. -/
def sextets : Bytes → List Nat
  | [] => []
  | [b₀] => [b₀.toNat / 4, b₀.toNat % 4 * 16]
  | [b₀, b₁] => [b₀.toNat / 4, b₀.toNat % 4 * 16 + b₁.toNat / 16, b₁.toNat % 16 * 4]
  | b₀ :: b₁ :: b₂ :: rest =>
    [b₀.toNat / 4, b₀.toNat % 4 * 16 + b₁.toNat / 16, b₁.toNat % 16 * 4 + b₂.toNat / 64,
      b₂.toNat % 64] ++ sextets rest

/-- The padding of the last group. -/
def padding : Bytes → Text
  | [] => []
  | [_] => ['=', '=']
  | [_, _] => ['=']
  | _ :: _ :: _ :: rest => padding rest

theorem sextets_lt (b : Bytes) : ∀ v ∈ sextets b, v < 64 := by
  induction b using sextets.induct with
  | case1 => simp [sextets]
  | case2 b₀ =>
    have h₀ := b₀.toNat_lt
    simp only [sextets, List.mem_cons, not_mem_nil, or_false]
    omega
  | case3 b₀ b₁ =>
    have h₀ := b₀.toNat_lt
    have h₁ := b₁.toNat_lt
    simp only [sextets, List.mem_cons, not_mem_nil, or_false]
    omega
  | case4 b₀ b₁ b₂ rest ih =>
    have h₀ := b₀.toNat_lt
    have h₁ := b₁.toNat_lt
    have h₂ := b₂.toNat_lt
    intro v hv
    simp only [sextets, mem_append, List.mem_cons, not_mem_nil, or_false] at hv
    rcases hv with hv | hv
    · omega
    · exact ih v hv

theorem length_sextets (b : Bytes) : (sextets b).length % 4 ≠ 1 := by
  induction b using sextets.induct with
  | case1 | case2 | case3 => simp [sextets]
  | case4 b₀ b₁ b₂ rest ih =>
    simp only [sextets, length_append, length_cons, length_nil]
    omega

theorem b64Encode_eq (b : Bytes) : b64Encode b = (sextets b).map b64Char ++ padding b := by
  induction b using sextets.induct with
  | case1 => rfl
  | case2 b₀ =>
    have h₀ := b₀.toNat_lt
    have e₀ : triple b₀ 0 0 / 2 ^ 18 % 64 = b₀.toNat / 4 := by simp [triple]; omega
    have e₁ : triple b₀ 0 0 / 2 ^ 12 % 64 = b₀.toNat % 4 * 16 := by simp [triple]; omega
    simp only [b64Encode, sextets, padding, e₀, e₁]
    rfl
  | case3 b₀ b₁ =>
    have h₀ := b₀.toNat_lt
    have h₁ := b₁.toNat_lt
    have e₀ : triple b₀ b₁ 0 / 2 ^ 18 % 64 = b₀.toNat / 4 := by simp [triple]; omega
    have e₁ : triple b₀ b₁ 0 / 2 ^ 12 % 64 = b₀.toNat % 4 * 16 + b₁.toNat / 16 := by
      simp [triple]; omega
    have e₂ : triple b₀ b₁ 0 / 2 ^ 6 % 64 = b₁.toNat % 16 * 4 := by simp [triple]; omega
    simp only [b64Encode, sextets, padding, e₀, e₁, e₂]
    rfl
  | case4 b₀ b₁ b₂ rest ih =>
    have h₀ := b₀.toNat_lt
    have h₁ := b₁.toNat_lt
    have h₂ := b₂.toNat_lt
    have e₀ : triple b₀ b₁ b₂ / 2 ^ 18 % 64 = b₀.toNat / 4 := by simp [triple]; omega
    have e₁ : triple b₀ b₁ b₂ / 2 ^ 12 % 64 = b₀.toNat % 4 * 16 + b₁.toNat / 16 := by
      simp [triple]; omega
    have e₂ : triple b₀ b₁ b₂ / 2 ^ 6 % 64 = b₁.toNat % 16 * 4 + b₂.toNat / 64 := by
      simp [triple]; omega
    have e₃ : triple b₀ b₁ b₂ % 64 = b₂.toNat % 64 := by simp [triple]; omega
    simp only [b64Encode, sextets, padding, e₀, e₁, e₂, e₃, ih, map_append, append_assoc]
    rfl

theorem padding_eq (b : Bytes) : ∀ c ∈ padding b, c = '=' := by
  induction b using padding.induct with
  | case1 | case2 | case3 => simp [padding]
  | case4 b₀ b₁ b₂ rest ih => exact ih

theorem b64Char_spec : ∀ v < 64, b64Char v ≠ '=' ∧ urlSafe (b64Char v) ≠ '=' ∧
    isWhitespace (urlSafe (b64Char v)) = false ∧
    ∃ c, String.utf8EncodeChar (urlSafe (b64Char v)) = [c] ∧ b64urlVal c = some v := by
  have h : ∀ v : Fin 64, b64Char v ≠ '=' ∧ urlSafe (b64Char v) ≠ '=' ∧
      isWhitespace (urlSafe (b64Char v)) = false ∧
      String.utf8EncodeChar (urlSafe (b64Char v)) =
        [UInt8.ofNat (urlSafe (b64Char v)).toNat] ∧
      b64urlVal (UInt8.ofNat (urlSafe (b64Char v)).toNat) = some v.val := by
    decide +kernel
  intro v hv
  obtain ⟨h₁, h₂, h₃, h₄, h₅⟩ := h ⟨v, hv⟩
  exact ⟨h₁, h₂, h₃, _, h₄, h₅⟩

theorem trimEndMatches_append {p : Char → Bool} {l r : Text} (hl : ∀ c ∈ l, p c = false)
    (hr : ∀ c ∈ r, p c) : trimEndMatches p (l ++ r) = l := by
  induction r using List.reverseRecOn with
  | nil =>
    rw [append_nil]
    refine rdropWhile_eq_self_iff.mpr fun hne => ?_
    rw [hl _ (getLast_mem hne)]
    exact Bool.false_ne_true
  | append_singleton r c ih =>
    show List.rdropWhile p _ = l
    rw [← append_assoc, rdropWhile_concat_pos _ _ _ (hr c (by simp))]
    exact ih fun c' hc' => hr c' (mem_append_left _ hc')

theorem b64urlEncode_eq (b : Bytes) :
    b64urlEncode b = (sextets b).map fun v => urlSafe (b64Char v) := by
  unfold b64urlEncode
  rw [b64Encode_eq, trimEndMatches_append, map_map]
  · rfl
  · intro c hc
    obtain ⟨v, hv, rfl⟩ := mem_map.mp hc
    simpa using (b64Char_spec v (sextets_lt b v hv)).1
  · intro c hc
    simp [padding_eq b c hc]

theorem push_six {σ : Reading} {c : UInt8} {v : Nat} (h : b64urlVal c = some v) :
    σ.push c = some (if 8 ≤ σ.nbits + 6 then
      { acc := (σ.acc * 64 + v) % 2 ^ 32, nbits := σ.nbits - 2
        out := σ.out ++ [UInt8.ofNat ((σ.acc * 64 + v) % 2 ^ 32 / 2 ^ (σ.nbits - 2))] }
    else { acc := (σ.acc * 64 + v) % 2 ^ 32, nbits := σ.nbits + 6, out := σ.out }) := by
  have hsub : σ.nbits + 6 - 8 = σ.nbits - 2 := by omega
  simp only [Reading.push, h, Option.map_some, hsub]

theorem ofNat_eq {b : UInt8} {n : Nat} (h : n % 256 = b.toNat) : UInt8.ofNat n = b := by
  apply UInt8.toNat_inj.mp
  rw [UInt8.toNat_ofNat']
  exact h

theorem foldlM_push (b : Bytes) {cs : Bytes}
    (h : Forall₂ (fun c v => b64urlVal c = some v) cs (sextets b)) (acc : Nat) (out : Bytes) :
    ∃ σ, cs.foldlM Reading.push { acc, nbits := 0, out } = some σ ∧ σ.out = out ++ b ∧
      (0 < σ.nbits → σ.acc % 2 ^ σ.nbits = 0) := by
  induction b using sextets.induct generalizing cs acc out with
  | case1 =>
    cases h
    exact ⟨_, rfl, by simp, by simp⟩
  | case2 b₀ =>
    have h₀ := b₀.toNat_lt
    rcases h with _ | ⟨hc₀, h⟩
    rcases h with _ | ⟨hc₁, h⟩
    cases h
    refine ⟨_, by simp [List.foldlM, push_six hc₀, push_six hc₁]; rfl, ?_, ?_⟩
    · simp only [append_cancel_left_eq, List.cons.injEq, and_true]
      apply ofNat_eq
      omega
    · intro _
      simp only
      omega
  | case3 b₀ b₁ =>
    have h₀ := b₀.toNat_lt
    have h₁ := b₁.toNat_lt
    rcases h with _ | ⟨hc₀, h⟩
    rcases h with _ | ⟨hc₁, h⟩
    rcases h with _ | ⟨hc₂, h⟩
    cases h
    refine ⟨_, by simp [List.foldlM, push_six hc₀, push_six hc₁, push_six hc₂]; rfl, ?_, ?_⟩
    · simp only [append_cancel_left_eq, List.cons.injEq, and_true]
      constructor
      · apply ofNat_eq
        omega
      · apply ofNat_eq
        omega
    · intro _
      simp only
      omega
  | case4 b₀ b₁ b₂ rest ih =>
    have h₀ := b₀.toNat_lt
    have h₁ := b₁.toNat_lt
    have h₂ := b₂.toNat_lt
    rcases h with _ | ⟨hc₀, h⟩
    rcases h with _ | ⟨hc₁, h⟩
    rcases h with _ | ⟨hc₂, h⟩
    rcases h with _ | ⟨hc₃, h⟩
    -- the bits of each byte in the machine word, whatever stands above them
    have e₀ : ∀ n, UInt8.ofNat (((n * 64 + b₀.toNat / 4) % 4294967296 * 64 +
        (b₀.toNat % 4 * 16 + b₁.toNat / 16)) % 4294967296 / 16) = b₀ := by
      intro n
      apply ofNat_eq
      omega
    have e₁ : ∀ n, UInt8.ofNat (((n * 64 + (b₀.toNat % 4 * 16 + b₁.toNat / 16)) % 4294967296 * 64 +
        (b₁.toNat % 16 * 4 + b₂.toNat / 64)) % 4294967296 / 4) = b₁ := by
      intro n
      apply ofNat_eq
      omega
    have e₂ : ∀ n, UInt8.ofNat (((n * 64 + (b₁.toNat % 16 * 4 + b₂.toNat / 64)) % 4294967296 * 64 +
        b₂.toNat % 64) % 4294967296) = b₂ := by
      intro n
      apply ofNat_eq
      omega
    obtain ⟨σ, hσ, hout, hnb⟩ := ih h _ (out ++ [b₀, b₁, b₂])
    refine ⟨σ, ?_, by simpa using hout, hnb⟩
    rw [← hσ]
    simp only [List.foldlM, push_six hc₀, push_six hc₁, push_six hc₂, push_six hc₃]
    simp [e₀, e₁, e₂]
    rfl

theorem mem_b64urlEncode {b : Bytes} {c : Char} (hc : c ∈ b64urlEncode b) :
    isWhitespace c = false ∧ c ≠ '=' := by
  rw [b64urlEncode_eq] at hc
  obtain ⟨v, hv, rfl⟩ := mem_map.mp hc
  obtain ⟨-, hpad, hblank, -⟩ := b64Char_spec v (sextets_lt b v hv)
  exact ⟨hblank, hpad⟩

theorem trim_b64urlEncode (b : Bytes) : trim (b64urlEncode b) = b64urlEncode b := by
  have hstart : trimStart (b64urlEncode b) = b64urlEncode b := by
    unfold trimStart
    cases h : b64urlEncode b with
    | nil => rfl
    | cons c t =>
      have hc := mem_b64urlEncode (b := b) (c := c) (by simp [h])
      simp [hc.1]
  unfold trim
  rw [hstart]
  conv_lhs => rw [← append_nil (b64urlEncode b)]
  exact trimEndMatches_append (fun c hc => (mem_b64urlEncode hc).1) (by simp)

theorem forall₂_utf8 (vs : List Nat) (h : ∀ v ∈ vs, v < 64) :
    Forall₂ (fun c v => b64urlVal c = some v)
      (utf8 (vs.map fun v => urlSafe (b64Char v))) vs := by
  induction vs with
  | nil => exact .nil
  | cons v vs ih =>
    obtain ⟨-, -, -, c, hc, hv⟩ := b64Char_spec v (h v mem_cons_self)
    show Forall₂ _ (String.utf8EncodeChar _ ++ utf8 _) _
    rw [hc]
    exact .cons hv (ih fun w hw => h w (mem_cons_of_mem v hw))

theorem b64urlDecode_b64urlEncode (b : Bytes) : b64urlDecode (b64urlEncode b) = some b := by
  have hpad : trimEndMatches (· == '=') (b64urlEncode b) = b64urlEncode b := by
    conv_lhs => rw [← append_nil (b64urlEncode b)]
    exact trimEndMatches_append (fun c hc => by simpa using (mem_b64urlEncode hc).2) (by simp)
  have hbytes : Forall₂ (fun c v => b64urlVal c = some v) (utf8 (b64urlEncode b))
      (sextets b) := by
    rw [b64urlEncode_eq]
    exact forall₂_utf8 _ (sextets_lt b)
  obtain ⟨σ, hσ, hout, hnb⟩ := foldlM_push b hbytes 0 []
  have hlen : ¬ (utf8 (b64urlEncode b)).length % 4 = 1 := by
    rw [hbytes.length_eq]
    exact length_sextets b
  have hrest : ¬ (0 < σ.nbits ∧ σ.acc % 2 ^ σ.nbits ≠ 0) := fun h => h.2 (hnb h.1)
  unfold b64urlDecode
  simp only [hpad, hσ, if_neg hlen, if_neg hrest]
  rw [hout, nil_append]

end Bytesutil

end Synsema
