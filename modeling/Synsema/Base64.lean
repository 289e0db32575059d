import Synsema.Bytesutil

/-!
# Base64

The standard base64 with its padding (`b64_decode` of `synsema-core/src/bytesutil.rs`), as the
inverse of `b64_encode`.
-/

namespace Synsema.Bytesutil

open Text List

/-! ## Reading -/

/-- The six bits of a character. -/
def Reading.step (σ : Reading) (v : Nat) : Reading :=
  let acc := (σ.acc * 64 + v) % 2 ^ 32
  let nbits := σ.nbits + 6
  if 8 ≤ nbits then
    { acc, nbits := nbits - 8, out := σ.out ++ [UInt8.ofNat (acc / 2 ^ (nbits - 8))] }
  else { acc, nbits, out := σ.out }

/-- The number of `=` at the end, two at most. -/
def padLength (bytes : Bytes) : Nat :=
  if bytes.getLast? = some 0x3d then if bytes.dropLast.getLast? = some 0x3d then 2 else 1 else 0

/-- `b64_decode`; none stands for any of its errors. -/
def b64Decode (s : Text) : Option Bytes :=
  let bytes := utf8 s
  if bytes = [] then some []
  else if bytes.length % 4 ≠ 0 then none
  else
    -- an `=` before the padding has no value
    let content := bytes.take (bytes.length - padLength bytes)
    (content.foldlM (fun σ c => (b64Val c).map σ.step)
      ({ acc := 0, nbits := 0, out := [] } : Reading)).map Reading.out

/-! ## What is written -/

variable {b cs : Bytes}

theorem mem_b64Encode {c : Char} (hc : c ∈ b64Encode b) : c ∈ b64Alphabet ∨ c = '=' := by
  rw [b64Encode_eq, mem_append] at hc
  refine hc.imp (fun hc => ?_) (padding_eq b c)
  obtain ⟨v, hv, rfl⟩ := mem_map.mp hc
  have hlength : b64Alphabet.length = 64 := by decide
  have hlt : v < b64Alphabet.length := hlength ▸ sextets_lt b v hv
  rw [b64Char, getD_eq_getElem?_getD, getElem?_eq_getElem hlt]
  exact getElem_mem hlt

theorem trim_b64Encode (b : Bytes) : trim (b64Encode b) = b64Encode b := by
  have hblank : ∀ c ∈ b64Encode b, isWhitespace c = false := by
    have halphabet : ∀ c ∈ b64Alphabet, isWhitespace c = false := by decide
    intro c hc
    rcases mem_b64Encode hc with hc | rfl
    · exact halphabet c hc
    · decide
  exact trim_eq_self (fun c hc => hblank c (mem_of_mem_head? hc))
    fun c hc => hblank c (mem_of_getLast? hc)

/-! ## Round trip -/

theorem foldlM_step {ds : Bytes} (h : Forall₂ (fun c d => b64Val c = b64urlVal d) cs ds)
    (σ : Reading) : cs.foldlM (fun σ c => (b64Val c).map σ.step) σ = ds.foldlM Reading.push σ := by
  induction h generalizing σ with
  | nil => rfl
  | @cons c d cs ds hcd _ ih =>
    have hpush : σ.push d = (b64urlVal d).map σ.step := rfl
    rw [foldlM_cons, foldlM_cons, hpush, hcd]
    cases b64urlVal d with
    | none => rfl
    | some v => exact ih _

theorem b64Char_byte : ∀ v < 64, ∃ c, String.utf8EncodeChar (b64Char v) = [c] ∧
    b64Val c = some v ∧ c ≠ 0x3d := by
  have h : ∀ v : Fin 64, String.utf8EncodeChar (b64Char v) = [UInt8.ofNat (b64Char v).toNat] ∧
      b64Val (UInt8.ofNat (b64Char v).toNat) = some v.val ∧
      UInt8.ofNat (b64Char v).toNat ≠ 0x3d := by
    decide +kernel
  intro v hv
  obtain ⟨h₁, h₂, h₃⟩ := h ⟨v, hv⟩
  exact ⟨_, h₁, h₂, h₃⟩

theorem forall₂_b64Char (vs : List Nat) (h : ∀ v ∈ vs, v < 64) :
    Forall₂ (fun c v => b64Val c = some v ∧ c ≠ 0x3d) (utf8 (vs.map b64Char)) vs := by
  induction vs with
  | nil => exact .nil
  | cons v vs ih =>
    obtain ⟨c, hc, hv⟩ := b64Char_byte v (h v mem_cons_self)
    rw [map_cons, utf8, flatMap_cons, hc]
    exact .cons hv (ih fun w hw => h w (mem_cons_of_mem v hw))

theorem length_padding (b : Bytes) :
    (padding b).length ≤ 2 ∧ ((sextets b).length + (padding b).length) % 4 = 0 := by
  induction b using sextets.induct with
  | case1 => exact ⟨by decide, by decide⟩
  | case2 | case3 => simp [sextets, padding]
  | case4 b₀ b₁ b₂ rest ih =>
    rw [sextets, padding, length_append]
    refine ⟨ih.1, ?_⟩
    have := ih.2
    simp only [length_cons, length_nil]
    omega

theorem padLength_append (hcs : 0x3d ∉ cs) {p : Nat} (hp : p ≤ 2) :
    padLength (cs ++ replicate p 0x3d) = p := by
  have hlast : cs.getLast? ≠ some 0x3d := fun h => hcs (mem_of_getLast? h)
  match p, hp with
  | 0, _ => rw [replicate_zero, append_nil, padLength, if_neg hlast]
  | 1, _ =>
    rw [padLength, if_pos (by simp), replicate_one, dropLast_concat, if_neg hlast]
  | 2, _ =>
    have htwo : cs ++ replicate 2 0x3d = (cs ++ [0x3d]) ++ [0x3d] := by simp [replicate]
    rw [htwo, padLength, dropLast_concat, getLast?_concat, getLast?_concat, if_pos rfl, if_pos rfl]

theorem b64Decode_b64Encode (b : Bytes) : b64Decode (b64Encode b) = some b := by
  obtain ⟨cs, hcs⟩ : ∃ cs, utf8 ((sextets b).map b64Char) = cs := ⟨_, rfl⟩
  have hvals := forall₂_b64Char _ (sextets_lt b)
  rw [hcs] at hvals
  have hpad : padding b = replicate (padding b).length '=' :=
    eq_replicate_iff.mpr ⟨rfl, padding_eq b⟩
  have hutf8 : utf8 (b64Encode b) = cs ++ replicate (padding b).length 0x3d := by
    have hequal : String.utf8EncodeChar '=' = [0x3d] := by decide
    rw [b64Encode_eq, utf8, flatMap_append, ← utf8, hcs, hpad, length_replicate]
    congr 1
    induction (padding b).length with
    | zero => rfl
    | succ n ih => rw [replicate_succ, flatMap_cons, ih, hequal, replicate_succ]; rfl
  have hnone : 0x3d ∉ cs := by
    intro hmem
    obtain ⟨i, hi, hget⟩ := mem_iff_getElem.mp hmem
    exact ((forall₂_iff_get.mp hvals).2 i hi (hvals.length_eq ▸ hi)).2 hget
  obtain ⟨hle, hmod⟩ := length_padding b
  have hlen : (utf8 (b64Encode b)).length = (sextets b).length + (padding b).length := by
    rw [hutf8, length_append, length_replicate, hvals.length_eq]
  have hcontent : (utf8 (b64Encode b)).take
      ((utf8 (b64Encode b)).length - padLength (utf8 (b64Encode b))) = cs := by
    rw [hlen, hutf8, padLength_append hnone hle, Nat.add_sub_cancel, ← hvals.length_eq, take_left]
  have hread : Forall₂ (fun c d => b64Val c = b64urlVal d) cs
      (utf8 ((sextets b).map fun v => urlSafe (b64Char v))) := by
    have hurl := forall₂_utf8 _ (sextets_lt b)
    refine forall₂_iff_get.mpr ⟨hvals.length_eq.trans hurl.length_eq.symm, fun i hi hj => ?_⟩
    have h₁ := (forall₂_iff_get.mp hvals).2 i hi (hvals.length_eq ▸ hi)
    have h₂ := (forall₂_iff_get.mp hurl).2 i hj (hurl.length_eq ▸ hj)
    exact h₁.1.trans h₂.symm
  obtain ⟨σ, hσ, hout, -⟩ := foldlM_push b (forall₂_utf8 _ (sextets_lt b)) 0 []
  rw [b64Decode]
  by_cases hempty : utf8 (b64Encode b) = []
  · rw [hutf8, append_eq_nil_iff] at hempty
    have hnil : b = [] := by
      have hzero := hvals.length_eq
      rw [hempty.1] at hzero
      cases b with
      | nil => rfl
      | cons b₀ b => rcases b with _ | ⟨b₁, _ | ⟨b₂, b⟩⟩ <;> simp [sextets] at hzero
    subst hnil
    rfl
  · rw [if_neg hempty, if_neg (by rw [hlen, hmod]; decide), hcontent]
    simp only
    rw [foldlM_step hread, hσ, Option.map_some, hout, nil_append]

theorem foldlM_step_mem {σ τ : Reading} (h : cs.foldlM (fun σ c ↦ (b64Val c).map σ.step) σ = some τ)
    : ∀ c ∈ cs, (b64Val c).isSome := by
  induction cs generalizing σ with
  | nil => exact fun c hc => absurd hc not_mem_nil
  | cons c cs ih =>
    rw [foldlM_cons] at h
    cases hc : b64Val c with
    | none =>
      rw [hc] at h
      cases h
    | some v =>
      rw [hc] at h
      exact forall_mem_cons.mpr ⟨by rw [hc]; rfl, ih h⟩

theorem mem_of_b64Decode {s : Text} (h : b64Decode s = some b) :
    ∀ c ∈ utf8 s, (b64Val c).isSome ∨ c = 0x3d := by
  intro c hc
  rw [b64Decode] at h
  split_ifs at h with hempty hlen
  · rw [hempty] at hc
    exact absurd hc not_mem_nil
  obtain ⟨σ, hσ, -⟩ := Option.map_eq_some_iff.mp h
  rw [← take_append_drop ((utf8 s).length - padLength (utf8 s)) (utf8 s), mem_append] at hc
  rcases hc with hc | hc
  · exact Or.inl (foldlM_step_mem hσ c hc)
  · right
    -- the bytes after the content are those that the padding was counted by
    rw [padLength] at hc
    split_ifs at hc with h₁ h₂
    · obtain ⟨l, hl⟩ := getLast?_eq_some_iff.mp h₁
      rw [hl, dropLast_concat] at h₂
      obtain ⟨l', hl'⟩ := getLast?_eq_some_iff.mp h₂
      rw [hl, hl'] at hc
      simpa using hc
    · obtain ⟨l, hl⟩ := getLast?_eq_some_iff.mp h₁
      rw [hl] at hc
      simpa using hc
    · simp at hc

end Synsema.Bytesutil
