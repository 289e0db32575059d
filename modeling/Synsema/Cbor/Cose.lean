import Synsema.Cbor.Modes

/-!
# Signed documents

A `COSE_Sign1` is read back from what is written of it, with its tag and without.  The
envelope takes up levels of its own: a header nested as deep as an item may be by itself is
too deep inside it.
-/

namespace Synsema.Cbor

namespace CoseSign1

/-- Every length in the document is that of something in memory. -/
structure InMemory (c : CoseSign1) : Prop where
  protectedHeader : c.protectedHeader.length < 2 ^ 64
  payload : ∀ p ∈ c.payload, p.length < 2 ^ 64
  signature : c.signature.length < 2 ^ 64

variable {c : CoseSign1}

theorem InMemory.fits (h : c.InMemory) {n : Nat} (hn : 0 < n) (hheader : Fits (n - 1) c.unprotected)
    : Fits n c.untaggedItem := by
  refine .array (by decide : 4 < 2 ^ 64) (fun _ => hn) fun x hx => ?_
  simp only [List.mem_cons, List.not_mem_nil, or_false] at hx
  rcases hx with rfl | rfl | rfl | rfl
  · exact .bytes h.protectedHeader
  · exact hheader
  · cases hp : c.payload with
    | none => exact .null
    | some p => exact .bytes (h.payload p hp)
  · exact .bytes h.signature

theorem parse_of_decode {b : Bytes} {item : Cbor} (hmap : c.unprotected.isMap)
    (hd : decode b = .ok item) (hu : untag item = .ok c.untaggedItem) : parse b = .ok c := by
  obtain ⟨protectedHeader, unprotected, payload, signature⟩ := c
  have hmap' : unprotected.isMap := hmap
  unfold parse
  rw [hd]
  show (untag item >>= _) = _
  rw [hu]
  cases payload with
  | none
  | some p => simp [untaggedItem, asArray, asBytes, okOr, payloadOf, hmap', bind, Except.bind]; rfl

theorem parse_encodeTagged (h : c.InMemory) (hmap : c.unprotected.isMap)
    (hheader : Fits 62 c.unprotected) : parse c.encodeTagged = .ok c :=
  parse_of_decode hmap (decode_encode (.tag (by decide) (h.fits (by decide) hheader))) rfl

theorem parse_encodeUntagged (h : c.InMemory) (hmap : c.unprotected.isMap)
    (hheader : Fits 63 c.unprotected) : parse c.encodeUntagged = .ok c :=
  parse_of_decode hmap (decode_encode (h.fits (by decide) hheader)) rfl

end CoseSign1

/-- Decoding undoes encoding.  An item that fits is decoded from its encoding, and from the
front of anything; a signed document from its encoding with the tag and without, where the
envelope leaves the levels for its header; without an indefinite item the two decoders agree,
and what the one that takes them answers, the strict one decodes from its encoding. -/
theorem decode_undoes_encode :
    (∀ x, Fits maxDepth x → decode (encode x) = .ok x ∧
      ∀ t, decodePrefix (encode x ++ t) = .ok (x, (encode x).length)) ∧
    (∀ c : CoseSign1, c.InMemory → c.unprotected.isMap →
      (Fits 62 c.unprotected → CoseSign1.parse c.encodeTagged = .ok c) ∧
      (Fits 63 c.unprotected → CoseSign1.parse c.encodeUntagged = .ok c)) ∧
    (∀ b x, decodeAllowIndefinite b = .ok (x, false) ↔ decode b = .ok x) ∧
    ∀ b x saw, b.length < 2 ^ 64 → decodeAllowIndefinite b = .ok (x, saw) →
      decode (encode x) = .ok x := by
  refine ⟨fun x hx => ⟨decode_encode hx, decodePrefix_encode hx⟩, fun c hc hmap => ⟨?_, ?_⟩, ?_, ?_⟩
  · exact CoseSign1.parse_encodeTagged hc hmap
  · exact CoseSign1.parse_encodeUntagged hc hmap
  · exact fun b x => decodeAllowIndefinite_iff
  · exact fun b x saw hb h => decode_encode (fits_of_decodeAllowIndefinite hb h)

/-- A document with an empty header, and a map of indefinite length. -/
theorem decode_undoes_encode_document :
    CoseSign1.parse (CoseSign1.encodeTagged ⟨[1], .map [], some [2], [3]⟩) =
      .ok ⟨[1], .map [], some [2], [3]⟩ ∧
    decode (encode (.int (-1))) = .ok (.int (-1)) ∧
    decode (encode (.map [(.int 1, .null)])) = .ok (.map [(.int 1, .null)]) := by
  refine ⟨?_, ?_, ?_⟩
  · refine (decode_undoes_encode.2.1 _ ⟨by decide, ?_, by decide⟩ rfl).1 ?_
    · rintro p ⟨⟩
      decide
    · exact .map (by decide) (fun h => absurd rfl h) (by simp) (by simp)
  · exact (decode_undoes_encode.1 _ (.int (by decide) (by decide))).1
  · exact decode_undoes_encode.2.2.2 [0xbf, 0x01, 0xf6, 0xff] _ true (by decide) rfl

/-! ## Headers that are too deep -/

/-- An integer inside so many arrays. -/
def nest : Nat → Cbor
  | 0 => .int 0
  | n + 1 => .array [nest n]

theorem fits_nest (n : Nat) : Fits n (nest n) := by
  induction n with
  | zero => exact .int (by decide) (by decide)
  | succ n ih =>
    refine .array (by decide : 1 < 2 ^ 64) (fun _ => Nat.succ_pos n) fun x hx => ?_
    rw [List.mem_singleton.mp hx]
    exact ih

/-- A document whose header is nested as deep as an item may be. -/
def deepDocument : CoseSign1 := ⟨[], .map [(.int 0, nest 63)], none, []⟩

/-- The header of a document may not be nested as deep as an item by itself. -/
theorem not_parse_encode : ¬ ∀ c : CoseSign1, c.InMemory → c.unprotected.isMap →
    Fits maxDepth c.unprotected →
      CoseSign1.parse c.encodeTagged = .ok c ∧ CoseSign1.parse c.encodeUntagged = .ok c := by
  intro h
  have hfits : Fits maxDepth deepDocument.unprotected := by
    refine .map (by decide) (fun _ => by decide) (fun p hp => ?_) fun p hp => ?_
    · rw [List.mem_singleton.mp hp]
      exact .int (by decide) (by decide)
    · rw [List.mem_singleton.mp hp]
      exact fits_nest 63
  have hok := (h deepDocument ⟨by decide, by rintro p ⟨⟩, by decide⟩ rfl hfits).2
  have herr : (CoseSign1.parse deepDocument.encodeUntagged).toBool = false := by decide +kernel
  rw [hok] at herr
  cases herr

end Synsema.Cbor
