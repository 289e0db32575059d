import Synsema.Lib.Bits
import Synsema.Lib.Except
import Synsema.Bytesutil
import Mathlib.Data.Nat.ModEq

/-!
# Base32

The base32 text of bytes (`synsema-core/src/bytesutil.rs`), written in upper case without
padding and read in either case, with padding or without.

The reader refuses a text whose last bits are not zero, but not one that ends in a symbol too
many: of the five or more bits that are left then it looks only at whether they are zero.
-/

namespace Synsema.Bytesutil

open Text Bits List

/-! ## Writing -/

def b32Alphabet : Text := "ABCDEFGHIJKLMNOPQRSTUVWXYZ234567"

/-- A character of the alphabet. -/
def b32Char (v : Nat) : Char := b32Alphabet.getD v '='

/-- The `while nbits >= 5` of `base32_encode`: the symbols taken from the machine word, and how
many bits are left. -/
@[grind] def drain (acc nbits : Nat) : List Nat × Nat :=
  if 5 ≤ nbits then
    let r := drain acc (nbits - 5)
    (acc / 2 ^ (nbits - 5) % 32 :: r.1, r.2)
  else ([], nbits)
termination_by nbits

/-- The bits taken up and not yet written, in a machine word that is never cleared; how many of
them there are; the text. -/
structure Writing where
  acc : Nat
  nbits : Nat
  out : Text

/-- One byte. -/
def Writing.push (σ : Writing) (byte : UInt8) : Writing :=
  let acc := (σ.acc * 2 ^ 8 + byte.toNat) % 2 ^ 64
  let r := drain acc (σ.nbits + 8)
  { acc, nbits := r.2, out := σ.out ++ r.1.map b32Char }

@[grind] def base32Encode (b : Bytes) : Text :=
  let σ := b.foldl Writing.push { acc := 0, nbits := 0, out := [] }
  if 0 < σ.nbits then σ.out ++ [b32Char (σ.acc * 2 ^ (5 - σ.nbits) % 2 ^ 64 % 32)] else σ.out

/-! ## Reading -/

def b32Val (c : UInt8) : Option Nat :=
  if 'A'.toNat ≤ c.toNat ∧ c.toNat ≤ 'Z'.toNat then some (c.toNat - 'A'.toNat)
  else if 'a'.toNat ≤ c.toNat ∧ c.toNat ≤ 'z'.toNat then some (c.toNat - 'a'.toNat)
  else if '2'.toNat ≤ c.toNat ∧ c.toNat ≤ '7'.toNat then some (c.toNat - '2'.toNat + 26)
  else none

/-- The byte of `=`. -/
def equals : UInt8 := 0x3d

section Reading

variable (debug : Char → Text)

/-- One symbol of the text; `debug` is how a character is shown. -/
def Reading.push32 (σ : Reading) (c : UInt8) : Except Text Reading :=
  match b32Val c with
  | none =>
    .error ("invalid base32 character: " ++ debug (Char.ofNat c.toNat))
  | some v =>
    let acc := (σ.acc * 2 ^ 5 + v) % 2 ^ 64
    let nbits := σ.nbits + 5
    if 8 ≤ nbits then
      .ok { acc, nbits := nbits - 8, out := σ.out ++ [UInt8.ofNat (acc / 2 ^ (nbits - 8))] }
    else .ok { acc, nbits, out := σ.out }

def base32Decode (s : Text) : Except Text Bytes :=
  let bytes := utf8 (trim s)
  let contentLen := bytes.findIdx (· == equals)
  if (bytes.drop contentLen).any (· != equals) then
    .error "invalid base32: misplaced padding"
  else do
    let σ ← (bytes.take contentLen).foldlM (Reading.push32 debug)
      { acc := 0, nbits := 0, out := [] }
    if 0 < σ.nbits ∧ σ.acc % 2 ^ σ.nbits ≠ 0 then
      .error "invalid base32: non-zero trailing bits"
    else .ok σ.out

end Reading

/-! ## What is written -/

/-- The bits of bytes. -/
@[grind] def octets (b : Bytes) : List Bool := stream 8 (b.map UInt8.toNat)

@[simp] theorem octets_nil : octets [] = [] := rfl

@[simp] theorem octets_cons (c : UInt8) (b : Bytes) :
    octets (c :: b) = bits 8 c.toNat ++ octets b := stream_cons ..

@[simp] theorem octets_append (b b' : Bytes) : octets (b ++ b') = octets b ++ octets b' := by
  rw [octets, map_append, stream_append]
  rfl

@[simp] theorem length_octets (b : Bytes) : (octets b).length = b.length * 8 := by
  rw [octets, length_stream, length_map]

variable {b cs : Bytes} {w m v n : Nat} {σ : Reading} {vs : List Nat} {t s : Text}

theorem octets_append_inj {b' : Bytes} {r s : List Bool} (hr : r.length < 8) (hs : s.length < 8)
    (h : octets b ++ r = octets b' ++ s) : b = b' ∧ r = s := by
  have hlt : ∀ b : Bytes, ∀ v ∈ b.map UInt8.toNat, v < 2 ^ 8 := by
    intro b v hv
    obtain ⟨c, -, rfl⟩ := mem_map.mp hv
    exact c.toNat_lt
  obtain ⟨hmap, hrest⟩ := stream_append_inj (hlt b) (hlt b') hr hs h
  exact ⟨map_injective_iff.mpr (fun _ _ => UInt8.toNat_inj.mp) hmap, hrest⟩

theorem drain_spec (acc nbits : Nat) :
    (∀ v ∈ (drain acc nbits).1, v < 32) ∧ (drain acc nbits).2 < 5 ∧
      bits nbits acc = stream 5 (drain acc nbits).1 ++ bits (drain acc nbits).2 acc := by
  induction nbits using Nat.strong_induction_on with
  | h nbits ih =>
    rw [drain]
    by_cases h : 5 ≤ nbits
    · obtain ⟨hlt, hleft, hbits⟩ := ih (nbits - 5) (by omega)
      rw [if_pos h]
      refine ⟨forall_mem_cons.mpr ⟨Nat.mod_lt _ (by decide), hlt⟩, hleft, ?_⟩
      rw [stream_cons, append_assoc, ← hbits, bits_take h]
      exact congrArg (· ++ _) (bits_mod (m := 5) le_rfl _).symm
    · rw [if_neg h]
      exact ⟨nofun, Nat.lt_of_not_le h, rfl⟩

theorem base32Encode_spec (b : Bytes) : ∃ vs n, (∀ v ∈ vs, v < 32) ∧ n < 5 ∧
    base32Encode b = vs.map b32Char ∧ stream 5 vs = octets b ++ replicate n false := by
  have hpush : ∀ (b : Bytes) (σ : Writing) (vs : List Nat) (read : List Bool), σ.nbits < 5 →
      (∀ v ∈ vs, v < 32) → σ.out = vs.map b32Char →
      read = stream 5 vs ++ bits σ.nbits σ.acc →
      ∃ vs' : List Nat, (b.foldl Writing.push σ).nbits < 5 ∧ (∀ v ∈ vs', v < 32) ∧
        (b.foldl Writing.push σ).out = vs'.map b32Char ∧
        read ++ octets b = stream 5 vs' ++
          bits (b.foldl Writing.push σ).nbits (b.foldl Writing.push σ).acc := by
    intro b
    induction b with
    | nil =>
      intro σ vs read hn hvs hout hread
      refine ⟨vs, hn, hvs, hout, ?_⟩
      rw [octets_nil, append_nil]
      exact hread
    | cons c b ih =>
      intro σ vs read hn hvs hout hread
      obtain ⟨hlt, hleft, hbits⟩ := drain_spec ((σ.acc * 2 ^ 8 + c.toNat) % 2 ^ 64) (σ.nbits + 8)
      rw [bits_push c.toNat_lt (by omega)] at hbits
      obtain ⟨vs', hn', hvs', hout', hread'⟩ := ih (σ.push c)
        (vs ++ (drain ((σ.acc * 2 ^ 8 + c.toNat) % 2 ^ 64) (σ.nbits + 8)).1)
        (read ++ bits 8 c.toNat) hleft
        (fun v hv => (mem_append.mp hv).elim (hvs v) (hlt v))
        (by rw [Writing.push, map_append, hout])
        (by rw [hread, append_assoc, hbits, stream_append, append_assoc]; rfl)
      refine ⟨vs', hn', hvs', hout', ?_⟩
      rw [octets_cons, ← append_assoc]
      exact hread'
  obtain ⟨vs, hn, hvs, hout, hread⟩ := hpush b { acc := 0, nbits := 0, out := [] } [] []
    (by decide) nofun rfl rfl
  rw [nil_append] at hread
  rw [base32Encode]
  generalize b.foldl Writing.push { acc := 0, nbits := 0, out := [] } = σ at hn hout hread
  by_cases h : 0 < σ.nbits
  · rw [if_pos h, hout]
    refine ⟨vs ++ [σ.acc * 2 ^ (5 - σ.nbits) % 2 ^ 64 % 32], 5 - σ.nbits, ?_, by omega, ?_, ?_⟩
    · intro v hv
      rcases mem_append.mp hv with hv | hv
      · exact hvs v hv
      · rw [mem_singleton.mp hv]
        exact Nat.mod_lt _ (by decide)
    · rw [map_append]
      rfl
    · rw [hread, stream_append, stream_cons, stream_nil, append_nil, append_assoc,
        ← bits_fill hn.le]
      refine congrArg (_ ++ ·) ?_
      rw [show (32 : Nat) = 2 ^ 5 from rfl, bits_mod le_rfl, bits_mod (by decide)]
  · obtain h0 : σ.nbits = 0 := Nat.eq_zero_of_not_pos h
    rw [if_neg h]
    refine ⟨vs, 0, hvs, by decide, hout, ?_⟩
    rw [h0] at hread
    rw [hread]
    simp [bits]

/-! ## What is read -/

/-- A symbol of `w` bits taken up in a machine word of `m`. -/
def Reading.regroup (w m : Nat) (σ : Reading) (v : Nat) : Reading :=
  let acc := (σ.acc * 2 ^ w + v) % 2 ^ m
  let nbits := σ.nbits + w
  if 8 ≤ nbits then
    { acc, nbits := nbits - 8, out := σ.out ++ [UInt8.ofNat (acc / 2 ^ (nbits - 8))] }
  else { acc, nbits, out := σ.out }

/-- The bits read so far: those written and those that are left. -/
def Reading.taken (σ : Reading) : List Bool := octets σ.out ++ bits σ.nbits σ.acc

theorem regroup_spec (hw : w ≤ 8) (hm : 16 ≤ m) (hv : v < 2 ^ w) (hn : σ.nbits < 8) :
    (σ.regroup w m v).nbits < 8 ∧ (σ.regroup w m v).taken = σ.taken ++ bits w v := by
  have hpush := bits_push hv (show σ.nbits + w ≤ m by omega) σ.acc
  rw [Reading.regroup, Reading.taken, Reading.taken, append_assoc, ← hpush]
  by_cases h : 8 ≤ σ.nbits + w
  · rw [if_pos h]
    refine ⟨by dsimp only; omega, ?_⟩
    dsimp only
    rw [octets_append, octets_cons, octets_nil, append_nil, append_assoc, UInt8.toNat_ofNat',
      bits_mod le_rfl, ← bits_take h]
  · rw [if_neg h]
    exact ⟨Nat.lt_of_not_le h, rfl⟩

theorem foldl_regroup (hw : w ≤ 8) (hm : 16 ≤ m) (hvs : ∀ v ∈ vs, v < 2 ^ w) (hn : σ.nbits < 8) :
    (vs.foldl (Reading.regroup w m) σ).nbits < 8 ∧
      (vs.foldl (Reading.regroup w m) σ).taken = σ.taken ++ stream w vs := by
  induction vs generalizing σ with
  | nil => exact ⟨hn, (append_nil _).symm⟩
  | cons v vs ih =>
    rw [forall_mem_cons] at hvs
    obtain ⟨hn', htaken⟩ := regroup_spec hw hm hvs.1 hn
    obtain ⟨hlast, hall⟩ := ih hvs.2 hn'
    refine ⟨hlast, ?_⟩
    rw [foldl_cons, hall, htaken, stream_cons, append_assoc]

theorem taken_iff (hw : w ≤ 8) (hm : 16 ≤ m) (hvs : ∀ v ∈ vs, v < 2 ^ w) :
    (vs.foldl (Reading.regroup w m) { acc := 0, nbits := 0, out := [] }).out = b ∧
        ¬ (0 < (vs.foldl (Reading.regroup w m) { acc := 0, nbits := 0, out := [] }).nbits ∧
          (vs.foldl (Reading.regroup w m) { acc := 0, nbits := 0, out := [] }).acc %
            2 ^ (vs.foldl (Reading.regroup w m) { acc := 0, nbits := 0, out := [] }).nbits ≠ 0) ↔
      ∃ n < 8, stream w vs = octets b ++ replicate n false := by
  obtain ⟨hn, htaken⟩ := foldl_regroup hw hm hvs (σ := { acc := 0, nbits := 0, out := [] })
    (by decide)
  generalize vs.foldl (Reading.regroup w m) { acc := 0, nbits := 0, out := [] } = σ at hn htaken
  rw [Reading.taken] at htaken
  change octets σ.out ++ bits σ.nbits σ.acc = [] ++ stream w vs at htaken
  rw [nil_append] at htaken
  have hzero : ¬ (0 < σ.nbits ∧ σ.acc % 2 ^ σ.nbits ≠ 0) ↔
      bits σ.nbits σ.acc = replicate σ.nbits false := by
    rw [bits_eq_replicate_iff]
    constructor
    · intro h
      by_contra hne
      refine h ⟨Nat.pos_of_ne_zero fun h0 => hne ?_, hne⟩
      rw [h0, Nat.pow_zero, Nat.mod_one]
    · rintro h ⟨-, hne⟩
      exact hne h
  rw [hzero, ← htaken]
  constructor
  · rintro ⟨rfl, h⟩
    exact ⟨σ.nbits, hn, by rw [h]⟩
  · rintro ⟨n, hlt, h⟩
    obtain ⟨rfl, hbits⟩ :=
      octets_append_inj (by rwa [length_bits]) (by rwa [length_replicate]) h
    have hlen := congrArg List.length hbits
    rw [length_bits, length_replicate] at hlen
    exact ⟨rfl, by rw [hbits, hlen]⟩

/-- The characters of a text of one-byte characters. -/
@[grind] def chars (cs : Bytes) : Text := cs.map fun c => Char.ofNat c.toNat

theorem eq_chars (h : ∀ c ∈ utf8 t, c < 0x80) : t = chars (utf8 t) := by
  induction t with
  | nil => rfl
  | cons c t ih =>
    rw [utf8, flatMap_cons, ← utf8] at h ⊢
    have hone : String.utf8EncodeChar c = [UInt8.ofNat c.toNat] ∧ c.toNat < 128 := by
      have hhead := fun d hd => h d (mem_append_left _ hd)
      have hvalid : c.toNat < 0xd800 ∨ 0xdfff < c.toNat ∧ c.toNat < 0x110000 := c.valid
      have hval : c.val.toNat = c.toNat := rfl
      revert hhead
      simp only [String.utf8EncodeChar, hval]
      split_ifs with h₁ h₂ h₃
      · exact fun _ => ⟨rfl, by omega⟩
      all_goals
        intro hhead
        have hfirst := UInt8.lt_iff_toNat_lt.mp (hhead _ mem_cons_self)
        rw [UInt8.toNat_ofNat'] at hfirst
        change _ < 128 at hfirst
        omega
    rw [hone.1, singleton_append, chars, map_cons, ← chars,
      ← ih fun d hd => h d (mem_append_right _ hd), UInt8.toNat_ofNat',
      Nat.mod_eq_of_lt (hone.2.trans (by decide)), Char.ofNat_toNat]

theorem toNat_char (h : n < 128) : (Char.ofNat n).toNat = n := by
  have hvalid : n.isValidChar := .inl (by omega)
  unfold Char.ofNat
  rw [dif_pos hvalid]
  rfl

theorem utf8_chars (h : ∀ c ∈ cs, c < 0x80) : utf8 (chars cs) = cs := by
  induction cs with
  | nil => rfl
  | cons c cs ih =>
    rw [forall_mem_cons] at h
    have hlt : c.toNat < 128 := UInt8.lt_iff_toNat_lt.mp h.1
    have hone : String.utf8EncodeChar (Char.ofNat c.toNat) = [c] := by
      have hval : (Char.ofNat c.toNat).val.toNat = c.toNat := toNat_char hlt
      simp only [String.utf8EncodeChar, hval]
      rw [if_pos (by omega), UInt8.ofNat_toNat]
    rw [chars, map_cons, ← chars, utf8, flatMap_cons, ← utf8, ih h.2, hone]
    rfl

/-! ## The symbols of a text -/

/-- The bytes are the symbols of the values, in either case. -/
abbrev Symbols (cs : Bytes) (vs : List Nat) : Prop :=
  Forall₂ (fun c v => b32Val c = some v) cs vs

variable {c : UInt8} {us : List Nat} {σ' : Reading}

set_option maxRecDepth 100000 in
theorem b32Val_spec (h : b32Val c = some v) :
    v < 32 ∧ c < 0x80 ∧ c ≠ equals ∧ isWhitespace (Char.ofNat c.toNat) = false ∧
      (Char.ofNat c.toNat).toLower = (b32Char v).toLower := by
  have hall : ∀ n : Fin 256, ∀ v ∈ b32Val (UInt8.ofNat n), v < 32 ∧ UInt8.ofNat n < 0x80 ∧
      UInt8.ofNat n ≠ equals ∧ isWhitespace (Char.ofNat (UInt8.ofNat n).toNat) = false ∧
      (Char.ofNat (UInt8.ofNat n).toNat).toLower = (b32Char v).toLower := by
    decide
  have hc := hall ⟨c.toNat, c.toNat_lt⟩ v
  rw [show UInt8.ofNat (⟨c.toNat, c.toNat_lt⟩ : Fin 256) = c from UInt8.ofNat_toNat] at hc
  exact hc h

theorem b32Val_b32Char : ∀ v < 32, (b32Char v).toNat < 128 ∧
    b32Val (UInt8.ofNat (b32Char v).toNat) = some v := by
  decide

theorem b32Val_toLower : ∀ v < 32, (b32Char v).toLower.toNat < 128 ∧
    b32Val (UInt8.ofNat (b32Char v).toLower.toNat) = some v := by
  decide

theorem toLower_b32Char : ∀ v < 32, ∀ u < 32, (b32Char v).toLower = (b32Char u).toLower →
    v = u := by
  intro v hv u hu h
  have hval := (b32Val_toLower v hv).2
  rw [h, (b32Val_toLower u hu).2] at hval
  exact (Option.some.inj hval).symm

theorem Symbols.lt (h : Symbols cs vs) :
    (∀ v ∈ vs, v < 2 ^ 5) ∧ ∀ c ∈ cs, c < 0x80 ∧ c ≠ equals := by
  induction h with
  | nil => exact ⟨nofun, nofun⟩
  | cons hv _ ih =>
    obtain ⟨hlt, hascii, hne, -⟩ := b32Val_spec hv
    exact ⟨forall_mem_cons.mpr ⟨hlt, ih.1⟩,
      forall_mem_cons.mpr ⟨⟨hascii, hne⟩, ih.2⟩⟩

theorem Symbols.lower (h : Symbols cs vs) :
    toAsciiLowercase (chars cs) = toAsciiLowercase (vs.map b32Char) := by
  induction h with
  | nil => rfl
  | cons hv _ ih =>
    obtain ⟨-, -, -, -, hlower⟩ := b32Val_spec hv
    exact congrArg₂ List.cons hlower ih

theorem values_of_lower (hvs : ∀ v ∈ vs, v < 2 ^ 5) (hus : ∀ u ∈ us, u < 2 ^ 5)
    (h : toAsciiLowercase (vs.map b32Char) = toAsciiLowercase (us.map b32Char)) : vs = us := by
  induction vs generalizing us with
  | nil =>
    cases us with
    | nil => rfl
    | cons u us => cases h
  | cons v vs ih =>
    cases us with
    | nil => cases h
    | cons u us =>
      rw [forall_mem_cons] at hvs hus
      obtain ⟨hhead, htail⟩ := cons.inj h
      rw [toLower_b32Char v hvs.1 u hus.1 hhead, ih hvs.2 hus.2 htail]

theorem foldlM_push32 {debug : Char → Text} :
    cs.foldlM (Reading.push32 debug) σ = .ok σ' ↔
      ∃ vs, Symbols cs vs ∧ vs.foldl (Reading.regroup 5 64) σ = σ' := by
  refine Except.success.foldlM_iff fun σ c σ' => ?_
  change σ.push32 debug c = .ok σ' ↔ _
  have hpush : σ.push32 debug c = match b32Val c with
      | none => .error ("invalid base32 character: " ++ debug (Char.ofNat c.toNat))
      | some v => .ok (σ.regroup 5 64 v) := by
    rw [Reading.push32]
    cases b32Val c with
    | none => rfl
    | some v => exact (apply_ite Except.ok _ _ _).symm
  rw [hpush]
  cases b32Val c with
  | none => exact ⟨nofun, nofun⟩
  | some v =>
    constructor
    · rintro ⟨⟩
      exact ⟨v, rfl, rfl⟩
    · rintro ⟨_, ⟨⟩, rfl⟩
      rfl

/-- A text without the `=` at its end. -/
def unpadded (s : Text) : Text := trimEndMatches (· == '=') s

theorem exists_padding (s : Text) : ∃ k, s = unpadded s ++ replicate k '=' := by
  have hequals : s.rtakeWhile (· == '=') = replicate (s.rtakeWhile (· == '=')).length '=' :=
    eq_replicate_of_mem fun c hc => by simpa using mem_rtakeWhile_imp hc
  exact ⟨_, rdropWhile_append_rtakeWhile.symm.trans (congrArg _ hequals)⟩

theorem utf8_equals (k : Nat) : utf8 (replicate k '=') = replicate k equals := by
  induction k with
  | zero => rfl
  | succ k ih =>
    rw [replicate_succ, utf8, flatMap_cons, ← utf8, ih]
    rfl

theorem unpadded_of_utf8 {k : Nat} (hcs : ∀ c ∈ cs, c < 0x80 ∧ c ≠ equals)
    (h : utf8 s = cs ++ replicate k equals) : unpadded s = chars cs := by
  have hs : s = chars cs ++ chars (replicate k equals) := by
    have hall : ∀ c ∈ utf8 s, c < 0x80 := by
      rw [h]
      intro c hc
      rcases mem_append.mp hc with hc | hc
      · exact (hcs c hc).1
      · rw [eq_of_mem_replicate hc]
        decide
    rw [eq_chars hall, h, chars, map_append]
    rfl
  rw [hs, unpadded]
  refine trimEndMatches_append ?_ ?_
  · intro c hc
    obtain ⟨d, hd, rfl⟩ := mem_map.mp hc
    obtain ⟨hascii, hne⟩ := hcs d hd
    rw [beq_eq_false_iff_ne]
    intro heq
    refine hne (UInt8.toNat_inj.mp ?_)
    rw [← toNat_char (UInt8.lt_iff_toNat_lt.mp hascii), heq]
    rfl
  · intro c hc
    obtain ⟨d, hd, rfl⟩ := mem_map.mp hc
    rw [eq_of_mem_replicate hd]
    rfl

/-! ## The decoder of base32 -/

theorem base32Decode_ok {debug : Char → Text} :
    base32Decode debug s = .ok b ↔ ∃ cs vs k n, utf8 (trim s) = cs ++ replicate k equals ∧
      Symbols cs vs ∧ n < 8 ∧ stream 5 vs = octets b ++ replicate n false := by
  have hread : ∀ cs : Bytes,
      ((do
        let σ ← cs.foldlM (Reading.push32 debug) { acc := 0, nbits := 0, out := [] }
        if 0 < σ.nbits ∧ σ.acc % 2 ^ σ.nbits ≠ 0 then
          .error "invalid base32: non-zero trailing bits"
        else .ok σ.out) : Except Text Bytes) = .ok b ↔
      ∃ vs, Symbols cs vs ∧ ∃ n < 8, stream 5 vs = octets b ++ replicate n false := by
    intro cs
    rw [Except.bind_eq_ok]
    constructor
    · rintro ⟨σ, hσ, hok⟩
      obtain ⟨vs, hvs, rfl⟩ := foldlM_push32.mp hσ
      split_ifs at hok with hzero
      exact ⟨vs, hvs, (taken_iff (by decide) (by decide) hvs.lt.1).mp ⟨Except.ok.inj hok, hzero⟩⟩
    · rintro ⟨vs, hvs, hbits⟩
      obtain ⟨hout, hzero⟩ := (taken_iff (m := 64) (by decide) (by decide) hvs.lt.1).mpr hbits
      exact ⟨_, foldlM_push32.mpr ⟨vs, hvs, rfl⟩, by rw [if_neg hzero, hout]⟩
  rw [base32Decode]
  constructor
  · intro h
    split_ifs at h with hpad
    obtain ⟨vs, hvs, n, hn, hbits⟩ := (hread _).mp h
    obtain ⟨k, hk⟩ : ∃ k, (utf8 (trim s)).drop ((utf8 (trim s)).findIdx (· == equals)) =
        replicate k equals := by
      refine ⟨_, eq_replicate_of_mem fun c hc => ?_⟩
      by_contra hne
      exact hpad (any_eq_true.mpr ⟨c, hc, by simpa using hne⟩)
    refine ⟨_, vs, k, n, ?_, hvs, hn, hbits⟩
    rw [← hk, take_append_drop]
  · rintro ⟨cs, vs, k, n, hutf8, hvs, hn, hbits⟩
    have hidx : (utf8 (trim s)).findIdx (· == equals) = cs.length := by
      have hnone : cs.findIdx (· == equals) = cs.length :=
        findIdx_eq_length_of_false fun c hc => by simpa using (hvs.lt.2 c hc).2
      rw [hutf8, findIdx_append, hnone, if_neg (Nat.lt_irrefl _)]
      cases k with
      | zero => simp
      | succ k => rw [replicate_succ, findIdx_cons, beq_self_eq_true, cond_true, Nat.zero_add]
    rw [hidx, hutf8, drop_left, take_left, if_neg]
    · exact (hread cs).mpr ⟨vs, hvs, n, hn, hbits⟩
    · simp

theorem symbols_b32Char (hvs : ∀ v ∈ vs, v < 32) :
    ∃ cs, utf8 (vs.map b32Char) = cs ∧ Symbols cs vs := by
  induction vs with
  | nil => exact ⟨[], rfl, .nil⟩
  | cons v vs ih =>
    rw [forall_mem_cons] at hvs
    obtain ⟨cs, hcs, hsyms⟩ := ih hvs.2
    obtain ⟨hlt, hval⟩ := b32Val_b32Char v hvs.1
    have hone : String.utf8EncodeChar (b32Char v) = [UInt8.ofNat (b32Char v).toNat] := by
      have hnat : (b32Char v).val.toNat = (b32Char v).toNat := rfl
      simp only [String.utf8EncodeChar, hnat]
      rw [if_pos (by omega)]
    refine ⟨UInt8.ofNat (b32Char v).toNat :: cs, ?_, .cons hval hsyms⟩
    rw [map_cons, utf8, flatMap_cons, ← utf8, hcs, hone]
    rfl

theorem base32Decode_base32Encode (debug : Char → Text) (b : Bytes) :
    base32Decode debug (base32Encode b) = .ok b := by
  obtain ⟨vs, n, hvs, hn, henc, hbits⟩ := base32Encode_spec b
  obtain ⟨cs, hcs, hsyms⟩ := symbols_b32Char hvs
  have hblank : ∀ c ∈ base32Encode b, isWhitespace c = false := by
    rw [henc]
    intro c hc
    obtain ⟨v, hv, rfl⟩ := mem_map.mp hc
    obtain ⟨-, hval⟩ := b32Val_b32Char v (hvs v hv)
    obtain ⟨-, -, -, hblank, -⟩ := b32Val_spec hval
    rwa [UInt8.toNat_ofNat', Nat.mod_eq_of_lt, Char.ofNat_toNat] at hblank
    exact (b32Val_b32Char v (hvs v hv)).1.trans (by decide)
  have htrim : trim (base32Encode b) = base32Encode b :=
    trim_eq_self (fun c hc => hblank c (mem_of_mem_head? hc))
      fun c hc => hblank c (mem_of_getLast? hc)
  refine base32Decode_ok.mpr ⟨cs, vs, 0, n, ?_, hsyms, by omega, hbits⟩
  rw [htrim, henc, hcs, replicate_zero, append_nil]

/-- A text of symbols with one symbol too many at its end: so many that five bits or more are
left after the last byte, all zero. -/
def Spare (s : Text) : Prop :=
  ∃ vs, (∀ v ∈ vs, v < 32) ∧ eqIgnoreAsciiCase (unpadded (trim s)) (vs.map b32Char) = true ∧
    vs.length % 8 ∈ [1, 3, 6] ∧
    ∀ x ∈ (stream 5 vs).drop (vs.length * 5 / 8 * 8), x = false

theorem eqIgnoreAsciiCase_iff :
    eqIgnoreAsciiCase s t ↔ toAsciiLowercase s = toAsciiLowercase t := beq_iff_eq

set_option maxRecDepth 100000 in
theorem symbol_of_lower {c : Char} (hv : v < 32) (h : c.toLower = (b32Char v).toLower) :
    c.toNat < 128 ∧ b32Val (UInt8.ofNat c.toNat) = some v := by
  have hcase : ∀ n : Fin 128,
      b32Val (UInt8.ofNat (Char.ofNat n).toLower.toNat) = b32Val (UInt8.ofNat n) := by
    decide
  obtain ⟨hlow, hval⟩ := b32Val_toLower v hv
  have hlt : c.toNat < 128 := by
    by_contra hbig
    have hsame : c.toLower = c := by
      unfold Char.toLower
      rw [dif_neg]
      rintro ⟨-, hle⟩
      exact hbig ((UInt32.le_iff_toNat_le.mp hle).trans_lt (by decide))
    rw [hsame] at h
    exact hbig (h ▸ hlow)
  refine ⟨hlt, (hcase ⟨c.toNat, hlt⟩).symm.trans ?_⟩
  rw [Char.ofNat_toNat, h, hval]

theorem symbols_of_lower (hvs : ∀ v ∈ vs, v < 32)
    (h : toAsciiLowercase t = toAsciiLowercase (vs.map b32Char)) :
    ∃ cs, t = chars cs ∧ Symbols cs vs := by
  induction vs generalizing t with
  | nil =>
    cases t with
    | nil => exact ⟨[], rfl, .nil⟩
    | cons c t => cases h
  | cons v vs ih =>
    cases t with
    | nil => cases h
    | cons c t =>
      rw [forall_mem_cons] at hvs
      obtain ⟨hhead, htail⟩ := cons.inj h
      obtain ⟨cs, rfl, hsyms⟩ := ih hvs.2 htail
      obtain ⟨hlt, hval⟩ := symbol_of_lower hvs.1 hhead
      refine ⟨UInt8.ofNat c.toNat :: cs, ?_, .cons hval hsyms⟩
      have hchar : Char.ofNat (UInt8.ofNat c.toNat).toNat = c := by
        rw [UInt8.toNat_ofNat', Nat.mod_eq_of_lt (by omega), Char.ofNat_toNat]
      exact congrArg (· :: chars cs) hchar.symm

theorem left_of_length (hn : n < 8) (h : stream 5 vs = octets b ++ replicate n false) :
    b.length = vs.length * 5 / 8 ∧ n = vs.length * 5 % 8 := by
  have hlen := congrArg List.length h
  rw [length_stream, length_append, length_octets, length_replicate] at hlen
  omega

theorem spare_residue (k : Nat) : k % 8 ∈ [1, 3, 6] ↔ 5 ≤ k * 5 % 8 := by
  have hall : ∀ r < 8, r ∈ [1, 3, 6] ↔ 5 ≤ r * (5 % 8) % 8 := by decide
  rw [Nat.mul_mod]
  exact hall (k % 8) (Nat.mod_lt k (by decide))

theorem symbols_inj (hvs : ∀ v ∈ vs, v < 2 ^ w) (hus : ∀ u ∈ us, u < 2 ^ w) (hm : m < w)
    (hn : n < w) (hv : stream w vs = octets b ++ replicate m false)
    (hu : stream w us = octets b ++ replicate n false) : vs = us ∧ m = n := by
  have hlen : ∀ {ts : List Nat} {k : Nat}, stream w ts = octets b ++ replicate k false →
      ts.length * w = b.length * 8 + k := by
    intro ts k h
    have hlen := congrArg List.length h
    rwa [length_stream, length_append, length_octets, length_replicate] at hlen
  have hmn : m = n := by
    have hmod : ∀ {ts : List Nat} {k : Nat}, ts.length * w = b.length * 8 + k →
        (b.length * 8 + k) % w = 0 := fun h => by rw [← h, Nat.mul_mod_left]
    have h₁ := hmod (hlen hv)
    have h₂ := hmod (hlen hu)
    have hcongr : Nat.ModEq w m n :=
      Nat.ModEq.add_left_cancel' (b.length * 8) (h₁.trans h₂.symm)
    rwa [Nat.ModEq, Nat.mod_eq_of_lt hm, Nat.mod_eq_of_lt hn] at hcongr
  subst hmn
  have heq : stream w vs ++ [] = stream w us ++ [] := by rw [hv, hu]
  have hnil : ([] : List Bool).length < w := Nat.zero_lt_of_lt hm
  exact ⟨(stream_append_inj hvs hus hnil hnil heq).1, rfl⟩

theorem base32_canonical_iff (debug : Char → Text) (s : Text) :
    (∀ b, base32Decode debug s = .ok b →
      eqIgnoreAsciiCase (unpadded (trim s)) (base32Encode b)) ↔ ¬ Spare s := by
  constructor
  · rintro h ⟨vs, hvs, hlower, hlen, hzero⟩
    obtain ⟨cs, hcs, hsyms⟩ := symbols_of_lower hvs (eqIgnoreAsciiCase_iff.mp hlower)
    obtain ⟨k, hk⟩ := exists_padding (trim s)
    -- the bytes that the symbols stand for
    obtain ⟨hn, htaken⟩ := foldl_regroup (w := 5) (m := 64) (by decide) (by decide) hvs
      (σ := { acc := 0, nbits := 0, out := [] }) (by decide)
    generalize vs.foldl (Reading.regroup 5 64) { acc := 0, nbits := 0, out := [] } = σ at hn htaken
    change octets σ.out ++ bits σ.nbits σ.acc = stream 5 vs at htaken
    have hcount := congrArg List.length htaken
    rw [length_append, length_octets, length_bits, length_stream] at hcount
    have hbits : stream 5 vs = octets σ.out ++ replicate σ.nbits false := by
      rw [← htaken]
      refine congrArg (_ ++ ·) ?_
      rw [← htaken, show vs.length * 5 / 8 * 8 = (octets σ.out).length by
        rw [length_octets]; omega, drop_left] at hzero
      conv_rhs => rw [← length_bits σ.nbits σ.acc]
      exact eq_replicate_of_mem hzero
    have hutf8 : utf8 (trim s) = cs ++ replicate k equals := by
      rw [hk, utf8, flatMap_append, ← utf8, ← utf8, hcs, utf8_equals,
        utf8_chars fun c hc => (hsyms.lt.2 c hc).1]
    have hcanon := h σ.out (base32Decode_ok.mpr ⟨cs, vs, k, σ.nbits, hutf8, hsyms, hn, hbits⟩)
    obtain ⟨us, n, hus, hn5, henc, hencbits⟩ := base32Encode_spec σ.out
    rw [henc, eqIgnoreAsciiCase_iff, ← eqIgnoreAsciiCase_iff.mp hlower |>.symm] at hcanon
    obtain rfl := values_of_lower hvs hus hcanon
    have h₁ := (left_of_length hn hbits).2
    have h₂ := (left_of_length (by omega) hencbits).2
    have h₃ := (spare_residue _).mp hlen
    omega
  · intro hspare b hb
    obtain ⟨cs, vs, k, n, hutf8, hsyms, hn, hbits⟩ := base32Decode_ok.mp hb
    have hbody := unpadded_of_utf8 hsyms.lt.2 hutf8
    obtain ⟨us, m, hus, hm, henc, hencbits⟩ := base32Encode_spec b
    have hn5 : n < 5 := by
      by_contra hbig
      obtain ⟨hb8, hn8⟩ := left_of_length hn hbits
      refine hspare ⟨vs, hsyms.lt.1, ?_, (spare_residue _).mpr (by omega), ?_⟩
      · rw [hbody]
        exact eqIgnoreAsciiCase_iff.mpr hsyms.lower
      · intro x hx
        rw [hbits, ← hb8, ← length_octets, drop_left] at hx
        exact eq_of_mem_replicate hx
    obtain ⟨rfl, -⟩ := symbols_inj hsyms.lt.1 hus hn5 hm hbits hencbits
    rw [hbody, henc]
    exact eqIgnoreAsciiCase_iff.mpr hsyms.lower

/-! ## The decoder of base64url -/

theorem foldlM_push_some :
    cs.foldlM Reading.push σ = some σ' ↔
      ∃ vs, Forall₂ (fun c v => b64urlVal c = some v) cs vs ∧
        vs.foldl (Reading.regroup 6 32) σ = σ' :=
  Option.success.foldlM_iff fun _ _ _ => Option.map_eq_some_iff

set_option maxRecDepth 100000 in
theorem b64urlVal_spec (h : b64urlVal c = some v) :
    v < 64 ∧ c < 0x80 ∧ Char.ofNat c.toNat = urlSafe (b64Char v) := by
  have hall : ∀ n : Fin 256, ∀ v ∈ b64urlVal (UInt8.ofNat n), v < 64 ∧ UInt8.ofNat n < 0x80 ∧
      Char.ofNat (UInt8.ofNat n).toNat = urlSafe (b64Char v) := by
    decide
  have hc := hall ⟨c.toNat, c.toNat_lt⟩ v
  rw [show UInt8.ofNat (⟨c.toNat, c.toNat_lt⟩ : Fin 256) = c from UInt8.ofNat_toNat] at hc
  exact hc h

theorem b64urlDecode_eq (s : Text) : b64urlDecode s =
    if (utf8 (unpadded s)).length % 4 = 1 then none else
      match (utf8 (unpadded s)).foldlM Reading.push { acc := 0, nbits := 0, out := [] } with
      | none => none
      | some σ => if 0 < σ.nbits ∧ σ.acc % 2 ^ σ.nbits ≠ 0 then none else some σ.out := rfl

theorem b64urlDecode_spec (h : b64urlDecode s = some b) :
    ∃ vs n, (∀ v ∈ vs, v < 2 ^ 6) ∧ unpadded s = vs.map (fun v => urlSafe (b64Char v)) ∧ n < 6 ∧
      stream 6 vs = octets b ++ replicate n false := by
  rw [b64urlDecode_eq] at h
  split_ifs at h with hlen
  cases hfold : (utf8 (unpadded s)).foldlM Reading.push { acc := 0, nbits := 0, out := [] } with
  | none =>
    rw [hfold] at h
    cases h
  | some σ =>
    rw [hfold] at h
    dsimp only at h
    split_ifs at h with hzero
    obtain ⟨vs, hvs, rfl⟩ := foldlM_push_some.mp hfold
    have hsyms : (∀ v ∈ vs, v < 2 ^ 6) ∧ (∀ c ∈ utf8 (unpadded s), c < 0x80) ∧
        chars (utf8 (unpadded s)) = vs.map fun v => urlSafe (b64Char v) := by
      clear hlen hfold hzero h
      generalize utf8 (unpadded s) = cs at hvs
      induction hvs with
      | nil => exact ⟨forall_mem_nil _, forall_mem_nil _, rfl⟩
      | cons hv _ ih =>
        obtain ⟨hlt, hascii, hchar⟩ := b64urlVal_spec hv
        exact ⟨forall_mem_cons.mpr ⟨hlt, ih.1⟩,
          forall_mem_cons.mpr ⟨hascii, ih.2.1⟩, congrArg₂ List.cons hchar ih.2.2⟩
    obtain ⟨hlt, hascii, hchars⟩ := hsyms
    obtain ⟨n, hn, hbits⟩ :=
      (taken_iff (by decide) (by decide) hlt).mp ⟨Option.some.inj h, hzero⟩
    refine ⟨vs, n, hlt, (eq_chars hascii).trans hchars, ?_, hbits⟩
    -- six bits or more are left only of a length that is refused
    have hcount := congrArg List.length hbits
    rw [length_stream, length_append, length_octets, length_replicate] at hcount
    rw [hvs.length_eq] at hlen
    omega

theorem b64url_canonical (h : b64urlDecode s = some b) : unpadded s = b64urlEncode b := by
  obtain ⟨vs, n, hvs, hs, hn, hbits⟩ := b64urlDecode_spec h
  obtain ⟨us, m, hus, henc, hm, hencbits⟩ := b64urlDecode_spec (b64urlDecode_b64urlEncode b)
  obtain ⟨rfl, -⟩ := symbols_inj hvs hus hn hm hbits hencbits
  have hself : unpadded (b64urlEncode b) = b64urlEncode b := by
    conv_lhs => rw [← append_nil (b64urlEncode b)]
    exact trimEndMatches_append (fun c hc => by simpa using (mem_b64urlEncode hc).2) (by simp)
  rw [hs, ← henc, hself]

/-! ## The strict decoders -/

/-- The strict decoders accept only what the encoders write, up to padding and, in base32, to
case, except for base32 texts with a symbol too many; two texts that decode to the same bytes
differ only in this; and what is written is read back. -/
theorem strict_decoders_iff (debug : Char → Text) :
    (∀ s, (∀ b, base32Decode debug s = .ok b →
      eqIgnoreAsciiCase (unpadded (trim s)) (base32Encode b) = true) ↔ ¬ Spare s) ∧
    (∀ s b, b64urlDecode s = some b → unpadded s = b64urlEncode b) ∧
    (∀ s s' b, ¬ Spare s → ¬ Spare s' → base32Decode debug s = .ok b →
      base32Decode debug s' = .ok b →
      eqIgnoreAsciiCase (unpadded (trim s)) (unpadded (trim s')) = true) ∧
    (∀ s s' b, b64urlDecode s = some b → b64urlDecode s' = some b →
      unpadded s = unpadded s') ∧
    (∀ b, base32Decode debug (base32Encode b) = .ok b) ∧
    ∀ b, b64urlDecode (b64urlEncode b) = some b := by
  refine ⟨base32_canonical_iff debug, fun s b => b64url_canonical, ?_, ?_,
    base32Decode_base32Encode debug, b64urlDecode_b64urlEncode⟩
  · intro s s' b hs hs' h h'
    have h₁ := eqIgnoreAsciiCase_iff.mp ((base32_canonical_iff debug s).mpr hs b h)
    have h₂ := eqIgnoreAsciiCase_iff.mp ((base32_canonical_iff debug s').mpr hs' b h')
    exact eqIgnoreAsciiCase_iff.mpr (h₁.trans h₂.symm)
  · intro s s' b h h'
    rw [b64url_canonical h, b64url_canonical h']

theorem strict_decoders_sample :
    eqIgnoreAsciiCase (unpadded (trim " mzxw6ytb== "))
        (base32Encode [0x66, 0x6f, 0x6f, 0x62, 0x61]) = true ∧
      unpadded "Zm8=" = b64urlEncode [0x66, 0x6f] := by
  have hall := strict_decoders_iff fun c => [c]
  refine ⟨(hall.1 " mzxw6ytb== ").mpr ?_ _ (by rfl), hall.2.1 _ _ (by rfl)⟩
  rintro ⟨vs, -, hlower, hlen, -⟩
  have hcount := congrArg List.length (eqIgnoreAsciiCase_iff.mp hlower)
  rw [toAsciiLowercase, toAsciiLowercase, length_map, length_map, length_map] at hcount
  rw [← hcount] at hlen
  exact absurd hlen (by decide)

/-- One `A` decodes to no bytes, of which nothing is written. -/
theorem base32_not_canonical : ¬ ∀ (debug : Char → Text) s b, base32Decode debug s = .ok b →
    eqIgnoreAsciiCase (unpadded (trim s)) (base32Encode b) = true := by
  intro h
  exact absurd (h (fun c => [c]) "A" [] (by rfl)) (by decide)

end Synsema.Bytesutil
