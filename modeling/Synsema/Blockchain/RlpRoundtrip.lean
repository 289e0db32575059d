import Synsema.Blockchain.Rlp

/-!
# RLP is canonical

`rlp_decode` inverts `rlp_encode`, up to the integers that come back as their bytes, and
`rlp_encode` inverts `rlp_decode`.  Both follow the reader along the byte string: what it finds
at a place is described by what the writer writes (`At`).
-/

namespace Synsema.Blockchain

open Text Bytesutil Captoken List

/-! ## What a value is written as -/

/-- The number, where it is an integer. -/
def Number.value : Number → Int
  | .int i => i.toInt
  | .big n => n
  | .float | .decimal => 0

mutual

/-- The bytes that stand for a value. -/
def encoding : SynValue → Bytes
  | .bytes b => rlpString b
  | .number n => rlpString (minimalBe n.value.toNat)
  | .list items => rlpListFrame (encodings items)
  | .text | .secret | .other _ => []

/-- The bytes that stand for the items of a list. -/
def encodings : List SynValue → Bytes
  | [] => []
  | v :: vs => encoding v ++ encodings vs

end

mutual

/-- The value with each integer as its shortest big-endian bytes. -/
def minimal : SynValue → SynValue
  | .bytes b => .bytes b
  | .number n => .bytes (minimalBe n.value.toNat)
  | .list items => .list (minimals items)
  | v => v

/-- `minimal`, of every item. -/
def minimals : List SynValue → List SynValue
  | [] => []
  | v :: vs => minimal v :: minimals vs

end

mutual

/-- A value built from bytes, integers that are not negative, and lists, in which nothing lies
inside more than `n` lists.  Values with lists nested at most `n` deep are of this kind. -/
def Rlp : Nat → SynValue → Prop
  | _, .bytes _ => True
  | _, .number (.int i) => 0 ≤ i.toInt
  | _, .number (.big n) => 0 ≤ n
  | 0, .list items => items = []
  | n + 1, .list items => RlpAll n items
  | _, _ => False

/-- `Rlp`, of every item. -/
def RlpAll : Nat → List SynValue → Prop
  | _, [] => True
  | n, v :: vs => Rlp n v ∧ RlpAll n vs

end

theorem intBeMinimal_eq {n : Number} {m : Nat} (h : Rlp m (.number n)) (fname : Text) :
    intBeMinimal n fname = .ok (minimalBe n.value.toNat) := by
  cases n with
  | int i =>
    have hi : 0 ≤ i.toInt := h
    have hle : (0 : Int64) ≤ i := Int64.le_iff_toInt_le.mpr hi
    have hneg : ¬ i < 0 := Int64.not_lt.mpr hle
    have hnat : i.toUInt64.toNat = i.toInt.toNat := Int64.toNat_toUInt64_of_le hle
    rw [intBeMinimal, if_neg hneg, significant_eq (UInt64.toNat_lt _), hnat]
    rfl
  | big b =>
    have hb : 0 ≤ b := h
    rw [intBeMinimal, if_neg (Int.not_lt.mpr hb)]
    have habs : b.natAbs = b.toNat := by omega
    by_cases h0 : b.natAbs = 0
    · rw [toBytesBe, if_pos h0, if_pos rfl]
      rw [Number.value, ← habs, h0]
      rfl
    · have hne : minimalBe b.natAbs ≠ [0] := by
        intro heq
        refine head?_minimalBe b.natAbs ?_
        rw [heq]
        rfl
      rw [toBytesBe, if_neg h0, if_neg hne, habs]
      rfl
  | float | decimal => exact absurd h (by simp [Rlp])

mutual

theorem rlpEncodeVal_eq : ∀ {n : Nat} {v : SynValue} {depth : Nat}, Rlp n v →
    depth + n ≤ rlpMaxDepth → rlpEncodeVal v depth = .ok (encoding v)
  | n, .bytes b, depth, _, hd => by
    rw [rlpEncodeVal, if_neg (by omega)]
    rfl
  | n, .number m, depth, h, hd => by
    rw [rlpEncodeVal, if_neg (by omega)]
    simp only [intBeMinimal_eq h]
    rfl
  | 0, .list items, depth, h, hd => by
    rw [Rlp] at h
    subst h
    rw [rlpEncodeVal, if_neg (by omega)]
    rfl
  | n + 1, .list items, depth, h, hd => by
    rw [Rlp] at h
    rw [rlpEncodeVal, if_neg (by omega)]
    simp only [rlpEncodeAll_eq h (show depth + 1 + n ≤ rlpMaxDepth by omega)]
    rfl
  | n, .text, depth, h, hd => by simp [Rlp] at h
  | n, .secret, depth, h, hd => by simp [Rlp] at h
  | n, .other _, depth, h, hd => by simp [Rlp] at h

theorem rlpEncodeAll_eq : ∀ {n : Nat} {vs : List SynValue} {depth : Nat}, RlpAll n vs →
    depth + n ≤ rlpMaxDepth → rlpEncodeAll vs depth = .ok (encodings vs)
  | n, [], depth, _, _ => rfl
  | n, v :: vs, depth, h, hd => by
    rw [RlpAll] at h
    rw [rlpEncodeAll, rlpEncodeVal_eq h.1 hd, rlpEncodeAll_eq h.2 hd]
    rfl

end

/-! ## What is written is read -/

/-- The reading gives `a`, whatever was read before. -/
def Reads {α : Type} (p : Dec α) (a : α) : Prop := ∀ log, ∃ log', p log = .ok (a, log')

namespace Reads

variable {α β : Type}

theorem pure (a : α) : Reads (pure a) a := fun log => ⟨log, rfl⟩

theorem bind {p : Dec α} {f : α → Dec β} {a : α} {b : β} (hp : Reads p a) (hf : Reads (f a) b) :
    Reads (p >>= f) b := by
  intro log
  obtain ⟨log', hlog'⟩ := hp log
  obtain ⟨log'', hlog''⟩ := hf log'
  refine ⟨log'', ?_⟩
  change (p log >>= fun r => f r.1 r.2) = _
  rw [hlog']
  exact hlog''

end Reads

theorem reads_slice {data b : Bytes} {i : Nat} (h : At data i b) :
    Reads (slice data i (i + b.length)) b := by
  rw [slice, if_pos ⟨Nat.le_add_right .., h.le⟩, h.take_drop]
  exact Reads.pure b

variable {s payload : Bytes} {start n : Nat} {v : SynValue} {vs : List SynValue}

theorem reads_stringBody {data : Bytes} (hdata : data.length < 2 ^ 63) (h : At data start s) :
    Reads (stringBody data start s.length) (.bytes s, start + s.length) := by
  have hle := h.le
  have hadd : usizeAdd start s.length = start + s.length := usizeAdd_eq (by omega)
  rw [stringBody, hadd, if_neg (Nat.not_lt.mpr hle)]
  exact (reads_slice h).bind (Reads.pure _)

theorem reads_readLen {data : Bytes} (hn : n < 2 ^ 64) (h55 : 55 < n)
    (h : At data start (significant n)) : Reads (readLen data start (significant n).length) n := by
  have hne : significant n ≠ [] := significant_ne_nil hn (by omega)
  have hpos := length_pos_iff.mpr hne
  have hle := h.le
  have hshort : ¬ ((significant n).length = 0 ∨ 8 < (significant n).length ∨
      data.length < start + (significant n).length) := by
    have := length_significant_le n
    omega
  have hhead : data.getD start 0 ≠ 0 := by
    obtain ⟨c, cs, hcs⟩ := exists_cons_of_ne_nil hne
    rw [hcs, At.cons_iff] at h
    rw [h.1.getD_eq]
    intro hc
    refine head?_minimalBe n ?_
    rw [← significant_eq hn, hcs, hc]
    rfl
  have hval : Cur.beNat ((data.drop start).take (significant n).length) = n := by
    rw [h.drop_take, significant_eq hn, beNat_minimalBe]
  rw [readLen, if_neg hshort, if_neg hhead, hval]
  intro log
  refine ⟨n :: log, ?_⟩
  change (if n ≤ 55 then _ else _ : Dec Nat) (n :: log) = _
  rw [if_neg (by omega)]
  rfl

variable {c long short : UInt8} {len np : Nat} {P : SynValue → Prop}
  {item : Nat → Dec (SynValue × Nat)}

theorem toNat_add_ofNat (h : c.toNat + n < 256) : (c + UInt8.ofNat n).toNat = c.toNat + n := by
  rw [UInt8.toNat_add, UInt8.toNat_ofNat', Nat.mod_eq_of_lt (show n < 2 ^ 8 by omega),
    Nat.mod_eq_of_lt (by omega)]

theorem toNat_sub_of_eq_add {d : UInt8} (hn : n < 256) (h : d = c + UInt8.ofNat n) :
    (d - c).toNat = n := by
  rw [h, UInt8.add_comm, UInt8.add_sub_cancel, UInt8.toNat_ofNat_of_lt' hn]

section Heads

variable {data : Bytes} {room pos : Nat} {head : UInt8}

theorem decodeAt_single (h : At data pos [head]) (hle : head ≤ 0x7f) :
    rlpDecodeAt data (room + 1) pos = pure (.bytes [head], pos + 1) := by
  rw [rlpDecodeAt]
  simp only [h.getD_eq]
  rw [if_neg (Nat.not_le.mpr h.lt), if_pos hle]

theorem decodeAt_short (h : At data pos [0x80 + UInt8.ofNat n]) (hn : n ≤ 55)
    (hfits : pos + 1 + n ≤ data.length) (hcanon : ¬ (n = 1 ∧ data.getD (pos + 1) 0 ≤ 0x7f)) :
    rlpDecodeAt data (room + 1) pos = stringBody data (pos + 1) n := by
  have hval : (0x80 + UInt8.ofNat n : UInt8).toNat = 0x80 + n := toNat_add_ofNat (by
    change 0x80 + n < 256
    omega)
  have h₁ : ¬ (0x80 + UInt8.ofNat n : UInt8) ≤ 0x7f := by
    rw [UInt8.le_iff_toNat_le, hval]
    change ¬ 0x80 + n ≤ 0x7f
    omega
  have h₂ : (0x80 + UInt8.ofNat n : UInt8) ≤ 0xb7 := by
    rw [UInt8.le_iff_toNat_le, hval]
    change 0x80 + n ≤ 0xb7
    omega
  have hsub : ((0x80 + UInt8.ofNat n : UInt8) - 0x80).toNat = n :=
    toNat_sub_of_eq_add (by omega) rfl
  rw [rlpDecodeAt]
  simp only [h.getD_eq, hsub]
  rw [if_neg (Nat.not_le.mpr h.lt), if_neg h₁, if_pos h₂, if_neg (by omega), if_neg hcanon]

variable {m : Nat}

theorem decodeAt_long (h : At data pos [0xb7 + UInt8.ofNat m]) (h0 : 0 < m) (h8 : m ≤ 8) :
    rlpDecodeAt data (room + 1) pos = (do
      let len ← readLen data (pos + 1) m
      stringBody data (pos + 1 + m) len) := by
  have hval : (0xb7 + UInt8.ofNat m : UInt8).toNat = 0xb7 + m := toNat_add_ofNat (by
    change 0xb7 + m < 256
    omega)
  have h₁ : ¬ (0xb7 + UInt8.ofNat m : UInt8) ≤ 0x7f := by
    rw [UInt8.le_iff_toNat_le, hval]
    change ¬ 0xb7 + m ≤ 0x7f
    omega
  have h₂ : ¬ (0xb7 + UInt8.ofNat m : UInt8) ≤ 0xb7 := by
    rw [UInt8.le_iff_toNat_le, hval]
    change ¬ 0xb7 + m ≤ 0xb7
    omega
  have h₃ : (0xb7 + UInt8.ofNat m : UInt8) ≤ 0xbf := by
    rw [UInt8.le_iff_toNat_le, hval]
    change 0xb7 + m ≤ 0xbf
    omega
  have hsub : ((0xb7 + UInt8.ofNat m : UInt8) - 0xb7).toNat = m :=
    toNat_sub_of_eq_add (by omega) rfl
  rw [rlpDecodeAt]
  simp only [h.getD_eq, hsub]
  rw [if_neg (Nat.not_le.mpr h.lt), if_neg h₁, if_neg h₂, if_pos h₃]

theorem decodeAt_shortList (h : At data pos [0xc0 + UInt8.ofNat n]) (hn : n ≤ 55) :
    rlpDecodeAt data (room + 1) pos =
      rlpDecodeList (rlpDecodeAt data room) data (pos + 1) n := by
  have hval : (0xc0 + UInt8.ofNat n : UInt8).toNat = 0xc0 + n := toNat_add_ofNat (by
    change 0xc0 + n < 256
    omega)
  have hgt : ∀ c : UInt8, c.toNat < 0xc0 → ¬ (0xc0 + UInt8.ofNat n : UInt8) ≤ c := by
    intro c hc
    rw [UInt8.le_iff_toNat_le, hval]
    omega
  have hle : (0xc0 + UInt8.ofNat n : UInt8) ≤ 0xf7 := by
    rw [UInt8.le_iff_toNat_le, hval]
    change 0xc0 + n ≤ 0xf7
    omega
  have hsub : ((0xc0 + UInt8.ofNat n : UInt8) - 0xc0).toNat = n :=
    toNat_sub_of_eq_add (by omega) rfl
  rw [rlpDecodeAt]
  simp only [h.getD_eq, hsub]
  rw [if_neg (Nat.not_le.mpr h.lt), if_neg (hgt _ (by decide)), if_neg (hgt _ (by decide)),
    if_neg (hgt _ (by decide)), if_pos hle]

theorem decodeAt_longList (h : At data pos [0xf7 + UInt8.ofNat m]) (h0 : 0 < m) (h8 : m ≤ 8) :
    rlpDecodeAt data (room + 1) pos = (do
      let len ← readLen data (pos + 1) m
      rlpDecodeList (rlpDecodeAt data room) data (pos + 1 + m) len) := by
  have hval : (0xf7 + UInt8.ofNat m : UInt8).toNat = 0xf7 + m := toNat_add_ofNat (by
    change 0xf7 + m < 256
    omega)
  have hgt : ∀ c : UInt8, c.toNat ≤ 0xf7 → ¬ (0xf7 + UInt8.ofNat m : UInt8) ≤ c := by
    intro c hc
    rw [UInt8.le_iff_toNat_le, hval]
    omega
  have hsub : ((0xf7 + UInt8.ofNat m : UInt8) - 0xf7).toNat = m :=
    toNat_sub_of_eq_add (by omega) rfl
  rw [rlpDecodeAt]
  simp only [h.getD_eq, hsub]
  rw [if_neg (Nat.not_le.mpr h.lt), if_neg (hgt _ (by decide)), if_neg (hgt _ (by decide)),
    if_neg (hgt _ (by decide)), if_neg (hgt _ (by decide))]

end Heads

theorem length_framed_le (short long : UInt8) (payload : Bytes) :
    payload.length < (framed short long payload).length := by
  rw [framed]
  split_ifs with h
  · simp
  · simp only [cons_append, length_cons, length_append]
    omega

theorem length_rlpString_pos (s : Bytes) : 0 < (rlpString s).length := by
  rw [rlpString]
  split_ifs with h
  · simp
  · exact Nat.zero_lt_of_lt (length_framed_le ..)

theorem encoding_pos (h : Rlp n v) : 0 < (encoding v).length := by
  cases v with
  | bytes b =>
    rw [encoding]
    exact length_rlpString_pos b
  | number m =>
    rw [encoding]
    exact length_rlpString_pos _
  | list items =>
    rw [encoding]
    exact Nat.zero_lt_of_lt (length_framed_le ..)
  | text | secret | other name => simp [Rlp] at h

theorem length_long (pos : Nat) (c : UInt8) (lenBe payload : Bytes) :
    pos + (c :: (lenBe ++ payload)).length = pos + 1 + lenBe.length + payload.length := by
  rw [length_cons, length_append]
  omega

theorem reads_rlpString {data : Bytes} {room pos : Nat} (hdata : data.length < 2 ^ 63)
    (h : At data pos (rlpString s)) :
    Reads (rlpDecodeAt data (room + 1) pos) (.bytes s, pos + (rlpString s).length) := by
  rw [rlpString] at h ⊢
  by_cases hself : s.length = 1 ∧ s.getD 0 0 ≤ 0x7f
  · rw [if_pos hself] at h ⊢
    obtain ⟨c, rfl⟩ := length_eq_one_iff.mp hself.1
    rw [decodeAt_single h hself.2]
    exact Reads.pure _
  · rw [if_neg hself] at h ⊢
    rw [framed] at h ⊢
    by_cases h55 : s.length ≤ 55
    · rw [if_pos h55] at h ⊢
      rw [At.cons_iff] at h
      have hcanon : ¬ (s.length = 1 ∧ data.getD (pos + 1) 0 ≤ 0x7f) := by
        rintro ⟨h1, hle⟩
        obtain ⟨c, rfl⟩ := length_eq_one_iff.mp h1
        rw [h.2.getD_eq] at hle
        exact hself ⟨h1, hle⟩
      rw [decodeAt_short h.1 h55 h.2.le hcanon, length_cons, Nat.add_comm s.length, ← Nat.add_assoc]
      exact reads_stringBody hdata h.2
    · rw [if_neg h55] at h ⊢
      simp only [cons_append] at h ⊢
      rw [At.cons_iff, At.append_iff] at h
      obtain ⟨hhead, hlen, hbody⟩ := h
      have hlt : s.length < 2 ^ 64 := by
        have := hbody.le
        omega
      have hpos := length_pos_iff.mpr (significant_ne_nil hlt (by omega))
      rw [decodeAt_long hhead hpos (length_significant_le _)]
      refine (reads_readLen hlt (by omega) hlen).bind ?_
      rw [length_long]
      exact reads_stringBody hdata hbody

theorem reads_rlpListFrame {data : Bytes} {items : List SynValue} {room pos : Nat}
    (hdata : data.length < 2 ^ 63) (h : At data pos (rlpListFrame payload))
    (hitems : ∀ {start fuel : Nat}, At data start payload → payload.length < fuel →
      Reads (rlpDecodeItems (rlpDecodeAt data room) (start + payload.length) fuel start) items) :
    Reads (rlpDecodeAt data (room + 1) pos)
      (.list items, pos + (rlpListFrame payload).length) := by
  have hlist : ∀ {start : Nat}, At data start payload →
      Reads (rlpDecodeList (rlpDecodeAt data room) data start payload.length)
        (.list items, start + payload.length) := by
    intro start hstart
    have hle := hstart.le
    have hadd : usizeAdd start payload.length = start + payload.length :=
      usizeAdd_eq (by omega)
    rw [rlpDecodeList, hadd, if_neg (Nat.not_lt.mpr hle)]
    exact (hitems hstart (by omega)).bind (Reads.pure _)
  rw [rlpListFrame, framed] at h ⊢
  by_cases h55 : payload.length ≤ 55
  · rw [if_pos h55] at h ⊢
    rw [At.cons_iff] at h
    rw [decodeAt_shortList h.1 h55, length_cons, Nat.add_comm payload.length, ← Nat.add_assoc]
    exact hlist h.2
  · rw [if_neg h55] at h ⊢
    simp only [cons_append] at h ⊢
    rw [At.cons_iff, At.append_iff] at h
    obtain ⟨hhead, hlen, hbody⟩ := h
    have hlt : payload.length < 2 ^ 64 := by
      have := hbody.le
      omega
    have hpos := length_pos_iff.mpr (significant_ne_nil hlt (by omega))
    rw [decodeAt_longList hhead hpos (length_significant_le _)]
    refine (reads_readLen hlt (by omega) hlen).bind ?_
    rw [length_long]
    exact hlist hbody

mutual

theorem reads_encoding {data : Bytes} (hdata : data.length < 2 ^ 63) :
    ∀ {n room pos : Nat} {v : SynValue}, Rlp n v → n ≤ room → At data pos (encoding v) →
      Reads (rlpDecodeAt data (room + 1) pos) (minimal v, pos + (encoding v).length)
  | _, _, _, .bytes b, _, _, h => by
    rw [encoding] at h ⊢
    exact reads_rlpString hdata h
  | _, _, _, .number m, _, _, h => by
    rw [encoding] at h ⊢
    exact reads_rlpString hdata h
  | 0, room, pos, .list items, hv, _, h => by
    rw [Rlp] at hv
    subst hv
    rw [encoding, encodings] at h ⊢
    refine reads_rlpListFrame hdata h ?_
    intro start fuel _ hfuel
    obtain ⟨fuel, rfl⟩ := Nat.exists_eq_succ_of_ne_zero (Nat.ne_zero_of_lt hfuel)
    rw [rlpDecodeItems, if_neg (by simp)]
    exact Reads.pure _
  | n + 1, 0, _, .list items, _, hroom, _ => absurd hroom (Nat.not_succ_le_zero n)
  | n + 1, room + 1, pos, .list items, hv, hroom, h => by
    rw [Rlp] at hv
    rw [encoding] at h ⊢
    exact reads_rlpListFrame hdata h
      (reads_encodings hdata hv (Nat.le_of_succ_le_succ hroom))
  | _, _, _, .text, hv, _, _ => by simp [Rlp] at hv
  | _, _, _, .secret, hv, _, _ => by simp [Rlp] at hv
  | _, _, _, .other _, hv, _, _ => by simp [Rlp] at hv

theorem reads_encodings {data : Bytes} (hdata : data.length < 2 ^ 63) :
    ∀ {n room : Nat} {vs : List SynValue}, RlpAll n vs → n ≤ room → ∀ {p fuel : Nat},
      At data p (encodings vs) → (encodings vs).length < fuel →
      Reads (rlpDecodeItems (rlpDecodeAt data (room + 1)) (p + (encodings vs).length) fuel p)
        (minimals vs)
  | _, _, [], _, _, p, fuel + 1, _, _ => by
    rw [rlpDecodeItems, if_neg (by simp [encodings])]
    exact Reads.pure _
  | n, room, v :: vs, hvs, hroom, p, fuel + 1, h, hfuel => by
    rw [RlpAll] at hvs
    rw [encodings, At.append_iff] at h
    rw [encodings, length_append] at hfuel ⊢
    have hpos := encoding_pos hvs.1
    rw [rlpDecodeItems, if_pos (by omega)]
    refine (reads_encoding hdata hvs.1 hroom h.1).bind ?_
    rw [if_neg (by simp only; omega)]
    refine Reads.bind ?_ (Reads.pure _)
    rw [← Nat.add_assoc]
    exact reads_encodings hdata hvs.2 hroom h.2 (by omega)

end

/-- What is written is read: what `rlp_encode` gives for a value built from bytes, integers
and lists `rlp_decode` takes back, with the integers as their shortest bytes. -/
theorem rlpDecode_encoding (h : Rlp rlpMaxDepth v) (hb : (encoding v).length < 2 ^ 63) :
    rlpEncode v = .ok ⟨encoding v, hb⟩ ∧ rlpDecode ⟨encoding v, hb⟩ = .ok (minimal v) := by
  constructor
  · rw [rlpEncode, rlpEncodeVal_eq h (by decide)]
    change toSlice (encoding v) = _
    rw [toSlice, dif_pos hb]
  · have hat : At (encoding v) 0 (encoding v) := ⟨[], [], by simp, rfl⟩
    obtain ⟨log, hlog⟩ := reads_encoding hb h (Nat.le_refl _) hat []
    have hne : (encoding v).isEmpty = false := by
      rw [isEmpty_eq_false_iff]
      exact length_pos_iff.mp (encoding_pos h)
    rw [rlpDecode, rlpDecodeLog]
    simp only [hne, hlog]
    simp [Except.map]

/-! ## What is read was written -/

section Inversion

variable {α β : Type} {log log' : List Nat}

theorem bind_ok {p : Dec α} {f : α → Dec β} {b : β} :
    (p >>= f) log = .ok (b, log') ↔
      ∃ a mid, p log = .ok (a, mid) ∧ f a mid = .ok (b, log') := by
  change (p log >>= fun r => f r.1 r.2) = _ ↔ _
  cases hp : p log with
  | error e =>
    constructor
    · intro h
      cases h
    · rintro ⟨a, mid, h, -⟩
      cases h
  | ok r =>
    constructor
    · intro h
      exact ⟨r.1, r.2, rfl, h⟩
    · rintro ⟨a, mid, h, hf⟩
      cases h
      exact hf

variable {b : α}

theorem pure_ok {a : α} : (pure a : Dec α) log = .ok (b, log') ↔ a = b ∧ log = log' := by
  change (Except.ok (a, log) : Except Stop _) = .ok (b, log') ↔ _
  rw [Except.ok.injEq, Prod.mk.injEq]

theorem fail_ne_ok {message : Text} :
    (Dec.fail message : Dec α) log ≠ .ok (b, log') := nofun

end Inversion

theorem readLen_ok {data : Bytes} {nbytes : Nat} {log log' : List Nat}
    (h : readLen data start nbytes log = .ok (n, log')) :
    log' = n :: log ∧ 55 < n ∧ n < 2 ^ 64 ∧ At data start (significant n) ∧
      (significant n).length = nbytes := by
  rw [readLen] at h
  by_cases h₁ : nbytes = 0 ∨ 8 < nbytes ∨ data.length < start + nbytes
  · rw [if_pos h₁] at h
    exact absurd h fail_ne_ok
  rw [if_neg h₁] at h
  by_cases h₂ : data.getD start 0 = 0
  · rw [if_pos h₂] at h
    exact absurd h fail_ne_ok
  rw [if_neg h₂, bind_ok] at h
  obtain ⟨_, mid, hmod, h⟩ := h
  cases hmod
  by_cases h₃ : Cur.beNat ((data.drop start).take nbytes) ≤ 55
  · rw [if_pos h₃] at h
    exact absurd h fail_ne_ok
  rw [if_neg h₃, pure_ok] at h
  obtain ⟨rfl, rfl⟩ := h
  have hfits : start + nbytes ≤ data.length := by omega
  have hat : At data start ((data.drop start).take nbytes) := At.of_drop_take hfits
  have hlen : ((data.drop start).take nbytes).length = nbytes := by
    rw [length_take, length_drop]
    omega
  have hlt : Cur.beNat ((data.drop start).take nbytes) < 2 ^ 64 := by
    calc Cur.beNat ((data.drop start).take nbytes) < 256 ^ nbytes := by
          have hbytes := Cur.beNat_lt ((data.drop start).take nbytes)
          rwa [hlen] at hbytes
      _ ≤ 256 ^ 8 := Nat.pow_le_pow_right (by decide) (by omega)
      _ = 2 ^ 64 := by decide
  have hhead : ((data.drop start).take nbytes).head? ≠ some 0 := by
    intro hzero
    obtain ⟨bs, hbs⟩ := head?_eq_some_iff.mp hzero
    rw [hbs, At.cons_iff] at hat
    exact h₂ hat.1.getD_eq
  have hsig := (significant_eq hlt).trans (eq_minimalBe hhead).symm
  refine ⟨rfl, by omega, hlt, ?_, ?_⟩
  · rw [hsig]
    exact hat
  · rw [hsig, hlen]

theorem stringBody_ok {data : Bytes} {log log' : List Nat} (hadd : start + len < 2 ^ 64)
    (h : stringBody data start len log = .ok ((v, np), log')) :
    ∃ s, v = .bytes s ∧ s.length = len ∧ At data start s ∧ np = start + len ∧ log = log' := by
  rw [stringBody, usizeAdd_eq hadd] at h
  by_cases h₁ : data.length < start + len
  · rw [if_pos h₁] at h
    exact absurd h fail_ne_ok
  rw [if_neg h₁, bind_ok] at h
  obtain ⟨b, mid, hb, h⟩ := h
  rw [slice, if_pos ⟨Nat.le_add_right .., Nat.le_of_not_lt h₁⟩, pure_ok] at hb
  rw [pure_ok, Prod.mk.injEq] at h
  obtain ⟨rfl, rfl⟩ := hb
  obtain ⟨⟨rfl, rfl⟩, rfl⟩ := h
  refine ⟨_, rfl, ?_, At.of_slice (Nat.le_add_right ..) (Nat.le_of_not_lt h₁), rfl, rfl⟩
  rw [length_slice (Nat.le_of_not_lt h₁), Nat.add_sub_cancel_left]

/-- A reading keeps the length headers that were read before. -/
def Grows {α : Type} (p : Dec α) : Prop :=
  ∀ log a log', p log = .ok (a, log') → log <:+ log'

namespace Grows

variable {α β : Type}

theorem pure (a : α) : Grows (pure a) := by
  intro log b log' h
  obtain ⟨-, rfl⟩ := pure_ok.mp h
  exact suffix_refl _

theorem fail (message : Text) : Grows (Dec.fail message : Dec α) := fun _ _ _ h =>
  absurd h fail_ne_ok

variable {p : Dec α}

theorem bind {f : α → Dec β} (hp : Grows p) (hf : ∀ a, Grows (f a)) : Grows (p >>= f) := by
  intro log b log' h
  obtain ⟨a, mid, ha, hb⟩ := bind_ok.mp h
  exact (hp _ _ _ ha).trans (hf a _ _ _ hb)

theorem ite {c : Prop} [Decidable c] {q : Dec α} (hp : Grows p) (hq : Grows q) :
    Grows (if c then p else q) := by
  by_cases hc : c
  · rw [if_pos hc]
    exact hp
  · rw [if_neg hc]
    exact hq

theorem readLen (data : Bytes) (start nbytes : Nat) : Grows (readLen data start nbytes) := by
  intro log n log' h
  obtain ⟨rfl, -⟩ := readLen_ok h
  exact suffix_cons ..

theorem stringBody (data : Bytes) (start len : Nat) : Grows (stringBody data start len) := by
  refine ite (fail _) (bind (ite (pure _) ?_) fun b => pure _)
  intro log b log' h
  cases h

theorem rlpDecodeItems {item : Nat → Dec (SynValue × Nat)} (hitem : ∀ p, Grows (item p))
    (stop fuel p : Nat) : Grows (rlpDecodeItems item stop fuel p) := by
  induction fuel generalizing p with
  | zero =>
    intro log vs log' h
    cases h
  | succ fuel ih =>
    refine ite (bind (hitem p) fun r => ?_) (pure _)
    exact ite (fail _) (bind (ih _) fun vs => pure _)

theorem rlpDecodeList {item : Nat → Dec (SynValue × Nat)} (hitem : ∀ p, Grows (item p))
    (data : Bytes) (start len : Nat) : Grows (rlpDecodeList item data start len) :=
  ite (fail _) (bind (rlpDecodeItems hitem _ _ _) fun _ => pure _)

theorem rlpDecodeAt (data : Bytes) (room p : Nat) : Grows (rlpDecodeAt data room p) := by
  induction room generalizing p with
  | zero => exact fail _
  | succ room ih =>
    refine ite (fail _) (ite (pure _) (ite ?_ (ite ?_ (ite ?_ ?_))))
    · exact ite (fail _) (ite (fail _) (stringBody _ _ _))
    · exact bind (readLen _ _ _) fun len => stringBody _ _ _
    · exact rlpDecodeList ih _ _ _
    · exact bind (readLen _ _ _) fun len => rlpDecodeList ih _ _ _

end Grows

/-- The length headers are all below `2 ^ 63`. -/
def Small (log : List Nat) : Prop := ∀ n ∈ log, n < 2 ^ 63

theorem Small.of_suffix {log log' : List Nat} (h : Small log') (hs : log <:+ log') :
    Small log := fun n hn => h n (hs.subset hn)

/-- What a reading of an item at `p` gives stands at `p`, and `P` holds of it. -/
def Sound (data : Bytes) (P : SynValue → Prop) (item : Nat → Dec (SynValue × Nat)) : Prop :=
  ∀ {p : Nat} {log : List Nat} {v : SynValue} {np : Nat} {log' : List Nat},
    item p log = .ok ((v, np), log') → Small log' →
      P v ∧ At data p (encoding v) ∧ np = p + (encoding v).length

theorem items_sound {data : Bytes} {stop : Nat} (hitem : Sound data P item)
    (hgrows : ∀ p, Grows (item p)) (hstop : stop ≤ data.length) {fuel p : Nat} {log log' : List Nat}
    (hp : p ≤ stop) (h : rlpDecodeItems item stop fuel p log = .ok (vs, log')) (hsmall : Small log')
    : (∀ v ∈ vs, P v) ∧ At data p (encodings vs) ∧ p + (encodings vs).length = stop := by
  induction fuel generalizing p log vs with
  | zero => cases h
  | succ fuel ih =>
    rw [rlpDecodeItems] at h
    by_cases hlt : p < stop
    · rw [if_pos hlt, bind_ok] at h
      obtain ⟨r, mid, hr, h⟩ := h
      by_cases hover : stop < r.2
      · rw [if_pos hover] at h
        exact absurd h fail_ne_ok
      rw [if_neg hover, bind_ok] at h
      obtain ⟨ws, mid', hws, h⟩ := h
      rw [pure_ok] at h
      obtain ⟨rfl, rfl⟩ := h
      obtain ⟨hall, hat', hend⟩ := ih (Nat.le_of_not_lt hover) hws
      have hsuf := Grows.rlpDecodeItems hgrows _ _ _ _ _ _ hws
      obtain ⟨hv, hat, hnp⟩ := hitem hr (hsmall.of_suffix hsuf)
      rw [hnp] at hat' hend
      refine ⟨?_, ?_, ?_⟩
      · rintro w (_ | ⟨_, hw⟩)
        · exact hv
        · exact hall w hw
      · rw [encodings, At.append_iff]
        exact ⟨hat, hat'⟩
      · rw [encodings, length_append, ← Nat.add_assoc, hend]
    · rw [if_neg hlt, pure_ok] at h
      obtain ⟨rfl, rfl⟩ := h
      have hps : p = stop := by omega
      have hnil : At data p [] := by
        have := At.of_slice (Nat.le_refl p) (hps ▸ hstop)
        rwa [drop_eq_nil_of_le (by simp)] at this
      exact ⟨nofun, hnil, hps⟩

theorem list_sound {data : Bytes} {log log' : List Nat} (hitem : Sound data P item)
    (hgrows : ∀ p, Grows (item p)) (hadd : start + len < 2 ^ 64)
    (h : rlpDecodeList item data start len log = .ok ((v, np), log')) (hsmall : Small log') :
    ∃ vs, v = .list vs ∧ (∀ v ∈ vs, P v) ∧ At data start (encodings vs) ∧
      (encodings vs).length = len ∧ np = start + len := by
  rw [rlpDecodeList, usizeAdd_eq hadd] at h
  by_cases h₁ : data.length < start + len
  · rw [if_pos h₁] at h
    exact absurd h fail_ne_ok
  rw [if_neg h₁, bind_ok] at h
  obtain ⟨vs, mid, hvs, h⟩ := h
  rw [pure_ok, Prod.mk.injEq] at h
  obtain ⟨⟨rfl, rfl⟩, rfl⟩ := h
  obtain ⟨hall, hat, hend⟩ :=
    items_sound hitem hgrows (Nat.le_of_not_lt h₁) (Nat.le_add_right ..) hvs hsmall
  exact ⟨vs, rfl, hall, hat, Nat.add_left_cancel hend, rfl⟩

section Heads

variable {head : UInt8}

theorem eq_add_sub (c : UInt8) : head = c + UInt8.ofNat (head - c).toNat := by
  rw [UInt8.ofNat_toNat, UInt8.add_comm, UInt8.sub_add_cancel]

variable {c d : UInt8}

theorem sub_le (hc : c ≤ head) (hd : head ≤ d) : (head - c).toNat ≤ d.toNat - c.toNat := by
  rw [UInt8.toNat_sub_of_le _ _ hc]
  exact Nat.sub_le_sub_right (UInt8.le_iff_toNat_le.mp hd) _

theorem succ_le (h : ¬ head ≤ c) (hd : d.toNat = c.toNat + 1) : d ≤ head := by
  rw [UInt8.le_iff_toNat_le] at h ⊢
  omega

end Heads

theorem rlpString_framed (h : ¬ (s.length = 1 ∧ s.getD 0 0 ≤ 0x7f)) :
    rlpString s = framed 0x80 0xb7 s := by
  rw [rlpString, if_neg h]

theorem framed_short (h : payload.length ≤ 55) :
    framed short long payload = (short + UInt8.ofNat payload.length) :: payload := by
  rw [framed, if_pos h]

theorem framed_long (h : 55 < payload.length) :
    framed short long payload = (long + UInt8.ofNat (significant payload.length).length) ::
      (significant payload.length ++ payload) := by
  rw [framed, if_neg (Nat.not_le.mpr h)]
  rfl

theorem rlpAll_iff : RlpAll n vs ↔ ∀ v ∈ vs, Rlp n v := by
  induction vs with
  | nil => simp [RlpAll]
  | cons v vs ih => rw [RlpAll, ih, forall_mem_cons]

/-- What can lie in a list, with room for `n` lists around a value. -/
def Inside : Nat → SynValue → Prop
  | 0, _ => False
  | n + 1, v => Rlp n v

theorem rlp_list (hvs : ∀ v ∈ vs, Inside n v) : Rlp n (.list vs) := by
  cases n with
  | zero =>
    rw [Rlp]
    exact eq_nil_iff_forall_not_mem.mpr hvs
  | succ n =>
    rw [Rlp]
    exact rlpAll_iff.mpr hvs

theorem decodeAt_step {data : Bytes} (hdata : data.length < 2 ^ 63) {room : Nat}
    (hitem : Sound data (Inside room) (rlpDecodeAt data room)) :
    Sound data (Rlp room) (rlpDecodeAt data (room + 1)) := by
  intro pos log v np log' h hsmall
  have hgrows : ∀ p, Grows (rlpDecodeAt data room p) := Grows.rlpDecodeAt data room
  rw [rlpDecodeAt] at h
  by_cases hpos : data.length ≤ pos
  · simp only [if_pos hpos] at h
    exact absurd h fail_ne_ok
  simp only [if_neg hpos] at h
  have hhead := At.of_getD (Nat.lt_of_not_le hpos)
  revert h
  generalize data.getD pos 0 = head at hhead
  intro h
  by_cases h₁ : head ≤ 0x7f
  · rw [if_pos h₁, pure_ok, Prod.mk.injEq] at h
    obtain ⟨⟨rfl, rfl⟩, rfl⟩ := h
    have henc : rlpString [head] = [head] := by rw [rlpString, if_pos ⟨rfl, h₁⟩]; rfl
    refine ⟨trivial, ?_, ?_⟩
    · rw [encoding, henc]
      exact hhead
    · rw [encoding, henc]
      rfl
  rw [if_neg h₁] at h
  by_cases h₂ : head ≤ 0xb7
  · have hc : (0x80 : UInt8) ≤ head := succ_le h₁ rfl
    have hle : (head - 0x80).toNat ≤ 55 := (sub_le hc h₂).trans (by decide)
    rw [if_pos h₂] at h
    by_cases h₃ : data.length < pos + 1 + (head - 0x80).toNat
    · rw [if_pos h₃] at h
      exact absurd h fail_ne_ok
    rw [if_neg h₃] at h
    by_cases h₄ : (head - 0x80).toNat = 1 ∧ data.getD (pos + 1) 0 ≤ 0x7f
    · rw [if_pos h₄] at h
      exact absurd h fail_ne_ok
    rw [if_neg h₄] at h
    obtain ⟨s, rfl, hlen, hat, rfl, rfl⟩ := stringBody_ok (by omega) h
    have hself : ¬ (s.length = 1 ∧ s.getD 0 0 ≤ 0x7f) := by
      rintro ⟨h1, hs⟩
      obtain ⟨c, rfl⟩ := length_eq_one_iff.mp h1
      exact h₄ ⟨hlen ▸ h1, by rw [hat.getD_eq]; exact hs⟩
    have henc : rlpString s = head :: s := by
      rw [rlpString_framed hself, framed_short (by omega), hlen, ← eq_add_sub]
    refine ⟨trivial, ?_, ?_⟩
    · rw [encoding, henc, At.cons_iff]
      exact ⟨hhead, hat⟩
    · rw [encoding, henc, length_cons, hlen]
      omega
  rw [if_neg h₂] at h
  by_cases h₃ : head ≤ 0xbf
  · rw [if_pos h₃, bind_ok] at h
    obtain ⟨len, mid, hlen, h⟩ := h
    obtain ⟨rfl, h55, -, hat, hsig⟩ := readLen_ok hlen
    have hbound : len < 2 ^ 63 :=
      hsmall.of_suffix (Grows.stringBody _ _ _ _ _ _ h) len (mem_cons_self ..)
    obtain ⟨s, rfl, hslen, hbody, rfl, rfl⟩ := stringBody_ok (by
      have := hat.le
      omega) h
    have hself : ¬ (s.length = 1 ∧ s.getD 0 0 ≤ 0x7f) := fun hs => by omega
    have henc : rlpString s = head :: (significant len ++ s) := by
      rw [rlpString_framed hself, framed_long (by omega), hslen, hsig, ← eq_add_sub]
    refine ⟨trivial, ?_, ?_⟩
    · rw [encoding, henc, At.cons_iff, At.append_iff, hsig]
      exact ⟨hhead, hat, hbody⟩
    · rw [encoding, henc, length_long, hsig, hslen]
  rw [if_neg h₃] at h
  by_cases h₄ : head ≤ 0xf7
  · have hc : (0xc0 : UInt8) ≤ head := succ_le h₃ rfl
    have hle : (head - 0xc0).toNat ≤ 55 := (sub_le hc h₄).trans (by decide)
    rw [if_pos h₄] at h
    obtain ⟨vs, rfl, hrlp, hat, hlen, rfl⟩ :=
      list_sound hitem hgrows (by omega) h hsmall
    have henc : rlpListFrame (encodings vs) = head :: encodings vs := by
      rw [rlpListFrame, framed_short (by omega), hlen, ← eq_add_sub]
    refine ⟨rlp_list hrlp, ?_, ?_⟩
    · rw [encoding, henc, At.cons_iff]
      exact ⟨hhead, hat⟩
    · rw [encoding, henc, length_cons, hlen]
      omega
  · rw [if_neg h₄, bind_ok] at h
    obtain ⟨len, mid, hlen, h⟩ := h
    obtain ⟨rfl, h55, -, hat, hsig⟩ := readLen_ok hlen
    have hbound : len < 2 ^ 63 :=
      hsmall.of_suffix (Grows.rlpDecodeList hgrows _ _ _ _ _ _ h) len (mem_cons_self ..)
    obtain ⟨vs, rfl, hrlp, hbody, hvlen, rfl⟩ := list_sound hitem hgrows (by
      have := hat.le
      omega) h hsmall
    have henc : rlpListFrame (encodings vs) = head :: (significant len ++ encodings vs) := by
      rw [rlpListFrame, framed_long (by omega), hvlen, hsig, ← eq_add_sub]
    refine ⟨rlp_list hrlp, ?_, ?_⟩
    · rw [encoding, henc, At.cons_iff, At.append_iff, hsig]
      exact ⟨hhead, hat, hbody⟩
    · rw [encoding, henc, length_long, hsig, hvlen]

theorem decodeAt_sound {data : Bytes} (hdata : data.length < 2 ^ 63) (room : Nat) :
    Sound data (Inside room) (rlpDecodeAt data room) := by
  induction room with
  | zero =>
    intro p log v np log' h _
    exact absurd h fail_ne_ok
  | succ room ih => exact decodeAt_step hdata ih

theorem rlpEncode_rlpDecode {b : Slice} {log : List Nat} (h : rlpDecodeLog b = .ok (v, log))
    (hsmall : Small log) : rlpEncode v = .ok b := by
  rw [rlpDecodeLog] at h
  by_cases hempty : b.1.isEmpty
  · rw [if_pos hempty] at h
    cases h
  rw [if_neg hempty] at h
  cases hat : rlpDecodeAt b.1 (rlpMaxDepth + 1) 0 [] with
  | error e =>
    rw [hat] at h
    cases h
  | ok r =>
    obtain ⟨⟨w, consumed⟩, log'⟩ := r
    rw [hat] at h
    simp only at h
    by_cases hall : consumed ≠ b.1.length
    · rw [if_pos hall] at h
      cases h
    rw [if_neg hall, Except.ok.injEq, Prod.mk.injEq] at h
    obtain ⟨rfl, rfl⟩ := h
    obtain ⟨hrlp, ⟨l, r, hb, hl⟩, hlen⟩ := decodeAt_sound b.2 (rlpMaxDepth + 1) hat hsmall
    have henc : encoding w = b.1 := by
      have hnil : l = [] := eq_nil_of_length_eq_zero hl
      have hrest : r = [] := by
        apply eq_nil_of_length_eq_zero
        have := congrArg List.length hb
        simp only [length_append] at this
        omega
      rw [hb, hnil, hrest, nil_append, append_nil]
    rw [rlpEncode, rlpEncodeVal_eq hrlp (by decide)]
    change toSlice (encoding w) = _
    rw [toSlice, dif_pos (henc ▸ b.2)]
    simp only [henc]

/-- RLP is canonical.  `rlp_decode` gives back what `rlp_encode` was given, with each integer as
its shortest bytes, if the encoding is not longer than a byte string can be; and `rlp_encode`
gives back what `rlp_decode` was given, so no two byte strings decode to the same value. -/
theorem rlp_canonical :
    (∀ v, Rlp rlpMaxDepth v →
      (∃ b, rlpEncode v = .ok b ∧ rlpDecode b = .ok (minimal v)) ∨
        rlpEncode v = .error .panic ∧ 2 ^ 63 ≤ (encoding v).length) ∧
    (∀ b v log, rlpDecodeLog b = .ok (v, log) → Small log → rlpEncode v = .ok b) ∧
    (∀ b b' v v' log log', rlpDecodeLog b = .ok (v, log) → rlpDecodeLog b' = .ok (v', log') →
      Small log → Small log' → b ≠ b' → v ≠ v') := by
  refine ⟨fun v hv => ?_, fun b v log h hsmall => rlpEncode_rlpDecode h hsmall, ?_⟩
  · by_cases hb : (encoding v).length < 2 ^ 63
    · exact Or.inl ⟨_, rlpDecode_encoding hv hb⟩
    · refine Or.inr ⟨?_, Nat.le_of_not_lt hb⟩
      rw [rlpEncode, rlpEncodeVal_eq hv (by decide)]
      change toSlice (encoding v) = _
      rw [toSlice, dif_neg hb]
  · rintro b b' v v' log log' h h' hsmall hsmall' hne rfl
    have heq := (rlpEncode_rlpDecode h hsmall).symm.trans (rlpEncode_rlpDecode h' hsmall')
    exact hne (Except.ok.inj heq)

/-- The list of an integer, bytes and an empty list. -/
def sampleList : SynValue := .list [.number (.int 1024), .bytes [0x64, 0x6f, 0x67], .list []]

/-- Its encoding. -/
def sampleBytes : Slice :=
  ⟨[0xc8, 0x82, 0x04, 0x00, 0x83, 0x64, 0x6f, 0x67, 0xc0], by decide⟩

theorem rlp_canonical_sample :
    rlpEncode sampleList = .ok sampleBytes ∧
      ((∃ b, rlpEncode sampleList = .ok b ∧ rlpDecode b = .ok (minimal sampleList)) ∨
        rlpEncode sampleList = .error .panic ∧ 2 ^ 63 ≤ (encoding sampleList).length) ∧
      rlpEncode (.list [.bytes [4, 0], .bytes [0x64, 0x6f, 0x67], .list []]) =
        .ok sampleBytes ∧
      (SynValue.list [.bytes [4, 0], .bytes [0x64, 0x6f, 0x67], .list []]) ≠ .bytes [0] := by
  have hread : rlpDecodeLog sampleBytes =
      .ok (.list [.bytes [4, 0], .bytes [0x64, 0x6f, 0x67], .list []], []) := by rfl
  have hsmall : Small [] := fun n hn => absurd hn not_mem_nil
  refine ⟨by rfl, ?_, ?_, ?_⟩
  · refine rlp_canonical.1 sampleList ?_
    simp [sampleList, Rlp, RlpAll, rlpMaxDepth]
  · exact rlp_canonical.2.1 sampleBytes _ [] hread hsmall
  · exact rlp_canonical.2.2 sampleBytes ⟨[0], by decide⟩ _ _ [] [] hread (by rfl) hsmall
      hsmall (by decide)

end Synsema.Blockchain
