import Synsema.Btc.Psbt

/-!
# The maps of a partially signed transaction

What `parse_psbt` accepts (`synsema-stdlib/src/blockchain_btc.rs`): the magic, a global map with the
unsigned transaction, a map for each of its inputs and one for each of its outputs, and nothing else
(`parsePsbtBytes_eq_ok`).  In a map each key is there once.

Two fields of an input tell the output that it spends.  The `witness_utxo` prevails, in whichever
order they stand (`utxo_of_witness`, `utxo_of_prev`).
-/

namespace Synsema.Btc

open Text Bytesutil Reader List

/-! ## Maps -/

section Maps

variable {data : Bytes} (fname : Text)

/-- A field that can be written. -/
def FieldOk (f : PsbtField) : Prop := f.1 ≠ [] ∧ Fits f.1 ∧ Fits f.2

/-- A field, or the separator. -/
def entryBytes : Option PsbtField → Bytes
  | none => [0x00]
  | some f => fieldBytes f

/-- The field that an entry is. -/
def entryField (o : Option PsbtField) : PsbtField := o.getD ([], [])

theorem exact_entry (n : UInt64) : Exact data
    (Reader.size >>= fun size =>
      if n.toNat > size then fail (fname ++ ": PSBT key length exceeds the input")
      else readBytes n.toNat fname >>= fun key => readBlob fname >>= fun value =>
        (pure (some (key, value)) : Reader UInt8 Text (Option PsbtField)))
    (fun o => (entryField o).1 ++ writeBlob (entryField o).2)
    fun o => (entryField o).1.length = n.toNat ∧ o.isSome ∧ Fits (entryField o).2 := by
  have hvalue : ∀ key, Exact data (readBlob fname >>= fun value =>
      (pure (some (key, value)) : Reader UInt8 Text (Option PsbtField)))
      (fun o => writeBlob (entryField o).2)
      fun o => (entryField o).1 = key ∧ o.isSome ∧ Fits (entryField o).2 := by
    intro key
    refine (Exact.map (g := fun o => (entryField o).2)
      (Q := fun o => (entryField o).1 = key ∧ o.isSome) (exact_readBlob fname)
      (fun value _ => ⟨rfl, rfl, rfl⟩) ?_).congr (fun o => ?_) fun _ _ => rfl
    · rintro o ⟨rfl, hsome⟩ -
      obtain ⟨f, rfl⟩ := Option.isSome_iff_exists.mp hsome
      rfl
    · rw [and_comm, and_assoc]
  refine Exact.size (Exact.guard (fun _ => ?_) ?_)
  · exact Exact.bind (g := fun o => (entryField o).1) (w := fun o => writeBlob (entryField o).2)
      (Q := fun o => o.isSome ∧ Fits (entryField o).2) (Exact.take _ _) fun key _ => hvalue key
  · rintro hlong o ⟨hlen, -⟩ p hp hpre
    have hle := Exact.add_length_le hp hpre
    rw [length_append, hlen] at hle
    omega

theorem exact_readField :
    Exact data (readField fname) entryBytes fun o => ∀ f, o = some f → FieldOk f := by
  intro p hp o q
  rw [readField, bind_eq_ok]
  constructor
  · rintro ⟨n, q', hn, h⟩
    obtain ⟨-, hpre, rfl⟩ := (exact_readVarint fname p hp n q').mp hn
    by_cases hz : n = 0
    · rw [if_pos hz] at h
      obtain ⟨rfl, rfl⟩ := Prod.mk.inj (Except.ok.inj h)
      rw [hz] at hpre ⊢
      exact ⟨nofun, hpre, rfl⟩
    · rw [if_neg hz] at h
      obtain ⟨⟨hlen, hsome, hfits⟩, hrest, rfl⟩ :=
        (exact_entry fname n _ (Exact.add_length_le hp hpre) o q).mp h
      obtain ⟨f, rfl⟩ := Option.isSome_iff_exists.mp hsome
      obtain ⟨hcount, hkey⟩ := count_eq_iff.mp hlen
      change UInt64.ofNat f.1.length = n at hcount
      have hbytes : entryBytes (some f) = writeVarint n ++ (f.1 ++ writeBlob f.2) := by
        rw [← hcount]
        exact append_assoc _ _ _
      refine ⟨?_, ?_, ?_⟩
      · rintro f' ⟨⟩
        refine ⟨fun hnil => hz ?_, hkey, hfits⟩
        rw [← hcount, hnil]
        rfl
      · rw [hbytes]
        exact Exact.append_prefix_drop.mpr ⟨hpre, hrest⟩
      · change p + _ + (f.1 ++ writeBlob f.2).length = _
        rw [hbytes, Nat.add_assoc, ← length_append]
  · rintro ⟨hok, hpre, rfl⟩
    cases o with
    | none =>
      refine ⟨0, _, (exact_readVarint fname p hp 0 _).mpr ⟨trivial, hpre, rfl⟩, ?_⟩
      rfl
    | some f =>
      obtain ⟨hkey, hfits, hvalue⟩ := hok f rfl
      have hbytes : entryBytes (some f) =
          writeVarint (.ofNat f.1.length) ++ (f.1 ++ writeBlob f.2) := append_assoc _ _ _
      rw [hbytes] at hpre ⊢
      obtain ⟨hfirst, hrest⟩ := Exact.append_prefix_drop.mp hpre
      refine ⟨.ofNat f.1.length, _,
        (exact_readVarint fname p hp _ _).mpr ⟨trivial, hfirst, rfl⟩, ?_⟩
      have hz : UInt64.ofNat f.1.length ≠ 0 := by
        intro hz
        have hlen := toNat_count hfits
        rw [hz] at hlen
        exact hkey (length_eq_zero_iff.mp hlen.symm)
      rw [if_neg hz]
      refine (exact_entry fname _ _ (Exact.add_length_le hp hfirst) (some f) _).mpr
        ⟨⟨(toNat_count hfits).symm, rfl, hvalue⟩, hrest, ?_⟩
      rw [length_append, ← Nat.add_assoc]
      rfl

/-- A map that can be written: each key is there once. -/
structure MapOk (m : List PsbtField) : Prop where
  fields : ∀ f ∈ m, FieldOk f
  nodup : (m.map Prod.fst).Nodup

theorem length_fieldBytes_pos (f : PsbtField) : 0 < (fieldBytes f).length := by
  rw [fieldBytes, length_append]
  exact Nat.add_pos_left (length_writeBlob_pos f.1) _

theorem mapBytes_cons (f : PsbtField) (m : List PsbtField) :
    mapBytes (f :: m) = fieldBytes f ++ mapBytes m := by
  rw [mapBytes, flatMap_cons, append_assoc]
  rfl

theorem any_key_iff {out : List PsbtField} {key : Bytes} :
    (out.any fun f => f.1 = key) = true ↔ key ∈ out.map Prod.fst := by
  rw [any_eq_true, mem_map]
  simp only [decide_eq_true_eq]

theorem readFields_eq_ok {fuel p q : Nat} (hp : p ≤ data.length) (hfuel : data.length - p < fuel)
    {out m : List PsbtField} (hout : (out.map Prod.fst).Nodup) :
    (readFields fname fuel out data p).2 = .ok (m, q) ↔
      ∃ rest, m = out ++ rest ∧ (∀ f ∈ rest, FieldOk f) ∧ (m.map Prod.fst).Nodup ∧
        mapBytes rest <+: data.drop p ∧ q = p + (mapBytes rest).length := by
  induction fuel generalizing p out with
  | zero => exact absurd hfuel (Nat.not_lt_zero _)
  | succ fuel ih =>
    rw [readFields, bind_eq_ok]
    -- behind a field there is less data
    have hless : ∀ {f : PsbtField}, fieldBytes f <+: data.drop p →
        data.length - (p + (fieldBytes f).length) < fuel := by
      intro f hpre
      have hpos := length_fieldBytes_pos f
      have := Exact.add_length_le hp hpre
      omega
    constructor
    · rintro ⟨o, q', ho, h⟩
      obtain ⟨hok, hpre, rfl⟩ := (exact_readField fname p hp o q').mp ho
      cases o with
      | none =>
        obtain ⟨rfl, rfl⟩ := Prod.mk.inj (Except.ok.inj h)
        exact ⟨[], (append_nil _).symm, nofun, hout, hpre, rfl⟩
      | some f =>
        dsimp only at h
        by_cases hdup : (out.any fun g => g.1 = f.1) = true
        · rw [if_pos hdup] at h
          cases h
        · rw [if_neg hdup] at h
          have hnew : ((out ++ [f]).map Prod.fst).Nodup := by
            rw [map_append, map_singleton]
            exact nodup_append.mpr ⟨hout, nodup_singleton _, fun a ha b hb => by
              rw [mem_singleton.mp hb]
              rintro rfl
              exact hdup (any_key_iff.mpr ha)⟩
          obtain ⟨rest, hm, hrest, hnodup, hpres, rfl⟩ :=
            (ih (Exact.add_length_le hp hpre) (hless hpre) hnew).mp h
          refine ⟨f :: rest, by rw [hm, append_assoc]; rfl, ?_, hnodup, ?_, ?_⟩
          · exact forall_mem_cons.mpr ⟨hok f rfl, hrest⟩
          · rw [mapBytes_cons]
            exact Exact.append_prefix_drop.mpr ⟨hpre, hpres⟩
          · rw [mapBytes_cons, length_append, ← Nat.add_assoc]
            rfl
    · rintro ⟨rest, rfl, hrest, hnodup, hpre, rfl⟩
      cases rest with
      | nil =>
        refine ⟨none, _, (exact_readField fname p hp none _).mpr ⟨nofun, hpre, rfl⟩, ?_⟩
        rw [append_nil]
        rfl
      | cons f rest =>
        obtain ⟨hok, hrest⟩ := forall_mem_cons.mp hrest
        rw [mapBytes_cons] at hpre
        obtain ⟨hfirst, hpres⟩ := Exact.append_prefix_drop.mp hpre
        have hfield : (readField fname data p).2 =
            .ok (some f, p + (entryBytes (some f)).length) :=
          (exact_readField fname p hp (some f) _).mpr
            ⟨fun _ h => by cases h; exact hok, hfirst, rfl⟩
        refine ⟨some f, _, hfield, ?_⟩
        dsimp only
        have happend : out ++ f :: rest = (out ++ [f]) ++ rest := by
          rw [append_assoc]
          rfl
        rw [happend, map_append] at hnodup
        have hnew : ((out ++ [f]).map Prod.fst).Nodup := (nodup_append.mp hnodup).1
        have hdup : ¬ (out.any fun g => g.1 = f.1) = true := by
          intro hdup
          rw [map_append, map_singleton] at hnew
          exact (nodup_append.mp hnew).2.2 _ (any_key_iff.mp hdup) _
            (mem_singleton.mpr rfl) rfl
        rw [if_neg hdup]
        refine (ih (Exact.add_length_le hp hfirst) (hless hfirst) hnew).mpr
          ⟨rest, happend, hrest, ?_, hpres, ?_⟩
        · rw [happend, map_append]
          exact hnodup
        · rw [mapBytes_cons, length_append, ← Nat.add_assoc]

theorem exact_readPsbtMap : Exact data (readPsbtMap fname) mapBytes MapOk := by
  intro p hp m q
  rw [readPsbtMap, bind_eq_ok]
  have hread : (readFields fname (data.length + 1) [] data p).2 = .ok (m, q) ↔ _ :=
    readFields_eq_ok fname hp (Nat.lt_succ_of_le (Nat.sub_le data.length p)) nodup_nil
  constructor
  · rintro ⟨n, q', hn, h⟩
    obtain ⟨rfl, rfl⟩ := Prod.mk.inj (Except.ok.inj hn)
    obtain ⟨rest, rfl, hrest, hnodup, hpre, hq⟩ := hread.mp h
    exact ⟨⟨hrest, hnodup⟩, hpre, hq⟩
  · rintro ⟨hok, hpre, hq⟩
    exact ⟨data.length, p, rfl, hread.mpr ⟨m, rfl, hok.fields, hok.nodup, hpre, hq⟩⟩

end Maps

/-! ## Parsing -/

section Parsing

variable {data : Bytes} {fname : Text}

/-- What is read of the maps of the inputs, from the `i`-th on. -/
def InputsRead (fname : Text) : Nat → List RawInput → List (List PsbtField) → List PsbtInput → Prop
  | _, [], [], [] => True
  | i, raw :: raws, m :: ms, pin :: pins =>
    inputFields fname i raw.vout m = .ok pin ∧ InputsRead fname (i + 1) raws ms pins
  | _, _, _, _ => False

theorem readPsbtInputs_eq_ok {i p q : Nat} (hp : p ≤ data.length) {raws : List RawInput}
    {pins : List PsbtInput} : (readPsbtInputs fname i raws data p).2 = .ok (pins, q) ↔
      ∃ ms, InputsRead fname i raws ms pins ∧ (∀ m ∈ ms, MapOk m) ∧
        ms.flatMap mapBytes <+: data.drop p ∧ q = p + (ms.flatMap mapBytes).length := by
  induction raws generalizing i p q pins with
  | nil =>
    constructor
    · intro h
      obtain ⟨rfl, rfl⟩ := Prod.mk.inj (Except.ok.inj h)
      exact ⟨[], trivial, nofun, nil_prefix, rfl⟩
    · rintro ⟨ms, hread, -, -, rfl⟩
      cases ms with
      | cons => exact hread.elim
      | nil =>
        cases pins with
        | cons => exact hread.elim
        | nil => rfl
  | cons raw raws ih =>
    rw [readPsbtInputs, bind_eq_ok]
    constructor
    · rintro ⟨m, q', hm, h⟩
      obtain ⟨hok, hpre, rfl⟩ := (exact_readPsbtMap fname p hp m q').mp hm
      obtain ⟨pin, q'', hpin, h⟩ := bind_eq_ok.mp h
      obtain ⟨hfields, rfl⟩ := ofExcept_eq_ok.mp hpin
      obtain ⟨pins, q'', hpins, h⟩ := bind_eq_ok.mp h
      obtain ⟨rfl, rfl⟩ := Prod.mk.inj (Except.ok.inj h)
      obtain ⟨ms, hread, hoks, hpres, rfl⟩ := (ih (Exact.add_length_le hp hpre)).mp hpins
      refine ⟨m :: ms, ⟨hfields, hread⟩, forall_mem_cons.mpr ⟨hok, hoks⟩, ?_, ?_⟩
      · rw [flatMap_cons]
        exact Exact.append_prefix_drop.mpr ⟨hpre, hpres⟩
      · rw [flatMap_cons, length_append, Nat.add_assoc]
    · rintro ⟨ms, hread, hoks, hpre, rfl⟩
      cases ms with
      | nil => exact hread.elim
      | cons m ms =>
        cases pins with
        | nil => exact hread.elim
        | cons pin pins =>
          obtain ⟨hpin, hread⟩ := hread
          obtain ⟨hok, hoks⟩ := forall_mem_cons.mp hoks
          rw [flatMap_cons] at hpre
          obtain ⟨hfirst, hrest⟩ := Exact.append_prefix_drop.mp hpre
          refine ⟨m, _, (exact_readPsbtMap fname p hp m _).mpr ⟨hok, hfirst, rfl⟩, ?_⟩
          refine bind_eq_ok.mpr ⟨pin, _, ofExcept_eq_ok.mpr ⟨hpin, rfl⟩, ?_⟩
          have hpins := (ih (Exact.add_length_le hp hfirst)).mpr
            ⟨ms, hread, hoks, hrest, rfl⟩
          refine bind_eq_ok.mpr ⟨pins, _, hpins, ?_⟩
          rw [flatMap_cons, length_append, ← Nat.add_assoc]
          rfl

/-- The maps of a partially signed transaction. -/
structure PsbtMaps where
  global : List PsbtField
  inputs : List (List PsbtField)
  outputs : List (List PsbtField)

namespace PsbtMaps

/-- The bytes of the maps. -/
def body (m : PsbtMaps) : Bytes :=
  mapBytes m.global ++ (m.inputs.flatMap mapBytes ++ m.outputs.flatMap mapBytes)

/-- The bytes of the maps, behind the magic. -/
def bytes (m : PsbtMaps) : Bytes := psbtMagic ++ m.body

/-- What is read of the maps. -/
structure Read (fname : Text) (m : PsbtMaps) (psbt : Psbt) : Prop where
  global : MapOk m.global
  inputs : ∀ f ∈ m.inputs, MapOk f
  outputs : ∀ f ∈ m.outputs, MapOk f
  tx : globalTx fname m.global = .ok psbt.tx
  inputsRead : InputsRead fname 0 psbt.tx.inputs m.inputs psbt.inputs
  length : m.outputs.length = psbt.tx.outputs.length

end PsbtMaps

theorem readPsbt_eq_ok {p q : Nat} (hp : p ≤ data.length) {psbt : Psbt} :
    (readPsbt fname data p).2 = .ok (psbt, q) ↔
      ∃ m : PsbtMaps, m.Read fname psbt ∧ m.body <+: data.drop p ∧ q = p + m.body.length := by
  rw [readPsbt, bind_eq_ok]
  constructor
  · rintro ⟨global, q₁, hglobal, h⟩
    obtain ⟨hok, hpre, rfl⟩ := (exact_readPsbtMap fname p hp global q₁).mp hglobal
    obtain ⟨tx, q₂, htx, h⟩ := bind_eq_ok.mp h
    obtain ⟨htx', rfl⟩ := ofExcept_eq_ok.mp htx
    obtain ⟨inputs, q₃, hinputs, h⟩ := bind_eq_ok.mp h
    have hp₁ := Exact.add_length_le hp hpre
    obtain ⟨ms, hread, hoks, hpres, rfl⟩ := (readPsbtInputs_eq_ok hp₁).mp hinputs
    obtain ⟨outputs, q₄, houtputs, h⟩ := bind_eq_ok.mp h
    have hp₂ := Exact.add_length_le hp₁ hpres
    obtain ⟨⟨hlen, houts⟩, hrest, rfl⟩ :=
      ((exact_readPsbtMap fname).times _ _ hp₂ outputs q₄).mp houtputs
    obtain ⟨rfl, rfl⟩ := Prod.mk.inj (Except.ok.inj h)
    refine ⟨⟨global, ms, outputs⟩, ⟨hok, hoks, houts, htx', hread, hlen⟩, ?_, ?_⟩
    · exact Exact.append_prefix_drop.mpr ⟨hpre, Exact.append_prefix_drop.mpr ⟨hpres, hrest⟩⟩
    · rw [PsbtMaps.body, length_append, length_append, ← Nat.add_assoc, ← Nat.add_assoc]
  · rintro ⟨m, hm, hpre, rfl⟩
    obtain ⟨hfirst, hpre⟩ := Exact.append_prefix_drop.mp hpre
    have hp₁ := Exact.add_length_le hp hfirst
    obtain ⟨hsecond, hrest⟩ := Exact.append_prefix_drop.mp hpre
    have hp₂ := Exact.add_length_le hp₁ hsecond
    have hinputs := (readPsbtInputs_eq_ok hp₁).mpr ⟨m.inputs, hm.inputsRead, hm.inputs, hsecond, rfl⟩
    have houtputs := ((exact_readPsbtMap fname).times psbt.tx.outputs.length _ hp₂ m.outputs _).mpr
      ⟨⟨hm.length, hm.outputs⟩, hrest, rfl⟩
    refine ⟨m.global, _,
      (exact_readPsbtMap fname p hp m.global _).mpr ⟨hm.global, hfirst, rfl⟩, ?_⟩
    refine bind_eq_ok.mpr ⟨psbt.tx, _, ofExcept_eq_ok.mpr ⟨hm.tx, rfl⟩, ?_⟩
    refine bind_eq_ok.mpr ⟨psbt.inputs, _, hinputs, bind_eq_ok.mpr ⟨m.outputs, _, houtputs, ?_⟩⟩
    rw [PsbtMaps.body, length_append, length_append, ← Nat.add_assoc, ← Nat.add_assoc]
    rfl

theorem parsePsbtBytes_eq_ok {psbt : Psbt} : parsePsbtBytes fname data = .ok psbt ↔
    data.length ≤ maxTxBytes ∧ ∃ m : PsbtMaps, data = m.bytes ∧ m.Read fname psbt := by
  rw [parsePsbtBytes]
  by_cases hlen : data.length > maxTxBytes
  · rw [if_pos hlen]
    exact iff_of_false nofun fun h => absurd h.1 (not_le.mpr hlen)
  rw [if_neg hlen]
  by_cases hmagic : data.take 5 ≠ psbtMagic
  · rw [if_pos hmagic]
    refine iff_of_false nofun ?_
    rintro ⟨-, m, rfl, -⟩
    exact hmagic rfl
  rw [if_neg hmagic]
  have htake : data.take 5 = psbtMagic := not_not.mp hmagic
  have hfive : 5 ≤ data.length := by
    have := congrArg List.length htake
    rw [length_take] at this
    change min 5 data.length = 5 at this
    omega
  -- the maps are all that stands behind the magic
  have hbytes : ∀ m : PsbtMaps, data = m.bytes ↔
      m.body <+: data.drop 5 ∧ data.length = 5 + m.body.length := by
    intro m
    constructor
    · rintro rfl
      exact ⟨prefix_rfl, length_append⟩
    · rintro ⟨hpre, hlength⟩
      have hdrop : m.body = data.drop 5 := hpre.eq_of_length (by rw [length_drop]; omega)
      rw [PsbtMaps.bytes, hdrop, ← htake, take_append_drop]
  have hread : ∀ psbt q, (readPsbt fname data 5).2 = .ok (psbt, q) ↔ _ :=
    fun _ _ => readPsbt_eq_ok hfive
  constructor
  · intro h
    cases hr : (readPsbt fname data 5).2 with
    | error e =>
      rw [hr] at h
      cases h
    | ok result =>
      obtain ⟨psbt', pos⟩ := result
      rw [hr] at h
      dsimp only at h
      by_cases hpos : pos ≠ data.length
      · rw [if_pos hpos] at h
        cases h
      · rw [if_neg hpos] at h
        obtain rfl := Except.ok.inj h
        obtain ⟨m, hm, hpre, hq⟩ := (hread psbt' pos).mp hr
        exact ⟨not_lt.mp hlen, m, (hbytes m).mpr ⟨hpre, (not_not.mp hpos).symm.trans hq⟩, hm⟩
  · rintro ⟨-, m, hdata, hm⟩
    obtain ⟨hpre, hlength⟩ := (hbytes m).mp hdata
    rw [(hread psbt data.length).mpr ⟨m, hm, hpre, hlength⟩]
    exact if_neg (not_not.mpr rfl)

end Parsing

/-! ## What a supplied transaction does -/

section Supplied

variable {fname : Text} {i : Nat} {vout : UInt32}

/-- The `witness_utxo` of a field. -/
def witnessUtxo (fname : Text) (i : Nat) (value : Bytes) : Except Text RawOutput :=
  whole (readOutput fname) (fname ++ ": input " ++ digits i ++
    " has a malformed witness_utxo") value

variable {pin pin' : PsbtInput} {m : List PsbtField}

theorem inputField_utxo {f : PsbtField} (h : inputField fname i vout pin f = .ok pin') :
    (f.1 = [0x01] ∧ ∃ o, witnessUtxo fname i f.2 = .ok o ∧ pin'.utxo = some o) ∨
    (f.1 = [0x00] ∧ ∃ prev o, parseTx f.2 fname = .ok prev ∧
      prev.outputs[vout.toNat]? = some o ∧ pin'.utxo = some (pin.utxo.getD o)) ∨
    (f.1 ≠ [0x01] ∧ f.1 ≠ [0x00] ∧ pin'.utxo = pin.utxo) := by
  unfold inputField at h
  split at h
  · rename_i value
    obtain ⟨o, ho, h⟩ := Except.bind_eq_ok.mp h
    obtain rfl := Except.ok.inj h
    exact .inl ⟨rfl, o, ho, rfl⟩
  · rename_i value
    obtain ⟨prev, hprev, h⟩ := Except.bind_eq_ok.mp h
    cases ho : prev.outputs[vout.toNat]? with
    | none =>
      rw [ho] at h
      cases h
    | some o =>
      rw [ho] at h
      obtain rfl := Except.ok.inj h
      refine .inr (.inl ⟨rfl, prev, o, hprev, ho, ?_⟩)
      cases hutxo : pin.utxo with
      | none => rfl
      | some u => exact hutxo
  · obtain rfl := Except.ok.inj h
    exact .inr (.inr ⟨nofun, nofun, rfl⟩)
  · obtain rfl := Except.ok.inj h
    refine .inr (.inr ⟨nofun, nofun, ?_⟩)
    split_ifs <;> rfl
  · obtain rfl := Except.ok.inj h
    exact .inr (.inr ⟨nofun, nofun, rfl⟩)
  · obtain ⟨items, -, h⟩ := Except.bind_eq_ok.mp h
    obtain rfl := Except.ok.inj h
    exact .inr (.inr ⟨nofun, nofun, rfl⟩)
  · rename_i value
    by_cases hlen : value.length ≠ 64 ∧ value.length ≠ 65
    · rw [if_pos hlen] at h
      cases h
    · rw [if_neg hlen] at h
      obtain rfl := Except.ok.inj h
      exact .inr (.inr ⟨nofun, nofun, rfl⟩)
  · rename_i hwitness hprev _ _ _ _ _
    obtain rfl := Except.ok.inj h
    refine .inr (.inr ⟨fun he => ?_, fun he => ?_, rfl⟩)
    · exact hwitness f.2 (Prod.ext he rfl)
    · exact hprev f.2 (Prod.ext he rfl)

theorem utxo_of_known {o : RawOutput} (h : m.foldlM (inputField fname i vout) pin = .ok pin')
    (hno : [0x01] ∉ m.map Prod.fst) (hutxo : pin.utxo = some o) : pin'.utxo = some o := by
  induction m generalizing pin with
  | nil =>
    obtain rfl := Except.ok.inj h
    exact hutxo
  | cons f m ih =>
    rw [foldlM_cons] at h
    obtain ⟨pin₁, hf, hrest⟩ := Except.bind_eq_ok.mp h
    rw [map_cons, List.mem_cons, not_or] at hno
    refine ih hrest hno.2 ?_
    rcases inputField_utxo hf with ⟨hkey, -⟩ | ⟨-, prev, o', -, -, hpin⟩ | ⟨-, -, hpin⟩
    · exact absurd hkey.symm hno.1
    · rw [hpin, hutxo, Option.getD_some]
    · rw [hpin, hutxo]

theorem utxo_of_witness {value : Bytes} (h : m.foldlM (inputField fname i vout) pin = .ok pin')
    (hnodup : (m.map Prod.fst).Nodup) (hmem : ([0x01], value) ∈ m) :
    ∃ o, witnessUtxo fname i value = .ok o ∧ pin'.utxo = some o := by
  induction m generalizing pin with
  | nil => cases hmem
  | cons f m ih =>
    rw [foldlM_cons] at h
    obtain ⟨pin₁, hf, hrest⟩ := Except.bind_eq_ok.mp h
    rw [map_cons, nodup_cons] at hnodup
    rcases List.mem_cons.mp hmem with rfl | hmem
    · rcases inputField_utxo hf with ⟨-, o, ho, hpin⟩ | ⟨hkey, -⟩ | ⟨hkey, -⟩
      · exact ⟨o, ho, utxo_of_known hrest hnodup.1 hpin⟩
      · cases hkey
      · exact absurd rfl hkey
    · exact ih hrest hnodup.2 hmem

theorem utxo_of_prev {value : Bytes} (h : m.foldlM (inputField fname i vout) pin = .ok pin')
    (hnodup : (m.map Prod.fst).Nodup) (hmem : ([0x00], value) ∈ m) :
    ∃ prev o, parseTx value fname = .ok prev ∧
      prev.outputs[vout.toNat]? = some o ∧
        ([0x01] ∉ m.map Prod.fst → pin.utxo = none → pin'.utxo = some o) := by
  induction m generalizing pin with
  | nil => cases hmem
  | cons f m ih =>
    rw [foldlM_cons] at h
    obtain ⟨pin₁, hf, hrest⟩ := Except.bind_eq_ok.mp h
    rw [map_cons, nodup_cons] at hnodup
    rw [map_cons, List.mem_cons, not_or]
    rcases List.mem_cons.mp hmem with rfl | hmem
    · rcases inputField_utxo hf with ⟨hkey, -⟩ | ⟨-, prev, o, hprev, ho, hpin⟩ | ⟨-, hkey, -⟩
      · cases hkey
      · refine ⟨prev, o, hprev, ho, fun hno hnone => utxo_of_known hrest hno.2 ?_⟩
        rw [hpin, hnone, Option.getD_none]
      · exact absurd rfl hkey
    · obtain ⟨prev, o, hprev, ho, hpin'⟩ := ih hrest hnodup.2 hmem
      refine ⟨prev, o, hprev, ho, fun hno hnone => hpin' hno.2 ?_⟩
      rcases inputField_utxo hf with ⟨hkey, -⟩ | ⟨hkey, -⟩ | ⟨-, -, hpin⟩
      · exact absurd hkey.symm hno.1
      · exact absurd (mem_map.mpr ⟨_, hmem, hkey.symm⟩) hnodup.1
      · rw [hpin, hnone]

end Supplied

end Synsema.Btc
