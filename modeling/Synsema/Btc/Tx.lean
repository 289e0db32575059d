import Synsema.Abi.Types
import Synsema.Btc.Wire

/-!
# Transactions

Raw Bitcoin transactions (`synsema-stdlib/src/blockchain_btc.rs`): the parser `parse_tx`, the writer
`serialize_tx` and `txid_of`.

A transaction is written in one of two forms, without the witnesses of its inputs or with them
(`serializeAs`).  The parser accepts what is written in either form, whatever the witnesses are, up
to four million bytes (`parseTx_eq_ok`).  The writer uses the form with witnesses only where there
are any, so that it gives back what was parsed unless that came with witnesses that are all empty
(`parse_serialize`).
-/

namespace Synsema.Btc

open Text Bytesutil Reader List

def maxTxBytes : Nat := 4000000

/-- `[u8; 32]`. -/
abbrev Hash := { b : Bytes // b.length = 32 }

structure RawInput where
  prevLe : Hash
  vout : UInt32
  scriptSig : Bytes
  sequence : UInt32
  witness : List Bytes

structure RawOutput where
  amount : UInt64
  script : Bytes

structure RawTx where
  version : UInt32
  inputs : List RawInput
  outputs : List RawOutput
  locktime : UInt32

/-! ## Writing -/

/-- How many there are. -/
def writeCount {α : Type} (l : List α) : Bytes := writeVarint (.ofNat l.length)

/-- Bytes behind their length. -/
def writeBlob (b : Bytes) : Bytes := writeCount b ++ b

namespace RawInput

/-- An input without its witness. -/
def bytes (i : RawInput) : Bytes :=
  i.prevLe.1 ++ (leBytes 4 i.vout.toNat ++ (writeBlob i.scriptSig ++ leBytes 4 i.sequence.toNat))

/-- The witness of an input. -/
def witnessBytes (i : RawInput) : Bytes := writeCount i.witness ++ i.witness.flatMap writeBlob

end RawInput

/-- An output. -/
def RawOutput.bytes (o : RawOutput) : Bytes := leBytes 8 o.amount.toNat ++ writeBlob o.script

/-- A transaction in the form with witnesses or in the one without. -/
def serializeAs (witness : Bool) (tx : RawTx) : Bytes :=
  leBytes 4 tx.version.toNat ++
    ((if witness then [0, 1] else []) ++
      ((writeCount tx.inputs ++ tx.inputs.flatMap RawInput.bytes) ++
        ((writeCount tx.outputs ++ tx.outputs.flatMap RawOutput.bytes) ++
          ((if witness then tx.inputs.flatMap RawInput.witnessBytes else []) ++
            leBytes 4 tx.locktime.toNat))))

/-- Does an input have a witness? -/
def RawTx.hasWitness (tx : RawTx) : Bool := tx.inputs.any fun i => !i.witness.isEmpty

def serializeTx (tx : RawTx) (withWitness : Bool) : Bytes :=
  serializeAs (withWitness && tx.hasWitness) tx

/-- `txid_of`; SHA-256 twice is a parameter. -/
def txidOf (dsha256 : Bytes → Hash) (tx : RawTx) : Text :=
  Abi.hexEncode (dsha256 (serializeTx tx false)).1.reverse

/-! ## Parsing -/

/-- Bytes behind their length. -/
def readBlob (fname : Text) : Reader UInt8 Text Bytes := do
  let n ← readVarint fname
  readBytes n.toNat fname

/-- A number of items that stand one behind another.  More than the data can hold are refused before
there is room for them. -/
def counted {α : Type} (fname what : Text) (least : Nat) (item : Reader UInt8 Text α) (n : UInt64) :
    Reader UInt8 Text (List α) := do
  let len ← Reader.size
  if n.toNat > len / least + 1 then
    fail (fname ++ ": " ++ what ++ " count exceeds what the data can hold")
  else do
    reserve n.toNat
    item.times n.toNat

/-- An input; its witness comes behind the outputs. -/
def readInput (fname : Text) : Reader UInt8 Text RawInput := do
  let prevLe ← takeArray 32 (truncated fname)
  let vout ← readU32le fname
  let scriptSig ← readBlob fname
  let sequence ← readU32le fname
  pure { prevLe, vout, scriptSig, sequence, witness := [] }

/-- An output. -/
def readOutput (fname : Text) : Reader UInt8 Text RawOutput := do
  let amount ← readU64le fname
  let script ← readBlob fname
  pure { amount, script }

/-- The inputs. -/
def readInputs (fname : Text) : Reader UInt8 Text (List RawInput) := do
  let n ← readVarint fname
  if n = 0 then fail (fname ++ ": the transaction has no inputs")
  else counted fname "input" 41 (readInput fname) n

/-- The outputs. -/
def readOutputs (fname : Text) : Reader UInt8 Text (List RawOutput) := do
  let n ← readVarint fname
  counted fname "output" 9 (readOutput fname) n

/-- The witness of one input. -/
def readWitness (fname : Text) : Reader UInt8 Text (List Bytes) := do
  let n ← readVarint fname
  counted fname "witness item" 1 (readBlob fname) n

/-- The marker of the form with witnesses: is it there? -/
def readMarker (fname : Text) : Reader UInt8 Text Bool := do
  let first ← peek 0
  if first = some 0x00 then do
    let second ← peek 1
    if second ≠ some 0x01 then
      fail (fname ++ ": invalid segwit marker (flag must be 0x01)")
    else do
      let _ ← Reader.take 2 (truncated fname)
      pure true
  else pure false

/-- What stands behind the marker. -/
def readBody (fname : Text) (version : UInt32) (segwit : Bool) : Reader UInt8 Text RawTx := do
  let inputs ← readInputs fname
  let outputs ← readOutputs fname
  if segwit then do
    let witnesses ← (readWitness fname).times inputs.length
    let locktime ← readU32le fname
    pure {
      version
      inputs := inputs.zipWith (fun i w => { i with witness := w }) witnesses
      outputs
      locktime }
  else do
    let locktime ← readU32le fname
    pure { version, inputs, outputs, locktime }

/-- A transaction, and what may stand behind it. -/
def readTx (fname : Text) : Reader UInt8 Text RawTx := do
  let version ← readU32le fname
  let segwit ← readMarker fname
  readBody fname version segwit

/-- `parse_tx`, with what it touches and reserves. -/
def parseTxLog (data : Bytes) (fname : Text) : List Access × Except Text RawTx :=
  if data.length > maxTxBytes then
    ([], .error (fname ++ ": the transaction is over the 4 MB consensus limit — " ++
      "refusing to parse it"))
  else
    match readTx fname data 0 with
    | (log, .error e) => (log, .error e)
    | (log, .ok (tx, pos)) =>
      if pos ≠ data.length then
        (log, .error (fname ++ ": " ++ digits (data.length - pos) ++
          " trailing byte(s) after the transaction"))
      else (log, .ok tx)

def parseTx (data : Bytes) (fname : Text) : Except Text RawTx := (parseTxLog data fname).2

/-! ## The readers are exact -/

section Exact

variable {data : Bytes} (fname : Text)

/-- Some bytes whose number fits the width of a length. -/
def Fits {α : Type} (l : List α) : Prop := l.length < 2 ^ 64

variable {α : Type} {least : Nat} {tx : RawTx}

variable {l : List α} {P : α → Prop} {write : α → Bytes} {item : Reader UInt8 Text α} {what : Text}
  {q : Nat}

theorem toNat_count (h : Fits l) : (UInt64.ofNat l.length).toNat = l.length := by
  rw [UInt64.toNat_ofNat', Nat.mod_eq_of_lt h]

theorem count_eq_iff {n : UInt64} : l.length = n.toNat ↔ UInt64.ofNat l.length = n ∧ Fits l := by
  constructor
  · intro h
    refine ⟨by rw [h, UInt64.ofNat_toNat], ?_⟩
    rw [Fits, h]
    exact n.toNat_lt
  · rintro ⟨rfl, hfits⟩
    exact (toNat_count hfits).symm

theorem exact_readBlob : Exact data (readBlob fname) writeBlob Fits := by
  have h := (exact_readVarint fname : Exact data _ _ _).bind
    (f := fun n => readBytes n.toNat fname) (g := fun b : Bytes => UInt64.ofNat b.length) (w := id)
    (Q := Fits) fun n _ => (Exact.take _ _).congr (fun b => count_eq_iff) fun _ _ => rfl
  exact h.congr (fun b => iff_of_eq (true_and _)) fun b _ => rfl

theorem length_flatMap_ge (h : ∀ a, P a → least ≤ (write a).length) (hl : ∀ a ∈ l, P a) :
    l.length * least ≤ (l.flatMap write).length := by
  induction l with
  | nil => simp
  | cons a l ih =>
    obtain ⟨ha, hl⟩ := forall_mem_cons.mp hl
    rw [length_cons, flatMap_cons, length_append, Nat.add_mul, Nat.one_mul]
    have hfirst := h a ha
    have hrest := ih hl
    omega

theorem exact_counted (hitem : Exact data item write P) (hpos : 0 < least)
    (hleast : ∀ a, P a → least ≤ (write a).length) (n : UInt64) :
    Exact data (counted fname what least item n) (fun l => l.flatMap write)
      fun l => UInt64.ofNat l.length = n ∧ Fits l ∧ ∀ a ∈ l, P a := by
  refine Exact.size (Exact.congr (Exact.guard (fun _ => (hitem.times n.toNat).reserve) ?_) ?_ ?_)
  · rintro hmany l ⟨hlen, hl⟩ p hp hpre
    have hle := length_flatMap_ge hleast hl
    have := Exact.add_length_le hp hpre
    have hdiv : n.toNat ≤ data.length / least := by
      rw [Nat.le_div_iff_mul_le hpos, ← hlen]
      omega
    omega
  · exact fun l => by rw [count_eq_iff, and_assoc]
  · exact fun l _ => rfl

/-- An input that the parser can make before it has seen the witnesses. -/
def RawInput.Plain (i : RawInput) : Prop := Fits i.scriptSig ∧ i.witness = []

theorem exact_readInput : Exact data (readInput fname) RawInput.bytes RawInput.Plain := by
  have h₄ : ∀ prevLe vout script, Exact data
      (readU32le fname >>= fun sequence =>
        (pure { prevLe, vout, scriptSig := script, sequence, witness := [] } :
          Reader UInt8 Text RawInput))
      (fun i => leBytes 4 i.sequence.toNat)
      fun i => i.scriptSig = script ∧ i.vout = vout ∧ i.prevLe = prevLe ∧ i.witness = [] := by
    intro prevLe vout script
    refine (Exact.map (g := RawInput.sequence) (Q := fun i => i.scriptSig = script ∧
      i.vout = vout ∧ i.prevLe = prevLe ∧ i.witness = []) (exact_readU32le fname)
      (fun s _ ↦ ⟨rfl, rfl, rfl, rfl, rfl⟩) ?_).congr (fun _ ↦ iff_of_eq (true_and _)) fun _ _ ↦ rfl
    rintro i ⟨rfl, rfl, rfl, hw⟩ -
    rw [← hw]
  have h₃ : ∀ prevLe vout, Exact data
      (readBlob fname >>= fun script => readU32le fname >>= fun sequence =>
        (pure { prevLe, vout, scriptSig := script, sequence, witness := [] } :
          Reader UInt8 Text RawInput))
      (fun i => writeBlob i.scriptSig ++ leBytes 4 i.sequence.toNat)
      fun i => i.vout = vout ∧ i.prevLe = prevLe ∧ i.Plain := by
    intro prevLe vout
    refine (Exact.bind (g := RawInput.scriptSig) (w := fun i => leBytes 4 i.sequence.toNat)
      (Q := fun i => i.vout = vout ∧ i.prevLe = prevLe ∧ i.witness = []) (exact_readBlob fname)
      fun script _ => h₄ prevLe vout script).congr (fun i => ?_) fun _ _ => rfl
    rw [RawInput.Plain]
    tauto
  have h₂ : ∀ prevLe, Exact data
      (readU32le fname >>= fun vout => readBlob fname >>= fun script =>
        readU32le fname >>= fun sequence =>
        (pure { prevLe, vout, scriptSig := script, sequence, witness := [] } :
          Reader UInt8 Text RawInput))
      (fun i => leBytes 4 i.vout.toNat ++ (writeBlob i.scriptSig ++ leBytes 4 i.sequence.toNat))
      fun i => i.prevLe = prevLe ∧ i.Plain := by
    intro prevLe
    exact (Exact.bind (g := RawInput.vout)
      (w := fun i => writeBlob i.scriptSig ++ leBytes 4 i.sequence.toNat)
      (Q := fun i => i.prevLe = prevLe ∧ i.Plain) (exact_readU32le fname)
      fun vout _ => h₃ prevLe vout).congr (fun _ => iff_of_eq (true_and _)) fun _ _ => rfl
  exact (Exact.bind (g := RawInput.prevLe) (Q := RawInput.Plain) (Exact.takeArray 32 _)
    fun prevLe _ => h₂ prevLe).congr (fun _ => iff_of_eq (true_and _)) fun _ _ => rfl

theorem exact_readOutput :
    Exact data (readOutput fname) RawOutput.bytes fun o => Fits o.script := by
  have h₂ : ∀ amount, Exact data
      (readBlob fname >>= fun script => (pure { amount, script } : Reader UInt8 Text RawOutput))
      (fun o => writeBlob o.script) fun o => o.amount = amount ∧ Fits o.script := by
    intro amount
    refine (Exact.map (g := RawOutput.script) (Q := fun o => o.amount = amount)
      (exact_readBlob fname) (fun s _ => ⟨rfl, rfl⟩) ?_).congr (fun o => and_comm) fun _ _ => rfl
    rintro o rfl -
    rfl
  exact (Exact.bind (g := RawOutput.amount) (Q := fun o => Fits o.script) (exact_readU64le fname)
    fun amount _ => h₂ amount).congr (fun _ => iff_of_eq (true_and _)) fun _ _ => rfl

theorem length_writeVarint_pos (n : UInt64) : 0 < (writeVarint n).length := Nat.succ_pos _

theorem length_bytes_ge (i : RawInput) : 41 ≤ i.bytes.length := by
  have := length_writeVarint_pos (.ofNat i.scriptSig.length)
  simp only [RawInput.bytes, writeBlob, writeCount, length_append, length_leBytes, i.prevLe.2]
  omega

theorem length_output_ge (o : RawOutput) : 9 ≤ o.bytes.length := by
  have := length_writeVarint_pos (.ofNat o.script.length)
  simp only [RawOutput.bytes, writeBlob, writeCount, length_append, length_leBytes]
  omega

theorem length_writeBlob_pos (b : Bytes) : 1 ≤ (writeBlob b).length := by
  have := length_writeVarint_pos (.ofNat b.length)
  rw [writeBlob, writeCount, length_append]
  omega

theorem exact_list (hitem : Exact data item write P) (hpos : 0 < least)
    (hleast : ∀ a, P a → least ≤ (write a).length) :
    Exact data (readVarint fname >>= counted fname what least item)
      (fun l => writeCount l ++ l.flatMap write) fun l => Fits l ∧ ∀ a ∈ l, P a :=
  (Exact.bind (g := fun l : List α => UInt64.ofNat l.length) (Q := fun l => Fits l ∧ ∀ a ∈ l, P a)
    (exact_readVarint fname) fun n _ => exact_counted fname hitem hpos hleast n).congr
      (fun _ => iff_of_eq (true_and _)) fun _ _ => rfl

theorem exact_readOutputs :
    Exact data (readOutputs fname) (fun l => writeCount l ++ l.flatMap RawOutput.bytes)
      fun l => Fits l ∧ ∀ o ∈ l, Fits o.script :=
  exact_list fname (exact_readOutput fname) (by decide) fun o _ => length_output_ge o

theorem exact_readWitness :
    Exact data (readWitness fname) (fun w => writeCount w ++ w.flatMap writeBlob)
      fun w => Fits w ∧ ∀ b ∈ w, Fits b :=
  exact_list fname (exact_readBlob fname) (by decide) fun b _ => length_writeBlob_pos b

theorem exact_readInputs :
    Exact data (readInputs fname) (fun l => writeCount l ++ l.flatMap RawInput.bytes)
      fun l => l ≠ [] ∧ Fits l ∧ ∀ i ∈ l, i.Plain := by
  have hcounted : ∀ n, Exact data (counted fname "input" 41 (readInput fname) n)
      (fun l => l.flatMap RawInput.bytes)
      fun l => UInt64.ofNat l.length = n ∧ Fits l ∧ ∀ i ∈ l, i.Plain :=
    exact_counted fname (exact_readInput fname) (by decide) fun i _ => length_bytes_ge i
  refine (Exact.bind (g := fun l : List RawInput => UInt64.ofNat l.length)
    (Q := fun l => l ≠ [] ∧ Fits l ∧ ∀ i ∈ l, i.Plain) (exact_readVarint fname) fun n _ =>
      Exact.guard (fun hn => (hcounted n).congr (fun l => ?_) fun _ _ => rfl) ?_).congr
      (fun _ => iff_of_eq (true_and _)) fun _ _ => rfl
  · constructor
    · rintro ⟨rfl, hl⟩
      refine ⟨rfl, ?_, hl⟩
      rintro rfl
      exact hn rfl
    · rintro ⟨rfl, -, hl⟩
      exact ⟨rfl, hl⟩
  · rintro rfl l ⟨hcount, hne, hfits, -⟩ p - -
    have := toNat_count hfits
    rw [hcount] at this
    exact hne (length_eq_zero_iff.mp this.symm)

/-! ## Transactions are read where they are written -/

namespace RawInput

/-- The input without its witness. -/
def strip (i : RawInput) : RawInput := { i with witness := [] }

/-- The lengths of an input fit. -/
def Fit (i : RawInput) : Prop := Fits i.scriptSig ∧ Fits i.witness ∧ ∀ b ∈ i.witness, Fits b

theorem eq_zipWith_iff {inputs l : List RawInput} {ws : List (List Bytes)}
    (hplain : ∀ i ∈ inputs, i.Plain) (hlen : ws.length = inputs.length) :
    l.map witness = ws ∧ l.map strip = inputs ↔
      inputs.zipWith (fun i w => { i with witness := w }) ws = l := by
  induction inputs generalizing l ws with
  | nil =>
    obtain rfl := length_eq_zero_iff.mp hlen
    rw [zipWith_nil_left, map_eq_nil_iff, map_eq_nil_iff, and_self]
    exact eq_comm
  | cons i inputs ih =>
    obtain ⟨w, ws, rfl⟩ := exists_cons_of_length_eq_add_one hlen
    obtain ⟨hi, hplain⟩ := forall_mem_cons.mp hplain
    have hrest := fun l => @ih l ws hplain (Nat.succ.inj hlen)
    rw [zipWith_cons_cons]
    cases l with
    | nil => simp
    | cons j l =>
      rw [map_cons, map_cons, List.cons.injEq, List.cons.injEq, List.cons.injEq, ← hrest l]
      have hhead : j.witness = w ∧ j.strip = i ↔ { i with witness := w } = j := by
        constructor
        · rintro ⟨rfl, rfl⟩
          rfl
        · rintro rfl
          refine ⟨rfl, ?_⟩
          rw [strip, ← hi.2]
      rw [← hhead]
      tauto

end RawInput

/-- What stands behind the marker. -/
def bodyBytes (witness : Bool) (tx : RawTx) : Bytes :=
  (writeCount tx.inputs ++ tx.inputs.flatMap RawInput.bytes) ++
    ((writeCount tx.outputs ++ tx.outputs.flatMap RawOutput.bytes) ++
      ((if witness then tx.inputs.flatMap RawInput.witnessBytes else []) ++
        leBytes 4 tx.locktime.toNat))

/-- A transaction that can be read in a form: it has inputs, and lengths that fit; in the form
without witnesses it has none. -/
structure RawTx.Readable (witness : Bool) (tx : RawTx) : Prop where
  inputs : tx.inputs ≠ []
  fits : Fits tx.inputs ∧ Fits tx.outputs
  input : ∀ i ∈ tx.inputs, i.Fit
  output : ∀ o ∈ tx.outputs, Fits o.script
  plain : witness = false → ∀ i ∈ tx.inputs, i.witness = []

theorem exact_readBody (version : UInt32) (segwit : Bool) :
    Exact data (readBody fname version segwit) (bodyBytes segwit)
      fun tx => tx.version = version ∧ tx.Readable segwit := by
  cases segwit with
  | false =>
    have h₃ : ∀ inputs outputs, Exact data
        (readU32le fname >>= fun locktime =>
          (pure { version, inputs, outputs, locktime } : Reader UInt8 Text RawTx))
        (fun tx => leBytes 4 tx.locktime.toNat)
        fun tx => tx.outputs = outputs ∧ tx.inputs = inputs ∧ tx.version = version := by
      intro inputs outputs
      refine (Exact.map (g := RawTx.locktime)
        (Q := fun tx => tx.outputs = outputs ∧ tx.inputs = inputs ∧ tx.version = version)
        (exact_readU32le fname) (fun l _ => ⟨rfl, rfl, rfl, rfl⟩) ?_).congr
          (fun _ => iff_of_eq (true_and _)) fun _ _ => rfl
      rintro tx ⟨rfl, rfl, rfl⟩ -
      rfl
    have h₂ : ∀ inputs, Exact data
        (readOutputs fname >>= fun outputs => readU32le fname >>= fun locktime =>
          (pure { version, inputs, outputs, locktime } : Reader UInt8 Text RawTx))
        (fun tx => (writeCount tx.outputs ++ tx.outputs.flatMap RawOutput.bytes) ++
          leBytes 4 tx.locktime.toNat)
        fun tx => tx.inputs = inputs ∧ tx.version = version ∧ Fits tx.outputs ∧
          ∀ o ∈ tx.outputs, Fits o.script := by
      intro inputs
      refine (Exact.bind (g := RawTx.outputs) (w := fun tx => leBytes 4 tx.locktime.toNat)
        (Q := fun tx => tx.inputs = inputs ∧ tx.version = version) (exact_readOutputs fname)
        fun outputs _ => h₃ inputs outputs).congr (fun tx => ?_) fun _ _ => rfl
      tauto
    refine (Exact.bind (g := RawTx.inputs)
      (w := fun tx => (writeCount tx.outputs ++ tx.outputs.flatMap RawOutput.bytes) ++
          leBytes 4 tx.locktime.toNat)
      (Q := fun tx => tx.version = version ∧ Fits tx.outputs ∧ ∀ o ∈ tx.outputs, Fits o.script)
      (exact_readInputs fname) fun inputs _ => h₂ inputs).congr (fun tx => ?_) fun _ _ => rfl
    constructor
    · rintro ⟨⟨hne, hfits, hplain⟩, hversion, hfits', houtput⟩
      refine ⟨hversion, hne, ⟨hfits, hfits'⟩, fun i hi => ⟨(hplain i hi).1, ?_⟩, houtput,
        fun _ i hi => (hplain i hi).2⟩
      rw [(hplain i hi).2]
      exact ⟨Nat.two_pow_pos 64, fun b hb => absurd hb not_mem_nil⟩
    · rintro ⟨hversion, hne, ⟨hfits, hfits'⟩, hinput, houtput, hplain⟩
      exact ⟨⟨hne, hfits, fun i hi => ⟨(hinput i hi).1, hplain rfl i hi⟩⟩, hversion, hfits',
        houtput⟩
  | true =>
    have h₄ : ∀ (inputs : List RawInput) outputs (witnesses : List (List Bytes)),
        (∀ i ∈ inputs, i.Plain) → witnesses.length = inputs.length → Exact data
        (readU32le fname >>= fun locktime =>
          (pure {
            version
            inputs := inputs.zipWith (fun i w => { i with witness := w }) witnesses
            outputs
            locktime } : Reader UInt8 Text RawTx))
        (fun tx => leBytes 4 tx.locktime.toNat)
        fun tx => tx.inputs.map RawInput.witness = witnesses ∧
          tx.inputs.map RawInput.strip = inputs ∧ tx.outputs = outputs ∧
          tx.version = version := by
      intro inputs outputs witnesses hplain hlen
      refine (Exact.map (g := RawTx.locktime)
        (Q := fun tx => inputs.zipWith (fun i w => { i with witness := w }) witnesses =
          tx.inputs ∧ tx.outputs = outputs ∧ tx.version = version)
        (exact_readU32le fname) (fun l _ => ⟨rfl, rfl, rfl, rfl⟩) ?_).congr
          (fun tx => ?_) fun _ _ => rfl
      · rintro tx ⟨hinputs, rfl, rfl⟩ -
        rw [hinputs]
      · rw [← RawInput.eq_zipWith_iff hplain hlen]
        tauto
    have h₃ : ∀ (inputs : List RawInput) outputs, (∀ i ∈ inputs, i.Plain) → Exact data
        ((readWitness fname).times inputs.length >>= fun witnesses =>
          readU32le fname >>= fun locktime =>
          (pure {
            version
            inputs := inputs.zipWith (fun i w => { i with witness := w }) witnesses
            outputs
            locktime } : Reader UInt8 Text RawTx))
        (fun tx => tx.inputs.flatMap RawInput.witnessBytes ++ leBytes 4 tx.locktime.toNat)
        fun tx => tx.outputs = outputs ∧ tx.inputs.map RawInput.strip = inputs ∧
          tx.version = version ∧ ∀ i ∈ tx.inputs, Fits i.witness ∧ ∀ b ∈ i.witness, Fits b := by
      intro inputs outputs hplain
      refine (Exact.bind (g := fun tx : RawTx => tx.inputs.map RawInput.witness)
        (w := fun tx => leBytes 4 tx.locktime.toNat)
        (Q := fun tx => tx.inputs.map RawInput.strip = inputs ∧ tx.outputs = outputs ∧
          tx.version = version) ((exact_readWitness fname).times inputs.length)
        fun witnesses hw => h₄ inputs outputs witnesses hplain hw.1).congr
          (fun tx => ?_) fun tx _ => ?_
      · simp only [length_map, mem_map, forall_exists_index, and_imp, forall_apply_eq_imp_iff₂]
        constructor
        · rintro ⟨⟨-, hfit⟩, hstrip, houtputs, hversion⟩
          exact ⟨houtputs, hstrip, hversion, hfit⟩
        · rintro ⟨houtputs, rfl, hversion, hfit⟩
          exact ⟨⟨(length_map _).symm, hfit⟩, rfl, houtputs, hversion⟩
      · rw [flatMap_map]
        rfl
    have h₂ : ∀ inputs : List RawInput, (∀ i ∈ inputs, i.Plain) → Exact data
        (readOutputs fname >>= fun outputs =>
          (readWitness fname).times inputs.length >>= fun witnesses =>
          readU32le fname >>= fun locktime =>
          (pure {
            version
            inputs := inputs.zipWith (fun i w => { i with witness := w }) witnesses
            outputs
            locktime } : Reader UInt8 Text RawTx))
        (fun tx => (writeCount tx.outputs ++ tx.outputs.flatMap RawOutput.bytes) ++
          (tx.inputs.flatMap RawInput.witnessBytes ++ leBytes 4 tx.locktime.toNat))
        fun tx => tx.inputs.map RawInput.strip = inputs ∧ tx.version = version ∧
          (∀ i ∈ tx.inputs, Fits i.witness ∧ ∀ b ∈ i.witness, Fits b) ∧
          Fits tx.outputs ∧ ∀ o ∈ tx.outputs, Fits o.script := by
      intro inputs hplain
      refine (Exact.bind (g := RawTx.outputs)
        (w := fun tx => tx.inputs.flatMap RawInput.witnessBytes ++ leBytes 4 tx.locktime.toNat)
        (Q := fun tx => tx.inputs.map RawInput.strip = inputs ∧ tx.version = version ∧
          ∀ i ∈ tx.inputs, Fits i.witness ∧ ∀ b ∈ i.witness, Fits b) (exact_readOutputs fname)
        fun outputs _ => h₃ inputs outputs hplain).congr (fun tx => ?_) fun _ _ => rfl
      tauto
    refine (Exact.bind (g := fun tx : RawTx => tx.inputs.map RawInput.strip)
      (w := fun tx => (writeCount tx.outputs ++ tx.outputs.flatMap RawOutput.bytes) ++
          (tx.inputs.flatMap RawInput.witnessBytes ++ leBytes 4 tx.locktime.toNat))
      (Q := fun tx => tx.version = version ∧
          (∀ i ∈ tx.inputs, Fits i.witness ∧ ∀ b ∈ i.witness, Fits b) ∧
          Fits tx.outputs ∧ ∀ o ∈ tx.outputs, Fits o.script)
      (exact_readInputs fname) fun inputs hin => h₂ inputs hin.2.2).congr (fun tx => ?_)
        fun tx _ => ?_
    · simp only [ne_eq, map_eq_nil_iff, Fits, length_map, mem_map, forall_exists_index, and_imp,
        forall_apply_eq_imp_iff₂]
      constructor
      · rintro ⟨⟨hne, hfits, hplain⟩, hversion, hwitness, hfits', houtput⟩
        exact ⟨hversion, hne, ⟨hfits, hfits'⟩, fun i hi => ⟨(hplain i hi).1, hwitness i hi⟩,
          houtput, nofun⟩
      · rintro ⟨hversion, hne, ⟨hfits, hfits'⟩, hinput, houtput, -⟩
        exact ⟨⟨hne, hfits, fun i hi => ⟨(hinput i hi).1, rfl⟩⟩, hversion,
          fun i hi => (hinput i hi).2, hfits', houtput⟩
    · rw [flatMap_map, writeCount, length_map]
      rfl

/-! ## The two forms -/

/-- `segwit_flag`: the byte behind the version is no number of inputs. -/
def segwitFlag (data : Bytes) : Bool := data[4]? == some 0x00

theorem serializeAs_eq (witness : Bool) (tx : RawTx) : serializeAs witness tx =
    leBytes 4 tx.version.toNat ++ ((if witness then [0, 1] else []) ++ bodyBytes witness tx) :=
  rfl

theorem head?_bodyBytes {witness : Bool} (h : tx.Readable witness) :
    ∃ b rest, bodyBytes witness tx = b :: rest ∧ b ≠ 0 := by
  refine ⟨_, _, rfl, fun hzero => ?_⟩
  have hcount := (varintHead_eq_iff (by decide) _).mp hzero
  have := toNat_count h.fits.1
  rw [hcount] at this
  exact h.inputs (length_eq_zero_iff.mp this.symm)

theorem pair_prefix_iff {a b : UInt8} {l : Bytes} :
    [a, b] <+: l ↔ l[0]? = some a ∧ l[1]? = some b := by
  match l with
  | [] => simp
  | [c] => simp
  | c :: d :: l => simp [cons_prefix_cons, eq_comm]

theorem readMarker_eq_ok {p : Nat} {segwit : Bool} :
    (readMarker fname data p).2 = .ok (segwit, q) ↔
      if segwit then [0, 1] <+: data.drop p ∧ q = p + 2 else data[p]? ≠ some 0 ∧ q = p := by
  have hpair : [0, 1] <+: data.drop p ↔ data[p + 0]? = some 0 ∧ data[p + 1]? = some 1 := by
    rw [pair_prefix_iff, getElem?_drop, getElem?_drop]
  change ((peek 0 >>= _) data p).2 = _ ↔ _
  rw [bind_eq_ok]
  constructor
  · rintro ⟨first, p', hfirst, hrest⟩
    obtain ⟨rfl, rfl⟩ := Prod.mk.inj (Except.ok.inj hfirst)
    by_cases h₀ : data[p + 0]? = some 0
    · rw [if_pos h₀] at hrest
      obtain ⟨second, p', hsecond, hrest⟩ := bind_eq_ok.mp hrest
      obtain ⟨rfl, rfl⟩ := Prod.mk.inj (Except.ok.inj hsecond)
      by_cases h₁ : data[p + 1]? = some 1
      · rw [if_neg (not_not.mpr h₁)] at hrest
        obtain ⟨two, p', htwo, hrest⟩ := bind_eq_ok.mp hrest
        obtain ⟨rfl, rfl⟩ := Prod.mk.inj (Except.ok.inj hrest)
        have hle := (List.getElem?_eq_some_iff.mp h₁).1
        obtain ⟨hlen, -, rfl⟩ := (Exact.take 2 _ p (by omega) two p').mp htwo
        rw [if_pos rfl, id_eq, hlen]
        exact ⟨hpair.mpr ⟨h₀, h₁⟩, rfl⟩
      · rw [if_pos h₁] at hrest
        cases hrest
    · rw [if_neg h₀] at hrest
      obtain ⟨rfl, rfl⟩ := Prod.mk.inj (Except.ok.inj hrest)
      exact ⟨h₀, rfl⟩
  · intro h
    refine ⟨_, p, rfl, ?_⟩
    cases segwit with
    | false =>
      obtain ⟨h₀, rfl⟩ := h
      change data[q + 0]? ≠ some 0 at h₀
      rw [if_neg h₀]
      rfl
    | true =>
      obtain ⟨hpre, rfl⟩ := h
      obtain ⟨h₀, h₁⟩ := hpair.mp hpre
      have hle := (List.getElem?_eq_some_iff.mp h₁).1
      rw [if_pos h₀]
      refine bind_eq_ok.mpr ⟨_, p, rfl, ?_⟩
      rw [if_neg (not_not.mpr h₁)]
      exact bind_eq_ok.mpr ⟨[0, 1], p + 2, (Exact.take 2 _ p (by omega) _ _).mpr
        ⟨rfl, hpre, rfl⟩, rfl⟩

theorem readTx_eq_ok : (readTx fname data 0).2 = .ok (tx, q) ↔
    ∃ segwit, tx.Readable segwit ∧ serializeAs segwit tx <+: data ∧
      q = (serializeAs segwit tx).length := by
  have hdrop : data.drop 0 = data := rfl
  change ((readU32le fname >>= _) data 0).2 = _ ↔ _
  rw [bind_eq_ok]
  constructor
  · rintro ⟨version, p, hversion, hrest⟩
    obtain ⟨segwit, p', hmarker, hbody⟩ := bind_eq_ok.mp hrest
    obtain ⟨-, hpre, rfl⟩ := (exact_readU32le fname 0 (Nat.zero_le _) _ _).mp hversion
    have hp := Exact.add_length_le (Nat.zero_le _) hpre
    have hmark : (if segwit then [0, 1] else []) <+:
          data.drop (0 + (leBytes 4 version.toNat).length) ∧
        p' = 0 + (leBytes 4 version.toNat).length +
          (if segwit then [0, 1] else [] : Bytes).length := by
      have h := (readMarker_eq_ok fname).mp hmarker
      cases segwit with
      | false => exact ⟨List.nil_prefix, h.2⟩
      | true => exact h
    obtain ⟨hmark, rfl⟩ := hmark
    obtain ⟨⟨rfl, hread⟩, hbytes, rfl⟩ :=
      (exact_readBody fname version segwit _ (Exact.add_length_le hp hmark) tx q).mp hbody
    refine ⟨segwit, hread, ?_, ?_⟩
    · rw [serializeAs_eq, ← hdrop]
      exact Exact.append_prefix_drop.mpr ⟨hpre, Exact.append_prefix_drop.mpr ⟨hmark, hbytes⟩⟩
    · rw [serializeAs_eq, length_append, length_append, Nat.zero_add, Nat.add_assoc]
  · rintro ⟨segwit, hread, hpre, rfl⟩
    rw [serializeAs_eq, ← hdrop] at hpre
    obtain ⟨hversion, hpre⟩ := Exact.append_prefix_drop.mp hpre
    obtain ⟨hmark, hbody⟩ := Exact.append_prefix_drop.mp hpre
    have hp := Exact.add_length_le (Nat.zero_le _) hversion
    refine ⟨tx.version, _, (exact_readU32le fname 0 (Nat.zero_le _) _ _).mpr
      ⟨trivial, hversion, rfl⟩, ?_⟩
    refine bind_eq_ok.mpr ⟨segwit, _, (readMarker_eq_ok fname).mpr ?_,
      (exact_readBody fname tx.version segwit _ (Exact.add_length_le hp hmark) tx _).mpr
        ⟨⟨rfl, hread⟩, hbody, ?_⟩⟩
    · cases segwit with
      | true => exact ⟨hmark, rfl⟩
      | false =>
        refine ⟨fun hzero => ?_, rfl⟩
        obtain ⟨b, rest, hb, hne⟩ := head?_bodyBytes hread
        obtain ⟨t, ht⟩ := hbody
        have hget : (data.drop (0 + (leBytes 4 tx.version.toNat).length))[0]? = some 0 := by
          rw [getElem?_drop]
          exact hzero
        change _ = data.drop (0 + (leBytes 4 tx.version.toNat).length) at ht
        rw [← ht, hb] at hget
        exact hne (Option.some.inj hget)
    · rw [serializeAs_eq, length_append, length_append, Nat.zero_add, Nat.add_assoc]

theorem parseTx_eq_ok : parseTx data fname = .ok tx ↔
    data.length ≤ maxTxBytes ∧ ∃ segwit, tx.Readable segwit ∧ data = serializeAs segwit tx := by
  rw [parseTx, parseTxLog]
  by_cases hlen : data.length > maxTxBytes
  · rw [if_pos hlen]
    exact iff_of_false nofun fun h => absurd h.1 (not_le.mpr hlen)
  · rw [if_neg hlen]
    have h := @readTx_eq_ok data fname
    revert h
    obtain ⟨log, o⟩ := readTx fname data 0
    intro h
    cases o with
    | error e =>
      refine iff_of_false nofun ?_
      rintro ⟨-, segwit, hread, hdata⟩
      have := (@h tx _).mpr ⟨segwit, hread, hdata ▸ prefix_rfl, rfl⟩
      cases this
    | ok r =>
      obtain ⟨tx', q⟩ := r
      dsimp only at h ⊢
      have hall : ∀ {tx : RawTx}, (∃ segwit, tx.Readable segwit ∧ data = serializeAs segwit tx) ↔
          tx' = tx ∧ q = data.length := by
        intro tx
        constructor
        · rintro ⟨segwit, hread, hdata⟩
          have hok := h.mpr ⟨segwit, hread, hdata ▸ prefix_rfl, rfl⟩
          obtain ⟨rfl, rfl⟩ := Prod.mk.inj (Except.ok.inj hok)
          exact ⟨rfl, by rw [← hdata]⟩
        · rintro ⟨rfl, hq⟩
          obtain ⟨segwit, hread, hpre, hlen⟩ := h.mp rfl
          exact ⟨segwit, hread, (hpre.eq_of_length (hlen.symm.trans hq)).symm⟩
      rw [hall]
      by_cases hq : q = data.length
      · rw [if_neg (not_not.mpr hq)]
        change Except.ok tx' = _ ↔ _
        rw [Except.ok.injEq]
        exact ⟨fun h => ⟨not_lt.mp hlen, h, hq⟩, fun h => h.2.1⟩
      · rw [if_pos hq]
        exact iff_of_false nofun fun h => hq h.2.2

end Exact

/-! ## What is touched -/

section Tame

variable {data : Bytes} (fname : Text)

variable {bound : Nat}

theorem tame_readBlob : Tame data bound (readBlob fname) :=
  (tame_readVarint fname).bind fun _ => .take _ _

theorem tame_counted {α : Type} {what : Text} {least : Nat} {item : Reader UInt8 Text α}
    (hitem : Tame data (data.length + 1) item) (n : UInt64) :
    Tame data (data.length + 1) (counted fname what least item n) := by
  refine Tame.size (.ite (fun _ => .fail _) fun hn => (Tame.reserve ?_).bind fun _ => hitem.times _)
  have := Nat.div_le_self data.length least
  omega

theorem tame_readInput : Tame data bound (readInput fname) :=
  (Tame.takeArray 32 _).bind fun _ => (tame_readU32le fname).bind fun _ =>
    (tame_readBlob fname).bind fun _ => (tame_readU32le fname).bind fun _ => .pure _

theorem tame_readOutput : Tame data bound (readOutput fname) :=
  (tame_readU64le fname).bind fun _ => (tame_readBlob fname).bind fun _ => .pure _

theorem tame_readBody (version : UInt32) (segwit : Bool) :
    Tame data (data.length + 1) (readBody fname version segwit) := by
  have hinputs : Tame data (data.length + 1) (readInputs fname) :=
    (tame_readVarint fname).bind fun n => .ite (fun _ => .fail _) fun _ =>
      tame_counted fname (tame_readInput fname) n
  have houtputs : Tame data (data.length + 1) (readOutputs fname) :=
    (tame_readVarint fname).bind (tame_counted fname (tame_readOutput fname))
  have hwitness : Tame data (data.length + 1) (readWitness fname) :=
    (tame_readVarint fname).bind (tame_counted fname (tame_readBlob fname))
  refine hinputs.bind fun _ => houtputs.bind fun _ => .ite (fun _ => ?_) fun _ => ?_
  · exact (hwitness.times _).bind fun _ => (tame_readU32le fname).bind fun _ => .pure _
  · exact (tame_readU32le fname).bind fun _ => .pure _

theorem tame_readTx : Tame data (data.length + 1) (readTx fname) := by
  have hmarker : Tame data (data.length + 1) (readMarker fname) :=
    (Tame.peek 0).bind fun _ => .ite (fun _ => (Tame.peek 1).bind fun _ => .ite (fun _ => .fail _)
      fun _ => (Tame.take 2 _).bind fun _ => .pure _) fun _ => .pure _
  exact (tame_readU32le fname).bind fun _ => hmarker.bind fun _ => tame_readBody fname _ _

theorem within_parseTxLog {c : Access} (hc : c ∈ (parseTxLog data fname).1) :
    Within data (data.length + 1) c := by
  have h : c ∈ (readTx fname data 0).1 → Within data (data.length + 1) c :=
    (tame_readTx fname 0 (Nat.zero_le _)).1 c
  rw [parseTxLog] at hc
  by_cases hlen : data.length > maxTxBytes
  · rw [if_pos hlen] at hc
    exact absurd hc not_mem_nil
  · rw [if_neg hlen] at hc
    revert h hc
    obtain ⟨log, o⟩ := readTx fname data 0
    intro hc h
    cases o with
    | error e => exact h hc
    | ok r =>
      dsimp only at hc
      by_cases hq : r.2 ≠ data.length
      · rw [if_pos hq] at hc
        exact h hc
      · rw [if_neg hq] at hc
        exact h hc

end Tame

/-! ## Parsing and writing -/

variable {tx : RawTx}

theorem segwitFlag_serializeAs {witness : Bool} (h : tx.Readable witness) :
    segwitFlag (serializeAs witness tx) = witness := by
  have hfour : (leBytes 4 tx.version.toNat).length ≤ 4 := (length_leBytes 4 _).le
  rw [segwitFlag, serializeAs_eq, getElem?_append_right hfour, length_leBytes]
  cases witness with
  | true => rfl
  | false =>
    obtain ⟨b, rest, hb, hne⟩ := head?_bodyBytes h
    rw [if_neg Bool.false_ne_true, nil_append, hb]
    exact beq_eq_false_iff_ne.mpr fun h => hne (Option.some.inj h)

theorem RawTx.hasWitness_eq_false :
    tx.hasWitness = false ↔ ∀ i ∈ tx.inputs, i.witness = [] := by
  rw [hasWitness, any_eq_false]
  refine forall₂_congr fun i _ => ?_
  cases i.witness with
  | nil => exact iff_of_true Bool.false_ne_true rfl
  | cons b w => exact iff_of_false (not_not.mpr rfl) (cons_ne_nil _ _)

theorem length_le_flatMap {α : Type} (write : α → Bytes) {l : List α} {a : α} (ha : a ∈ l) :
    (write a).length ≤ (l.flatMap write).length := by
  obtain ⟨l₁, l₂, rfl⟩ := append_of_mem ha
  rw [flatMap_append, flatMap_cons, length_append, length_append]
  omega

theorem readable_of_length (hinputs : tx.inputs ≠ [])
    (hlen : (serializeTx tx true).length ≤ maxTxBytes) : tx.Readable tx.hasWitness := by
  change (serializeAs tx.hasWitness tx).length ≤ 4000000 at hlen
  simp only [serializeAs, length_append] at hlen
  have hfits : ∀ {α : Type} {l : List α}, l.length ≤ 4000000 → Fits l := fun h =>
    lt_of_le_of_lt h (by norm_num)
  have hblob : ∀ b, b.length ≤ (writeBlob b).length := fun b => by
    rw [writeBlob, length_append]
    exact Nat.le_add_left _ _
  have hin := length_flatMap_ge (P := fun _ => True) (fun i _ => length_bytes_ge i)
    (l := tx.inputs) fun _ _ => trivial
  have hout := length_flatMap_ge (P := fun _ => True) (fun o _ => length_output_ge o)
    (l := tx.outputs) fun _ _ => trivial
  refine ⟨hinputs, ⟨hfits (by omega), hfits (by omega)⟩, fun i hi => ⟨hfits ?_, ?_⟩,
    fun o ho => hfits ?_, RawTx.hasWitness_eq_false.mp⟩
  · have hscript := hblob i.scriptSig
    have hi := length_le_flatMap RawInput.bytes hi
    simp only [RawInput.bytes, length_append] at hi
    omega
  · cases hw : tx.hasWitness with
    | false =>
      rw [RawTx.hasWitness_eq_false.mp hw i hi]
      exact ⟨hfits (Nat.zero_le _), fun b hb => absurd hb not_mem_nil⟩
    | true =>
      rw [hw, if_pos rfl, if_pos rfl] at hlen
      have hi := length_le_flatMap RawInput.witnessBytes hi
      rw [RawInput.witnessBytes, length_append] at hi
      have hitems := length_flatMap_ge (P := fun _ => True) (fun b _ => length_writeBlob_pos b)
        (l := i.witness) fun _ _ => trivial
      refine ⟨hfits (by omega), fun b hb => hfits ?_⟩
      have hb := length_le_flatMap writeBlob hb
      have := hblob b
      omega
  · have hscript := hblob o.script
    have ho := length_le_flatMap RawOutput.bytes ho
    rw [RawOutput.bytes, length_append] at ho
    omega

/-- The parser gives back every transaction with inputs that is written in at most four million
bytes.  What it accepts was written so, in the form it is in: the writer gives it back, unless it
came with witnesses of which none has an item.  No byte outside is read, and room is reserved for no
more items at a time than one more than the bytes. -/
theorem parse_serialize (dsha256 : Bytes → Hash) (fname : Text) :
    (∀ data tx, parseTx data fname = .ok tx → (segwitFlag data = true → tx.hasWitness = true) →
      serializeTx tx (segwitFlag data) = data ∧ serializeTx tx true = data ∧
        (segwitFlag data = false →
          txidOf dsha256 tx = Abi.hexEncode (dsha256 data).1.reverse)) ∧
    (∀ tx : RawTx, tx.inputs ≠ [] → (serializeTx tx true).length ≤ maxTxBytes →
      parseTx (serializeTx tx true) fname = .ok tx) ∧
    ∀ data, ∀ c ∈ (parseTxLog data fname).1, Within data (data.length + 1) c := by
  refine ⟨fun data tx hok hwitness => ?_, fun tx hinputs hlen => ?_,
    fun data c hc => within_parseTxLog fname hc⟩
  · obtain ⟨-, segwit, hread, rfl⟩ := (parseTx_eq_ok fname).mp hok
    rw [segwitFlag_serializeAs hread] at hwitness ⊢
    have hform : tx.hasWitness = segwit := by
      cases segwit with
      | true => exact hwitness rfl
      | false => exact RawTx.hasWitness_eq_false.mpr (hread.plain rfl)
    rw [txidOf, serializeTx, serializeTx, serializeTx, hform]
    cases segwit with
    | true => exact ⟨rfl, rfl, nofun⟩
    | false => exact ⟨rfl, rfl, fun _ => rfl⟩
  · exact (parseTx_eq_ok fname).mpr ⟨hlen, tx.hasWitness, readable_of_length hinputs hlen, rfl⟩

/-- A small transaction with a witness of one item. -/
def smallTx (witness : List Bytes) : RawTx where
  version := 2
  inputs := [⟨⟨replicate 32 7, rfl⟩, 0, [], 0xffffffff, witness⟩]
  outputs := [⟨1000, [0x6a]⟩]
  locktime := 0

theorem parse_serialize_small :
    serializeTx (smallTx [[1, 2]]) true = serializeAs true (smallTx [[1, 2]]) ∧
      parseTx (serializeTx (smallTx [[1, 2]]) true) "f" = .ok (smallTx [[1, 2]]) := by
  have h := parse_serialize (fun _ => ⟨replicate 32 0, rfl⟩) "f"
  have hok := h.2.1 (smallTx [[1, 2]]) (cons_ne_nil _ _) (by decide)
  exact ⟨(h.1 _ _ hok fun _ => rfl).1, hok⟩

/-- With the marker but no item of a witness, a transaction is accepted and written differently. -/
theorem not_parse_serialize : ¬ ∀ data tx fname, parseTx data fname = .ok tx →
    ∃ withWitness, serializeTx tx withWitness = data := by
  intro h
  have hok : parseTx (serializeAs true (smallTx [])) [] = .ok (smallTx []) := rfl
  obtain ⟨withWitness, hw⟩ := h _ _ _ hok
  cases withWitness with
  | false => exact absurd hw (by decide)
  | true => exact absurd hw (by decide)

end Synsema.Btc
