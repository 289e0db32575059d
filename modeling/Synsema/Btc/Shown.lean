import Mathlib.Algebra.Order.BigOperators.Group.List
import Synsema.Btc.Accounted
import Synsema.Btc.PsbtMaps

/-!
# What is shown of a partially signed transaction

`psbt_decode` of what `psbt_encode` has made of a plan shows everything that is in the plan, as long
as it takes at most four million bytes, which are all that is parsed (`shows_plan`).  The sums of a
plan wrap around in the decoder just as they did when the plan was checked, so that the fee is the
declared one.

Of any other text the amount of an input is the one in the transaction that is supplied for it, if
no `witness_utxo` stands beside it with another; that this transaction has the id of the input is
not looked at.  The fee is exact as long as no sum leaves 63 bits (`shows_psbt`).
-/

namespace Synsema.Btc

open Text Bytesutil Reader List

variable {σ : Type} {c : Crypto σ} {w : AddrWriter} {fname : Text}

/-! ## Addresses are written as they were -/

/-- What `bech32` and `bs58` have read they write again; `bech32` writes small letters. -/
structure Codec (c : Crypto σ) (w : AddrWriter) : Prop where
  segwit : ∀ {s hrp v program}, c.segwitDecode s = .ok (hrp, v, program) → v = 0 ∨ v = 1 →
    w.segwitEncode (toAsciiLowercase hrp) v program = .ok (toAsciiLowercase s)
  base58 : ∀ {s b}, c.base58Decode s = some b → w.base58Encode b = s

/-- Is an address for `bech32`? -/
def isSegwit (s : Text) : Bool :=
  ["bc1", "tb1", "bcrt1"].any fun p => startsWith p.toList (toAsciiLowercase s)

/-- An address, as it is written. -/
def written (s : Text) : Text := if isSegwit s then toAsciiLowercase s else s

/-- The length of a program. -/
def AddrKind.programLength : AddrKind → Nat
  | p2pkh | p2sh | p2wpkh => 20
  | p2wsh | p2tr => 32

/-- The version of a witness program. -/
def AddrKind.version : AddrKind → UInt8
  | p2tr => 1
  | _ => 0

variable {kind : AddrKind} {what : Text} {os : List RawOutput} {m fields : List PsbtField}
  {ms : List (List PsbtField)}

theorem witnessKind_ok {v : UInt8} {n : Nat} (h : witnessKind fname v n = .ok kind) :
    (kind = .p2wpkh ∨ kind = .p2wsh ∨ kind = .p2tr) ∧ v = kind.version ∧
      n = kind.programLength := by
  rw [witnessKind] at h
  by_cases h₀ : v = 0
  · rw [if_pos h₀] at h
    by_cases h₂₀ : n = 20
    · rw [if_pos h₂₀] at h
      obtain rfl := Except.ok.inj h
      exact ⟨.inl rfl, h₀, h₂₀⟩
    · rw [if_neg h₂₀] at h
      by_cases h₃₂ : n = 32
      · rw [if_pos h₃₂] at h
        obtain rfl := Except.ok.inj h
        exact ⟨.inr (.inl rfl), h₀, h₃₂⟩
      · rw [if_neg h₃₂] at h
        cases h
  · rw [if_neg h₀] at h
    by_cases h₁ : v = 1
    · rw [if_pos h₁] at h
      by_cases h₃₂ : n = 32
      · rw [if_pos h₃₂] at h
        obtain rfl := Except.ok.inj h
        exact ⟨.inr (.inr rfl), h₁, h₃₂⟩
      · rw [if_neg h₃₂] at h
        cases h
    · rw [if_neg h₁] at h
      cases h

variable {s : Text} {dec : DecodedAddr} {pins : List PsbtInput} {i : Nat} {raws : List RawInput}
  {pin : PsbtInput}

theorem base58checkDecode_ok {payload : Bytes} (h : base58checkDecode c s = .ok payload) :
    c.base58Decode s = some (payload ++ (dsha256 c payload).1.take 4) := by
  rw [base58checkDecode] at h
  cases hs : c.base58Decode s with
  | none =>
    rw [hs] at h
    cases h
  | some full =>
    rw [hs] at h
    dsimp only at h
    by_cases hlen : full.length < 5
    · rw [if_pos hlen] at h
      cases h
    · rw [if_neg hlen] at h
      by_cases hsum : (dsha256 c (full.take (full.length - 4))).1.take 4 ≠
          full.drop (full.length - 4)
      · rw [if_pos hsum] at h
        cases h
      · rw [if_neg hsum] at h
        obtain rfl := Except.ok.inj h
        rw [not_not.mp hsum, take_append_drop]

/-- The label of the addresses of a network. -/
def Network.label : Network → Text
  | mainnet => "mainnet"
  | testnet | signet => "testnet"
  | regtest => "regtest"

theorem checkNetwork_ok {network : Network} (h : checkNetwork dec network what fname = .ok ()) :
    dec.netLabel = network.label ∨
      dec.base58 ∧ dec.netLabel = "testnet" ∧ network = .regtest := by
  unfold checkNetwork at h
  by_cases hl : dec.netLabel = network.label
  · exact .inl hl
  · have hne : (dec.netLabel == network.label) = false := beq_eq_false_iff_ne.mpr hl
    right
    cases network with
    | regtest =>
      by_cases ht : (dec.base58 && dec.netLabel == "testnet") = true
      · obtain ⟨hbase, hl⟩ := Bool.and_eq_true_iff.mp ht
        exact ⟨hbase, beq_iff_eq.mp hl, rfl⟩
      · dsimp only [Network.label] at h hne
        rw [hne, Bool.false_or, if_neg ht] at h
        cases h
    | _ =>
      dsimp only [Network.label] at h hne
      rw [hne] at h
      cases h

/-- The prefixes of segwit addresses and their labels. -/
def hrpLabels : List (Text × Text) :=
  [("bc", "mainnet"), ("tb", "testnet"),
    ("bcrt", "regtest")]

/-- The versions of base58 addresses, their kinds and their labels. -/
def versionLabels : List (UInt8 × AddrKind × Text) :=
  [(0x00, .p2pkh, "mainnet"), (0x05, .p2sh, "mainnet"),
    (0x6f, .p2pkh, "testnet"), (0xc4, .p2sh, "testnet")]

theorem hrp_of_label (network : Network) :
    ∀ e ∈ hrpLabels, e.2 = network.label → network.hrp = e.1 := by
  cases network <;> decide

theorem version_of_label (network : Network) : ∀ e ∈ versionLabels,
    e.2.2 = network.label ∨ e.2.2 = "testnet" ∧ network = .regtest →
      e.2.1 = .p2pkh ∧ network.p2pkhVersion = e.1 ∨ e.2.1 = .p2sh ∧ network.p2shVersion = e.1 := by
  cases network <;> decide

theorem decodeAddress_ok (h : decodeAddress c s fname = .ok dec) :
    (isSegwit s = true ∧ dec.base58 = false ∧ ∃ hrp v,
      c.segwitDecode s = .ok (hrp, v, dec.program) ∧
      witnessKind fname v dec.program.length = .ok dec.kind ∧
      (toAsciiLowercase hrp, dec.netLabel) ∈ hrpLabels) ∨
    (isSegwit s = false ∧ dec.program.length = 20 ∧ ∃ v,
      base58checkDecode c s = .ok (v :: dec.program) ∧
      (v, dec.kind, dec.netLabel) ∈ versionLabels) := by
  unfold decodeAddress at h
  dsimp only at h
  by_cases hseg : (["bc1", "tb1", "bcrt1"].any fun p =>
      startsWith p.toList (toAsciiLowercase s)) = true
  · left
    rw [if_pos hseg] at h
    cases hs : c.segwitDecode s with
    | error e =>
      rw [hs] at h
      cases h
    | ok r =>
      obtain ⟨hrp, v, program⟩ := r
      rw [hs] at h
      dsimp only at h
      have hmade : ∀ {label}, (witnessKind fname v program.length >>= fun kind =>
          .ok ⟨kind, program, label, false⟩) = .ok dec →
          witnessKind fname v dec.program.length = .ok dec.kind ∧ dec.program = program ∧
            dec.netLabel = label ∧ dec.base58 = false := by
        intro label h
        obtain ⟨kind, hkind, h⟩ := Except.bind_eq_ok.mp h
        obtain rfl := Except.ok.inj h
        exact ⟨hkind, rfl, rfl, rfl⟩
      by_cases hbc : toAsciiLowercase hrp = "bc"
      · rw [if_pos hbc] at h
        obtain ⟨hkind, rfl, hlabel, hbase⟩ := hmade h
        refine ⟨hseg, hbase, hrp, v, rfl, hkind, ?_⟩
        rw [hbc, hlabel]
        exact mem_cons_self
      rw [if_neg hbc] at h
      by_cases htb : toAsciiLowercase hrp = "tb"
      · rw [if_pos htb] at h
        obtain ⟨hkind, rfl, hlabel, hbase⟩ := hmade h
        refine ⟨hseg, hbase, hrp, v, rfl, hkind, ?_⟩
        rw [htb, hlabel]
        exact mem_cons_of_mem _ mem_cons_self
      rw [if_neg htb] at h
      by_cases hbcrt : toAsciiLowercase hrp = "bcrt"
      · rw [if_pos hbcrt] at h
        obtain ⟨hkind, rfl, hlabel, hbase⟩ := hmade h
        refine ⟨hseg, hbase, hrp, v, rfl, hkind, ?_⟩
        rw [hbcrt, hlabel]
        exact mem_cons_of_mem _ (mem_cons_of_mem _ mem_cons_self)
      · rw [if_neg hbcrt] at h
        cases h
  · right
    rw [if_neg hseg] at h
    cases hs : base58checkDecode c s with
    | error e =>
      rw [hs] at h
      cases h
    | ok payload =>
      rw [hs] at h
      dsimp only at h
      by_cases hlen : payload.length ≠ 21
      · rw [if_pos hlen] at h
        cases h
      · rw [if_neg hlen] at h
        obtain ⟨v, program, rfl⟩ :=
          exists_cons_of_length_eq_add_one (not_not.mp hlen)
        have hprogram : program.length = 20 := Nat.succ.inj (not_not.mp hlen)
        refine ⟨Bool.eq_false_iff.mpr hseg, ?_⟩
        simp only [headD_cons, drop_succ_cons, drop_zero] at h
        split at h
        all_goals first
          | obtain rfl := Except.ok.inj h
            exact ⟨hprogram, _, rfl, by simp [versionLabels]⟩
          | cases h

theorem classifyScript_scriptPubkeyOf {program : Bytes} (h : program.length = kind.programLength) :
    classifyScript (scriptPubkeyOf kind program) = some (kind, program) := by
  cases kind <;>
    simp only [AddrKind.programLength] at h <;>
    simp [classifyScript, scriptPubkeyOf, h]

theorem classifyScript_of_decode (h : decodeAddress c s fname = .ok dec) :
    classifyScript (scriptPubkeyOf dec.kind dec.program) = some (dec.kind, dec.program) := by
  apply classifyScript_scriptPubkeyOf
  rcases decodeAddress_ok h with ⟨-, -, hrp, v, -, hkind, -⟩ | ⟨-, hlen, v, -, hlabel⟩
  · exact (witnessKind_ok hkind).2.2
  · have hkinds : ∀ e ∈ versionLabels, e.2.1.programLength = 20 := by decide
    exact hlen.trans (hkinds _ hlabel).symm

theorem addressOf_of_decode (hcodec : Codec c w) {fname' : Text} {network : Network}
    (h : decodeAddress c s fname = .ok dec) (hnet : checkNetwork dec network what fname' = .ok ()) :
    addressOf c w dec.kind dec.program network = .ok (written s) := by
  have hlabels := checkNetwork_ok hnet
  rcases decodeAddress_ok h with ⟨hseg, hbase, hrp, v, hs, hkind, hlabel⟩ |
    ⟨hseg, -, v, hs, hlabel⟩
  · obtain ⟨hkinds, hv, -⟩ := witnessKind_ok hkind
    have hhrp : network.hrp = toAsciiLowercase hrp := by
      refine hrp_of_label network _ hlabel (hlabels.resolve_right fun hregtest => ?_)
      exact absurd (hbase.symm.trans hregtest.1) Bool.false_ne_true
    have hencode : w.segwitEncode network.hrp dec.kind.version dec.program =
        .ok (toAsciiLowercase s) := by
      rw [hhrp, ← hv]
      refine hcodec.segwit hs ?_
      rw [hv]
      rcases hkinds with hk | hk | hk <;> rw [hk]
      · exact .inl rfl
      · exact .inl rfl
      · exact .inr rfl
    rw [written, if_pos hseg]
    rcases hkinds with hk | hk | hk <;> rw [hk] at hencode ⊢ <;>
      exact Except.mapError_eq_ok.mpr hencode
  · have hbase := hcodec.base58 (base58checkDecode_ok hs)
    rw [written, hseg]
    rcases version_of_label network _ hlabel (hlabels.imp_right And.right) with ⟨hk, hv⟩ | ⟨hk, hv⟩
    · dsimp only at hk hv
      rw [hk]
      change Except.ok (base58checkEncode c w (network.p2pkhVersion :: dec.program)) = _
      rw [hv]
      exact congrArg Except.ok hbase
    · dsimp only at hk hv
      rw [hk]
      change Except.ok (base58checkEncode c w (network.p2shVersion :: dec.program)) = _
      rw [hv]
      exact congrArg Except.ok hbase

/-! ## The maps of a plan -/

section Maps

variable {seen : List (Hash × UInt32)} {i : Nat} {inputs : List PlanInput}

variable {item : SynValue σ} {items : List (SynValue σ)} {f : PsbtField} {m : List PsbtField}
  {plan : Plan}

theorem readPlanInput_amount {network : Network} {input : PlanInput}
    (h : readPlanInput c network fname seen i item = .ok input) :
    (input.amount.toNat : Int) ≤ maxSats := by
  rw [readPlanInput] at h
  obtain ⟨m, -, h⟩ := Except.bind_eq_ok.mp h
  obtain ⟨-, -, h⟩ := Except.bind_eq_ok.mp h
  obtain ⟨txid, -, h⟩ := Except.bind_eq_ok.mp h
  obtain ⟨vout, -, h⟩ := Except.bind_eq_ok.mp h
  by_cases hseen : (txid, vout) ∈ seen
  · rw [if_pos hseen] at h
    cases h
  · rw [if_neg hseen] at h
    obtain ⟨amount, hamount, h⟩ := Except.bind_eq_ok.mp h
    obtain ⟨address, -, h⟩ := Except.bind_eq_ok.mp h
    obtain ⟨dec, -, h⟩ := Except.bind_eq_ok.mp h
    obtain ⟨-, -, h⟩ := Except.bind_eq_ok.mp h
    obtain ⟨pubkey, -, h⟩ := Except.bind_eq_ok.mp h
    obtain rfl := Except.ok.inj h
    obtain ⟨n, -, -, -, hmax⟩ := satsField_ok Int.one_nonneg (amountField_ok hamount)
    exact hmax

theorem readPlanInputs_amount {network : Network}
    (h : readPlanInputs c network fname seen i items = .ok inputs) :
    ∀ input ∈ inputs, (input.amount.toNat : Int) ≤ maxSats := by
  induction items generalizing seen i inputs with
  | nil =>
    obtain rfl := Except.ok.inj h
    exact nofun
  | cons item items ih =>
    rw [readPlanInputs] at h
    obtain ⟨input, hinput, h⟩ := Except.bind_eq_ok.mp h
    obtain ⟨inputs, hinputs, h⟩ := Except.bind_eq_ok.mp h
    obtain rfl := Except.ok.inj h
    exact forall_mem_cons.mpr ⟨readPlanInput_amount hinput, ih hinputs⟩

/-- An output pays to its address, which is one of the network. -/
def PlanOutput.Pays (c : Crypto σ) (network : Network) (fname : Text) (o : PlanOutput) : Prop :=
  (o.amount.toNat : Int) ≤ maxSats ∧ ∃ dec what, decodeAddress c o.address fname = .ok dec ∧
    checkNetwork dec network what fname = .ok () ∧ o.script = scriptPubkeyOf dec.kind dec.program

theorem readPlanOutput_pays {network : Network} {output : PlanOutput}
    (h : readPlanOutput c network fname i item = .ok output) : output.Pays c network fname := by
  rw [readPlanOutput] at h
  obtain ⟨m, -, h⟩ := Except.bind_eq_ok.mp h
  obtain ⟨-, -, h⟩ := Except.bind_eq_ok.mp h
  obtain ⟨address, -, h⟩ := Except.bind_eq_ok.mp h
  obtain ⟨dec, hdec, h⟩ := Except.bind_eq_ok.mp h
  obtain ⟨⟨⟩, hnet, h⟩ := Except.bind_eq_ok.mp h
  obtain ⟨amount, hamount, h⟩ := Except.bind_eq_ok.mp h
  by_cases hdust : amount < dec.kind.dustLimit
  · rw [if_pos hdust] at h
    cases h
  · rw [if_neg hdust] at h
    obtain rfl := Except.ok.inj h
    obtain ⟨n, -, -, -, hmax⟩ := satsField_ok Int.one_nonneg hamount
    exact ⟨hmax, dec, _, hdec, hnet, rfl⟩

theorem readPlanOutputs_pays {network : Network} {outputs : List PlanOutput}
    (h : readPlanOutputs c network fname i items = .ok outputs) :
    ∀ o ∈ outputs, o.Pays c network fname := by
  induction items generalizing i outputs with
  | nil =>
    obtain rfl := Except.ok.inj h
    exact nofun
  | cons item items ih =>
    rw [readPlanOutputs] at h
    obtain ⟨output, houtput, h⟩ := Except.bind_eq_ok.mp h
    obtain ⟨outputs, houtputs, h⟩ := Except.bind_eq_ok.mp h
    obtain rfl := Except.ok.inj h
    exact forall_mem_cons.mpr ⟨readPlanOutput_pays houtput, ih houtputs⟩

theorem readPlanInputs_length {network : Network}
    (h : readPlanInputs c network fname seen i items = .ok inputs) :
    inputs.length = items.length := by
  have hamounts := congrArg List.length (readPlanInputs_ok h).2.2
  rwa [length_map, length_map] at hamounts

namespace Plan

/-- The fields that are written of a plan. -/
def maps (plan : Plan) : PsbtMaps where
  global := [([0x00], serializeTx plan.unsigned false)]
  inputs := plan.inputs.map fun i => [([0x01], (utxo i).bytes)]
  outputs := plan.outputs.map fun _ => []

theorem psbtBytes_eq (plan : Plan) : plan.psbtBytes = plan.maps.bytes := by
  rw [psbtBytes, PsbtMaps.bytes, PsbtMaps.body, maps, flatMap_map, flatMap_map]

/-- What is parsed of them. -/
def psbt (plan : Plan) : Psbt where
  tx := plan.unsigned
  inputs := plan.inputs.map fun i => { PsbtInput.empty with utxo := some (utxo i) }

theorem unsigned_plain (plan : Plan) (i : RawInput) (hi : i ∈ plan.unsigned.inputs) :
    i.scriptSig = [] ∧ i.witness = [] := by
  obtain ⟨input, -, rfl⟩ := mem_map.mp hi
  exact ⟨rfl, rfl⟩

theorem globalTx_maps {plan : Plan} (hin : plan.inputs ≠ [])
    (hlen : (serializeTx plan.unsigned false).length ≤ maxTxBytes) :
    globalTx fname plan.maps.global = .ok plan.unsigned := by
  have hplain : plan.unsigned.hasWitness = false :=
    RawTx.hasWitness_eq_false.mpr fun i hi => (unsigned_plain plan i hi).2
  have hform : serializeTx plan.unsigned true = serializeTx plan.unsigned false := by
    rw [serializeTx, serializeTx, hplain]
    rfl
  have hinputs : plan.unsigned.inputs ≠ [] := fun h => hin (map_eq_nil_iff.mp h)
  have hread := readable_of_length hinputs (hform ▸ hlen)
  have hparse : parseTx (serializeTx plan.unsigned false) fname = .ok plan.unsigned :=
    (parseTx_eq_ok fname).mpr ⟨hlen, _, hread, by rw [hplain]; rfl⟩
  have hunsigned : ¬ (plan.unsigned.inputs.any fun i =>
      !i.scriptSig.isEmpty || !i.witness.isEmpty) = true := by
    rw [any_eq_true]
    rintro ⟨i, hi, h⟩
    obtain ⟨hscript, hwitness⟩ := unsigned_plain plan i hi
    rw [hscript, hwitness] at h
    cases h
  have hfield : globalField fname none ([0x00], serializeTx plan.unsigned false) =
      .ok (some plan.unsigned) := by
    refine Except.bind_eq_ok.mpr ⟨_, hparse, ?_⟩
    rw [if_neg hunsigned]
  refine Except.bind_eq_ok.mpr ⟨some plan.unsigned, ?_, rfl⟩
  rw [maps, foldlM_cons]
  exact Except.bind_eq_ok.mpr ⟨_, hfield, rfl⟩

end Plan

theorem witnessUtxo_bytes {o : RawOutput} (h : Fits o.script) (i : Nat) :
    witnessUtxo fname i o.bytes = .ok o := by
  have hread : (readOutput fname o.bytes 0).2 = .ok (o, 0 + o.bytes.length) :=
    (exact_readOutput fname 0 (Nat.zero_le _) o _).mpr ⟨h, prefix_rfl, rfl⟩
  rw [witnessUtxo, whole, hread, Nat.zero_add]
  exact if_neg (not_not.mpr rfl)

theorem length_le_writeBlob (b : Bytes) : b.length ≤ (writeBlob b).length := by
  rw [writeBlob, length_append]
  exact Nat.le_add_left _ _

theorem length_le_mapBytes (h : f ∈ m) : f.2.length ≤ (mapBytes m).length := by
  have hfield := length_le_flatMap fieldBytes h
  have hvalue := length_le_writeBlob f.2
  rw [mapBytes, length_append]
  rw [fieldBytes, length_append] at hfield
  omega

theorem Plan.length_value (hf : f ∈ m) (hm : m = plan.maps.global ∨ m ∈ plan.maps.inputs) :
    f.2.length ≤ plan.psbtBytes.length := by
  have hvalue := length_le_mapBytes hf
  rw [plan.psbtBytes_eq, PsbtMaps.bytes, PsbtMaps.body, length_append, length_append, length_append]
  rcases hm with rfl | hm
  · omega
  · have := length_le_flatMap mapBytes hm
    omega

theorem inputsRead_utxo (i : Nat) (raw : PlanInput → RawInput)
    (h : ∀ i ∈ inputs, Fits (Plan.utxo i).script) :
    InputsRead fname i (inputs.map raw) (inputs.map fun i => [([0x01], (Plan.utxo i).bytes)])
      (inputs.map fun i => { PsbtInput.empty with utxo := some (Plan.utxo i) }) := by
  induction inputs generalizing i with
  | nil => trivial
  | cons input inputs ih =>
    obtain ⟨hfits, hrest⟩ := forall_mem_cons.mp h
    refine ⟨?_, ih (i + 1) hrest⟩
    rw [inputFields, foldlM_cons]
    refine Except.bind_eq_ok.mpr ⟨_, ?_, rfl⟩
    exact Except.bind_eq_ok.mpr ⟨_, witnessUtxo_bytes hfits i, rfl⟩

theorem Plan.read_maps (hin : plan.inputs ≠ []) (hlen : plan.psbtBytes.length ≤ maxTxBytes) :
    plan.maps.Read fname plan.psbt := by
  have hfits : ∀ {α : Type} {l : List α}, l.length ≤ plan.psbtBytes.length → Fits l := by
    intro α l h
    exact lt_of_le_of_lt (h.trans hlen) (by decide)
  have hone : ∀ f : PsbtField, FieldOk f → MapOk [f] := fun f hf =>
    ⟨forall_mem_singleton.mpr hf, nodup_singleton _⟩
  have hkey : ∀ b : UInt8, [b] ≠ [] ∧ Fits [b] := fun b =>
    ⟨cons_ne_nil _ _, Nat.one_lt_two_pow (by decide)⟩
  have hinput : ∀ m ∈ plan.maps.inputs, ∃ i ∈ plan.inputs, m = [([0x01], (utxo i).bytes)] := by
    intro m hm
    obtain ⟨i, hi, rfl⟩ := mem_map.mp hm
    exact ⟨i, hi, rfl⟩
  refine ⟨?_, fun m hm => ?_, fun m hm => ?_, ?_, ?_, ?_⟩
  · refine hone _ ⟨(hkey 0).1, (hkey 0).2, hfits ?_⟩
    exact length_value mem_cons_self (.inl rfl)
  · obtain ⟨i, -, rfl⟩ := hinput m hm
    refine hone _ ⟨(hkey 1).1, (hkey 1).2, hfits ?_⟩
    exact length_value mem_cons_self (.inr hm)
  · obtain ⟨o, -, rfl⟩ := mem_map.mp hm
    exact ⟨nofun, nodup_nil⟩
  · exact globalTx_maps hin ((length_value mem_cons_self (.inl rfl)).trans hlen)
  · refine inputsRead_utxo 0 _ fun i hi => hfits ?_
    have hvalue : (utxo i).bytes.length ≤ plan.psbtBytes.length :=
      length_value mem_cons_self (.inr (mem_map.mpr ⟨i, hi, rfl⟩))
    have hscript := length_le_writeBlob (utxo i).script
    rw [RawOutput.bytes, length_append] at hvalue
    omega
  · exact (length_map _).trans (length_map _).symm

end Maps

/-! ## Sums -/

theorem totalIn_eq_some {t : UInt64} : totalIn pins = some t ↔
    ∃ os : List RawOutput, pins.map PsbtInput.utxo = os.map some ∧
      t = (os.map RawOutput.amount).sum := by
  have hfold : ∀ (x : Option UInt64), pins.foldl
      (fun t pin => pin.utxo.bind fun o => t.map (· + o.amount)) x = some t ↔
      ∃ a, ∃ os : List RawOutput, x = some a ∧ pins.map PsbtInput.utxo = os.map some ∧
        t = a + (os.map RawOutput.amount).sum := by
    induction pins with
    | nil =>
      intro x
      constructor
      · rintro rfl
        exact ⟨t, [], rfl, rfl, (UInt64.add_zero t).symm⟩
      · rintro ⟨a, os, rfl, hos, rfl⟩
        obtain rfl := map_eq_nil_iff.mp hos.symm
        exact congrArg some (UInt64.add_zero a).symm
    | cons pin pins ih =>
      intro x
      rw [foldl_cons, ih]
      constructor
      · rintro ⟨a, os, ha, hos, rfl⟩
        obtain ⟨o, ho, ha⟩ := Option.bind_eq_some_iff.mp ha
        obtain ⟨b, rfl, rfl⟩ := Option.map_eq_some_iff.mp ha
        refine ⟨b, o :: os, rfl, ?_, ?_⟩
        · rw [map_cons, map_cons, ho, hos]
        · rw [map_cons, sum_cons, UInt64.add_assoc]
      · rintro ⟨a, os, rfl, hos, rfl⟩
        cases os with
        | nil => cases hos
        | cons o os =>
          rw [map_cons, map_cons, List.cons.injEq] at hos
          refine ⟨a + o.amount, os, ?_, hos.2, ?_⟩
          · rw [hos.1]
            rfl
          · rw [map_cons, sum_cons, UInt64.add_assoc]
  rw [totalIn, hfold]
  constructor
  · rintro ⟨a, os, ⟨⟩, hos, rfl⟩
    exact ⟨os, hos, UInt64.zero_add _⟩
  · rintro ⟨os, hos, rfl⟩
    exact ⟨0, os, rfl, hos, (UInt64.zero_add _).symm⟩

/-- The exact sum of the amounts of some outputs. -/
def exactSum (os : List RawOutput) : Nat := (os.map fun o => o.amount.toNat).sum

theorem le_exactSum {o : RawOutput} (h : o ∈ os) : o.amount.toNat ≤ exactSum os :=
  le_sum_of_mem (mem_map.mpr ⟨o, h, rfl⟩)

theorem toNat_sum_of_lt (h : exactSum os < 2 ^ 64) :
    (os.map RawOutput.amount).sum.toNat = exactSum os :=
  (toNat_sum RawOutput.amount os).trans (Nat.mod_eq_of_lt h)

theorem asI64_of_lt {n : UInt64} (h : n.toNat < 2 ^ 63) : asI64 n = n.toNat :=
  BitVec.toInt_eq_toNat_of_lt (by
    change 2 * n.toNat < 2 ^ 64
    omega)

/-! ## Showing -/

section Showing

variable {network : Network} {psbt : Psbt} {shown : Shown}

theorem shown_of_showPsbt (h : showPsbt c w network fname psbt = .ok shown) :
    shown.inputs = psbt.tx.inputs.zipWith (shownInput c w network) psbt.inputs ∧
      shown.outputs = psbt.tx.outputs.map (shownOutput c w network) ∧
      shown.locktime = psbt.tx.locktime.toNat ∧
      shown.fee = (totalIn psbt.inputs).map (fun tin => asI64 (tin - totalOut psbt.tx)) ∧
      ∀ tin, totalIn psbt.inputs = some tin → totalOut psbt.tx ≤ tin := by
  unfold showPsbt at h
  dsimp only at h
  cases htin : totalIn psbt.inputs with
  | none =>
    rw [htin] at h
    obtain rfl := Except.ok.inj h
    exact ⟨rfl, rfl, rfl, rfl, nofun⟩
  | some tin =>
    rw [htin] at h
    dsimp only at h
    by_cases hlt : tin < totalOut psbt.tx
    · rw [if_pos hlt] at h
      cases h
    · rw [if_neg hlt] at h
      obtain rfl := Except.ok.inj h
      refine ⟨rfl, rfl, rfl, rfl, ?_⟩
      rintro tin' ⟨⟩
      exact UInt64.not_lt.mp hlt

theorem showPsbt_ok {tin : UInt64} (htin : totalIn psbt.inputs = some tin)
    (h : totalOut psbt.tx ≤ tin) : ∃ shown, showPsbt c w network fname psbt = .ok shown := by
  unfold showPsbt
  rw [htin]
  dsimp only
  rw [if_neg (UInt64.not_lt.mpr h)]
  exact ⟨_, rfl⟩

theorem psbtDecode_eq_ok {b64Error : Text → Text} {text : Text} :
    psbtDecode c w network b64Error text = .ok shown ↔ ∃ data psbt,
      b64Decode (trim text) = some data ∧ parsePsbtBytes "psbt_decode" data = .ok psbt ∧
        showPsbt c w network "psbt_decode" psbt = .ok shown := by
  rw [psbtDecode, Except.bind_eq_ok]
  dsimp only [parsePsbt]
  cases b64Decode (trim text) with
  | none =>
    constructor
    · rintro ⟨psbt, ⟨⟩, -⟩
    · rintro ⟨data, psbt, ⟨⟩, -⟩
  | some data =>
    constructor
    · rintro ⟨psbt, hpsbt, hshow⟩
      exact ⟨data, psbt, rfl, hpsbt, hshow⟩
    · rintro ⟨_, psbt, ⟨⟩, hpsbt, hshow⟩
      exact ⟨psbt, hpsbt, hshow⟩

end Showing

/-! ## What is shown of a plan -/

/-- Everything that is in the plan is shown as it is there. -/
structure ShowsPlan (plan : Plan) (shown : Shown) : Prop where
  inputs : Forall₂ (fun i s => s.txid = Abi.hexEncode i.txidDisplay.1 ∧
    s.vout = i.vout.toNat ∧ s.amount = some (i.amount.toNat : Int)) plan.inputs shown.inputs
  outputs : Forall₂ (fun o s => s.amount = o.amount.toNat ∧
    s.address = some (written o.address)) plan.outputs shown.outputs
  locktime : shown.locktime = plan.locktime.toNat
  fee : shown.fee = some (plan.fee.toNat : Int)

theorem Plan.totalIn_psbt (plan : Plan) :
    Btc.totalIn plan.psbt.inputs = some (plan.inputs.map PlanInput.amount).sum := by
  refine totalIn_eq_some.mpr ⟨plan.inputs.map utxo, ?_, ?_⟩
  · rw [psbt, map_map, map_map]
    rfl
  · rw [map_map]
    rfl

theorem Plan.totalOut_psbt (plan : Plan) :
    Btc.totalOut plan.psbt.tx = (plan.outputs.map PlanOutput.amount).sum := by
  rw [Btc.totalOut, psbt, unsigned, map_map]
  rfl

theorem feeField_le {v : Option (SynValue σ)} {fee : UInt64} (h : feeField v fname = .ok fee) :
    (fee.toNat : Int) ≤ maxSats := by
  cases v with
  | none => cases h
  | some v =>
    obtain ⟨n, -, -, -, hmax⟩ := satsField_ok le_rfl h
    exact hmax

theorem shows_plan (hcodec : Codec c w) {params : SynMap σ} {plan : Plan}
    (h : buildPlan c params fname = .ok plan) (hlen : plan.psbtBytes.length ≤ maxTxBytes)
    (b64Error : Text → Text) : ∃ shown,
      psbtDecode c w plan.network b64Error plan.psbtEncode = .ok shown ∧ ShowsPlan plan shown := by
  obtain ⟨ins, outs, hbuilt⟩ := built_of_buildPlan h
  obtain ⟨-, hsum, -⟩ := balance_eq_ok.mp hbuilt.balance
  have hin : plan.inputs ≠ [] := by
    intro hnil
    have hlength := readPlanInputs_length hbuilt.inputs
    rw [hnil] at hlength
    rw [length_eq_zero_iff.mp hlength.symm] at hbuilt
    cases hbuilt.inList.2
  -- the sums have wrapped around, as they had when the plan was checked
  have htin : (plan.inputs.map PlanInput.amount).sum.toNat =
      (plan.outputs.map PlanOutput.amount).sum.toNat + plan.fee.toNat := by
    rw [toNat_sum, toNat_sum]
    exact hsum
  have hle : totalOut plan.psbt.tx ≤ (plan.inputs.map PlanInput.amount).sum := by
    rw [plan.totalOut_psbt, UInt64.le_iff_toNat_le]
    omega
  obtain ⟨shown, hshow⟩ : ∃ shown, showPsbt c w plan.network "psbt_decode" plan.psbt =
      .ok shown := showPsbt_ok plan.totalIn_psbt hle
  refine ⟨shown, psbtDecode_eq_ok.mpr ⟨plan.psbtBytes, plan.psbt, ?_, ?_, hshow⟩, ?_⟩
  · rw [Plan.psbtEncode, trim_b64Encode, b64Decode_b64Encode]
  · exact parsePsbtBytes_eq_ok.mpr ⟨hlen, plan.maps, plan.psbtBytes_eq, Plan.read_maps hin hlen⟩
  obtain ⟨hinputs, houtputs, hlocktime, hfee, -⟩ := shown_of_showPsbt hshow
  have hmax : ∀ {n : UInt64}, (n.toNat : Int) ≤ maxSats → asI64 n = n.toNat := by
    intro n hn
    have hsats : maxSats = 2100000000000000 := rfl
    exact asI64_of_lt (by omega)
  have hamounts := readPlanInputs_amount hbuilt.inputs
  have hpays := readPlanOutputs_pays hbuilt.outputs
  have hfeemax : (plan.fee.toNat : Int) ≤ maxSats := feeField_le hbuilt.fee
  refine ⟨?_, ?_, hlocktime, ?_⟩
  · rw [hinputs, Plan.psbt, Plan.unsigned, zipWith_map, zipWith_self, forall₂_map_right_iff,
      forall₂_same]
    intro i hi
    refine ⟨?_, rfl, ?_⟩
    · exact congrArg Abi.hexEncode (reverse_reverse i.txidDisplay.1)
    · exact congrArg some (hmax (hamounts i hi))
  · rw [houtputs, Plan.psbt, Plan.unsigned, map_map, forall₂_map_right_iff, forall₂_same]
    intro o ho
    obtain ⟨hsats, dec, what, hdec, hnet, hscript⟩ := hpays o ho
    refine ⟨hmax hsats, ?_⟩
    change (shownScript c w plan.network o.script).2 = _
    rw [shownScript, hscript, classifyScript_of_decode hdec]
    exact congrArg Except.toOption (addressOf_of_decode hcodec hdec hnet)
  · have hdiff : (plan.inputs.map PlanInput.amount).sum - totalOut plan.psbt.tx = plan.fee := by
      have hlt := (plan.inputs.map PlanInput.amount).sum.toNat_lt
      rw [plan.totalOut_psbt, UInt64.sub_eq_iff_eq_add, ← UInt64.toNat_inj, UInt64.toNat_add, htin,
        Nat.mod_eq_of_lt (by omega), Nat.add_comm]
    rw [hfee, plan.totalIn_psbt, Option.map_some, hdiff, hmax hfeemax]

/-! ## What is shown of any other -/

/-- A field of the `j`-th input. -/
def PsbtMaps.HasField (m : PsbtMaps) (j : Nat) (key value : Bytes) : Prop :=
  ∃ fields, m.inputs[j]? = some fields ∧ (key, value) ∈ fields

/-- What is shown is the transaction that is signed: the amount of an input is the one in the
transaction that is supplied for it, unless a `witness_utxo` differs, and the fee is exact. -/
structure ShowsPsbt (fname : Text) (m : PsbtMaps) (psbt : Psbt) (shown : Shown) : Prop where
  outputs : shown.outputs.length = psbt.tx.outputs.length
  inputs : Forall₂ (fun i s => s.txid = Abi.hexEncode i.prevLe.1.reverse ∧
    s.vout = i.vout.toNat) psbt.tx.inputs shown.inputs
  supplied : ∀ j raw value, psbt.tx.inputs[j]? = some raw → m.HasField j [0x00] value →
    ∃ prev o, parseTx value fname = .ok prev ∧ prev.outputs[raw.vout.toNat]? = some o ∧
      ((∀ v, m.HasField j [0x01] v → witnessUtxo fname j v = .ok o) →
        (shown.inputs[j]?.bind ShownInput.amount) = some (asI64 o.amount))
  fee : ∀ f, shown.fee = some f → ∃ ins : List RawOutput,
    psbt.inputs.map PsbtInput.utxo = ins.map some ∧
      (exactSum ins < 2 ^ 63 → exactSum psbt.tx.outputs < 2 ^ 64 →
        shown.inputs.map ShownInput.amount = ins.map (fun o => some (o.amount.toNat : Int)) ∧
        shown.outputs.map ShownOutput.amount =
          psbt.tx.outputs.map (fun o => (o.amount.toNat : Int)) ∧
        f = (exactSum ins : Int) - exactSum psbt.tx.outputs ∧ 0 ≤ f)

theorem InputsRead.get {j : Nat} (h : InputsRead fname i raws ms pins) {raw : RawInput}
    (hraw : raws[j]? = some raw) (hm : ms[j]? = some m) :
    ∃ pin, pins[j]? = some pin ∧ inputFields fname (i + j) raw.vout m = .ok pin := by
  induction raws generalizing i j ms pins with
  | nil => cases hraw
  | cons raw' raws ih =>
    match ms, pins, h with
    | m' :: ms, pin :: pins, ⟨hpin, hrest⟩ =>
      cases j with
      | zero =>
        cases hraw
        cases hm
        exact ⟨pin, rfl, hpin⟩
      | succ j =>
        obtain ⟨pin', hget, hfields⟩ := ih hrest hraw hm
        refine ⟨pin', hget, ?_⟩
        rwa [Nat.add_right_comm] at hfields

theorem InputsRead.length (h : InputsRead fname i raws ms pins) : pins.length = raws.length := by
  induction raws generalizing i ms pins with
  | nil =>
    match ms, pins, h with
    | [], [], _ => rfl
  | cons raw raws ih =>
    match ms, pins, h with
    | m :: ms, pin :: pins, ⟨_, hrest⟩ => exact congrArg (· + 1) (ih hrest)

theorem utxo_of_supplied {vout : UInt32} {value : Bytes} (hm : MapOk m)
    (h : inputFields fname i vout m = .ok pin) (hmem : ([0x00], value) ∈ m) :
    ∃ prev o, parseTx value fname = .ok prev ∧
      prev.outputs[vout.toNat]? = some o ∧
        ((∀ v, ([0x01], v) ∈ m → witnessUtxo fname i v = .ok o) → pin.utxo = some o) := by
  obtain ⟨prev, o, hprev, ho, hutxo⟩ := utxo_of_prev h hm.nodup hmem
  refine ⟨prev, o, hprev, ho, fun hagree => ?_⟩
  by_cases hwitness : [0x01] ∈ m.map Prod.fst
  · obtain ⟨f, hf, hkey⟩ := mem_map.mp hwitness
    have hf : ([0x01], f.2) ∈ m := hkey ▸ hf
    obtain ⟨o', ho', hutxo'⟩ := utxo_of_witness h hm.nodup hf
    obtain rfl := Except.ok.inj (ho'.symm.trans (hagree f.2 hf))
    exact hutxo'
  · exact hutxo hwitness rfl

theorem zipWith_map_amount {network : Network} (h : pins.length = raws.length) :
    (raws.zipWith (shownInput c w network) pins).map ShownInput.amount =
      pins.map fun pin => pin.utxo.map fun o => asI64 o.amount := by
  induction raws generalizing pins with
  | nil =>
    obtain rfl := length_eq_zero_iff.mp h
    rfl
  | cons raw raws ih =>
    obtain ⟨pin, pins, rfl⟩ := exists_cons_of_length_eq_add_one h
    rw [zipWith_cons_cons, map_cons, map_cons, ih (Nat.succ.inj h)]
    rfl

theorem shows_psbt {network : Network} {m : PsbtMaps} {psbt : Psbt} {shown : Shown}
    (hread : m.Read fname psbt) (h : showPsbt c w network fname psbt = .ok shown) :
    ShowsPsbt fname m psbt shown := by
  obtain ⟨hinputs, houtputs, -, hfee, hfund⟩ := shown_of_showPsbt h
  have hlength := hread.inputsRead.length
  refine ⟨?_, ?_, fun j raw value hraw hvalue => ?_, fun f hf => ?_⟩
  · rw [houtputs, length_map]
  · rw [hinputs, forall₂_iff_get]
    refine ⟨?_, fun i hi hs => ?_⟩
    · rw [length_zipWith, hlength, min_self]
    · simp only [get_eq_getElem, getElem_zipWith]
      exact ⟨rfl, rfl⟩
  · obtain ⟨fields, hfields, hmem⟩ := hvalue
    obtain ⟨pin, hpin, hfold⟩ := hread.inputsRead.get hraw hfields
    rw [Nat.zero_add] at hfold
    have hok := hread.inputs fields (mem_of_getElem? hfields)
    obtain ⟨prev, o, hprev, ho, hutxo⟩ := utxo_of_supplied hok hfold hmem
    refine ⟨prev, o, hprev, ho, fun hagree => ?_⟩
    have hknown := hutxo fun v hv => hagree v ⟨fields, hfields, hv⟩
    rw [hinputs, getElem?_zipWith, hraw, hpin]
    change pin.utxo.map _ = _
    rw [hknown]
    rfl
  · rw [hfee] at hf
    obtain ⟨tin, htin, rfl⟩ := Option.map_eq_some_iff.mp hf
    obtain ⟨ins, hins, rfl⟩ := totalIn_eq_some.mp htin
    refine ⟨ins, hins, fun hin hout => ?_⟩
    have hle := UInt64.le_iff_toNat_le.mp (hfund _ htin)
    have hint := toNat_sum_of_lt (hin.trans (by norm_num))
    have houtt : (totalOut psbt.tx).toNat = exactSum psbt.tx.outputs := toNat_sum_of_lt hout
    rw [houtt, hint] at hle
    have hdiff : ((ins.map RawOutput.amount).sum - totalOut psbt.tx).toNat =
        exactSum ins - exactSum psbt.tx.outputs := by
      rw [UInt64.toNat_sub_of_le _ _ (hfund _ htin), hint, houtt]
    have hexact : ∀ {os : List RawOutput}, exactSum os < 2 ^ 63 → ∀ o ∈ os,
        asI64 o.amount = o.amount.toNat := fun hos o ho =>
      asI64_of_lt (lt_of_le_of_lt (le_exactSum ho) hos)
    refine ⟨?_, ?_, ?_, ?_⟩
    · have hknown := congrArg (List.map (Option.map fun o : RawOutput => asI64 o.amount)) hins
      rw [map_map, map_map] at hknown
      rw [hinputs, zipWith_map_amount hlength]
      exact hknown.trans (map_congr_left fun o ho => congrArg some (hexact hin o ho))
    · rw [houtputs, map_map]
      exact map_congr_left fun o ho => hexact (lt_of_le_of_lt hle hin) o ho
    · rw [asI64_of_lt (by omega), hdiff]
      omega
    · rw [asI64_of_lt (by omega)]
      exact Int.natCast_nonneg _

/-- The writer of that address. -/
def sampleWriter : AddrWriter where
  segwitEncode _ _ _ := .ok sampleAddress
  base58Encode _ := []

/-- The address is accepted in capitals, too. -/
def capitalCrypto : Crypto Unit :=
  { sampleCrypto with
    segwitDecode := fun s => if s = sampleAddress ∨ s = toAsciiUppercase sampleAddress then
      .ok ("bc", 1, sampleProgram) else .error "invalid" }

theorem codec_sample : Codec sampleCrypto sampleWriter ∧ Codec capitalCrypto sampleWriter := by
  have hsmall : toAsciiLowercase sampleAddress = sampleAddress ∧
      toAsciiLowercase (toAsciiUppercase sampleAddress) = sampleAddress := by decide
  constructor
  · refine ⟨fun {s hrp v program} hs _ => ?_, nofun⟩
    by_cases h : s = sampleAddress
    · rw [h]
      exact congrArg Except.ok hsmall.1.symm
    · rw [sampleCrypto] at hs
      dsimp only at hs
      rw [if_neg h] at hs
      cases hs
  · refine ⟨fun {s hrp v program} hs _ => ?_, nofun⟩
    by_cases h : s = sampleAddress ∨ s = toAsciiUppercase sampleAddress
    · rcases h with rfl | rfl
      · exact congrArg Except.ok hsmall.1.symm
      · exact congrArg Except.ok hsmall.2.symm
    · rw [capitalCrypto] at hs
      dsimp only at hs
      rw [if_neg h] at hs
      cases hs

/-- A partially signed `smallTx`, with some fields for its input. -/
def smallMaps (fields : List PsbtField) : PsbtMaps where
  global := [([0x00], serializeTx (smallTx []) false)]
  inputs := [fields]
  outputs := [[]]

/-- The input that is parsed of them. -/
def smallPsbt (pin : PsbtInput) : Psbt := ⟨smallTx [], [pin]⟩

/-- Two fields that tell the output. -/
def utxoField (sats : UInt64) : PsbtField := ([0x01], (⟨sats, [0x6a]⟩ : RawOutput).bytes)
def prevField : PsbtField := ([0x00], serializeTx (smallTx []) false)

/-- Fields that can be written. -/
def SmallFields (fields : List PsbtField) : Prop :=
  (∀ f ∈ fields, f.1 ≠ [] ∧ f.1.length < 256 ∧ f.2.length < 256) ∧ (fields.map Prod.fst).Nodup

instance (fields : List PsbtField) : Decidable (SmallFields fields) :=
  inferInstanceAs (Decidable (_ ∧ _))

theorem parseTx_small : parseTx (serializeTx (smallTx []) false) fname = .ok (smallTx []) :=
  (parseTx_eq_ok fname).mpr ⟨by decide, false,
    @readable_of_length (smallTx []) (cons_ne_nil _ _) (by decide), rfl⟩

theorem read_small (hok : SmallFields fields) (hpin : inputFields fname 0 0 fields = .ok pin) :
    (smallMaps fields).Read fname (smallPsbt pin) := by
  have hfits : ∀ {l : Bytes}, l.length < 256 → Fits l := fun h => h.trans (by norm_num)
  refine ⟨⟨?_, nodup_singleton _⟩, ?_, ?_, ?_, ⟨hpin, trivial⟩, rfl⟩
  · exact forall_mem_singleton.mpr
      ⟨cons_ne_nil _ _, hfits (by decide), hfits (by decide)⟩
  · refine forall_mem_singleton.mpr ⟨fun f hf => ?_, hok.2⟩
    obtain ⟨hne, hkey, hvalue⟩ := hok.1 f hf
    exact ⟨hne, hfits hkey, hfits hvalue⟩
  · exact forall_mem_singleton.mpr ⟨nofun, nodup_nil⟩
  · refine Except.bind_eq_ok.mpr ⟨some (smallTx []), ?_, rfl⟩
    rw [smallMaps, foldlM_cons]
    exact Except.bind_eq_ok.mpr ⟨_, Except.bind_eq_ok.mpr ⟨_, parseTx_small, rfl⟩, rfl⟩

/-- The text of such a transaction. -/
def smallText (fields : List PsbtField) : Text := b64Encode (smallMaps fields).bytes

theorem decode_smallText (fields : List PsbtField) :
    b64Decode (trim (smallText fields)) = some (smallMaps fields).bytes := by
  rw [smallText, trim_b64Encode, b64Decode_b64Encode]

theorem psbtDecode_smallText {shown : Shown} (hok : SmallFields fields)
    (hpin : inputFields "psbt_decode" 0 0 fields = .ok pin)
    (hlen : (smallMaps fields).bytes.length ≤ maxTxBytes)
    (hshow : showPsbt c w .mainnet "psbt_decode" (smallPsbt pin) = .ok shown) :
    psbtDecode c w .mainnet id (smallText fields) = .ok shown :=
  psbtDecode_eq_ok.mpr ⟨_, _, decode_smallText fields,
    parsePsbtBytes_eq_ok.mpr ⟨hlen, _, rfl, read_small hok hpin⟩, hshow⟩

theorem length_psbtBytes_ge (plan : Plan) : plan.inputs.length * 41 ≤ plan.psbtBytes.length := by
  have hvalue : (serializeTx plan.unsigned false).length ≤ plan.psbtBytes.length :=
    Plan.length_value mem_cons_self (.inl rfl)
  have hinputs := length_flatMap_ge (P := fun _ => True) (fun i _ => length_bytes_ge i)
    (l := plan.unsigned.inputs) fun _ _ => trivial
  rw [Plan.unsigned, length_map] at hinputs
  rw [serializeTx, serializeAs] at hvalue
  simp only [length_append] at hvalue
  rw [Plan.unsigned] at hvalue
  omega

/-- A payment to the address in capitals. -/
def capitalParams : SynMap Unit :=
  [("inputs", .list [coin 50000 0]),
    ("outputs", .list [.map [("address", .text (toAsciiUppercase sampleAddress)),
      ("amount", .number (.int 49000))]]),
    ("fee", .number (.int 1000))]

def capitalPlan : Plan :=
  { samplePlan [coinInput 50000 0] 49000 with
    outputs := [⟨49000, toAsciiUppercase sampleAddress, .p2tr, 0x51 :: 0x20 :: sampleProgram⟩] }

theorem length_coins (n : Nat) (u v : UInt64) :
    (samplePlan ((List.range' 0 n).map (coinInput u)) v).inputs.length = n :=
  (length_map _).trans length_range'

theorem too_many_inputs : ¬ ∀ (params : SynMap Unit) (plan : Plan),
    buildPlan sampleCrypto params "psbt_encode" = .ok plan → ∃ shown,
      psbtDecode sampleCrypto sampleWriter plan.network id plan.psbtEncode = .ok shown := by
  intro h
  have hin := totalIn_coins 100000 1 99000
  have hout : ∀ inputs, (samplePlan inputs 99000).totalOut = 99000 := fun _ => rfl
  have hbalance : balance "psbt_encode"
      (samplePlan ((List.range' 0 100000).map (coinInput 1)) 99000) =
      .ok (samplePlan ((List.range' 0 100000).map (coinInput 1)) 99000) :=
    balance_eq_ok.mpr ⟨rfl, by rw [hin, hout]; rfl, fun _ => by rw [hout]; decide⟩
  have hamount : amountIs "psbt_encode" 1 1 := fun _ => rfl
  have hplan := buildPlan_coins (b := 99000) (v := 99000) hamount (by norm_num) (by norm_num) rfl
    rfl hbalance
  obtain ⟨shown, hshown⟩ := h _ _ hplan
  obtain ⟨data, psbt, hdata, hparse, -⟩ := psbtDecode_eq_ok.mp hshown
  rw [Plan.psbtEncode, trim_b64Encode, b64Decode_b64Encode] at hdata
  obtain rfl := Option.some.inj hdata
  have hle := (parsePsbtBytes_eq_ok.mp hparse).1.trans' (length_psbtBytes_ge _)
  rw [length_coins] at hle
  exact absurd hle (by norm_num [maxTxBytes])

theorem capitals_shown_small : ¬ ∀ (params : SynMap Unit) (plan : Plan) (shown : Shown),
    buildPlan capitalCrypto params "psbt_encode" = .ok plan →
      psbtDecode capitalCrypto sampleWriter plan.network id plan.psbtEncode = .ok shown →
        shown.outputs.map ShownOutput.address = plan.outputs.map fun o => some o.address := by
  intro h
  have hplan : buildPlan capitalCrypto capitalParams "psbt_encode" = .ok capitalPlan := rfl
  obtain ⟨shown, hdecode, hshown⟩ := shows_plan codec_sample.2 hplan (by decide +kernel) id
  have houts := h _ _ _ hplan hdecode
  have hfirst := hshown.outputs
  cases ho : shown.outputs with
  | nil =>
    rw [ho] at hfirst
    cases hfirst
  | cons o os =>
    rw [ho] at hfirst houts
    have hsmall := (forall₂_cons.mp hfirst).1.2
    rw [map_cons, hsmall] at houts
    exact absurd (cons.inj houts).1 (by decide)

theorem any_supplied : ¬ ∀ (text : Text) (shown : Shown) (m : PsbtMaps) (psbt : Psbt),
    psbtDecode sampleCrypto sampleWriter .mainnet id text = .ok shown →
      b64Decode (trim text) = some m.bytes → m.Read "psbt_decode" psbt →
      ∀ j raw value prev, psbt.tx.inputs[j]? = some raw → m.HasField j [0x00] value →
        parseTx value "psbt_decode" = .ok prev →
          txidOf (dsha256 sampleCrypto) prev = Abi.hexEncode raw.prevLe.1.reverse := by
  intro h
  have hok : SmallFields [prevField] := by decide
  have htxid := h (smallText [prevField]) _ (smallMaps [prevField]) _
    (psbtDecode_smallText hok rfl (by decide +kernel) rfl) (decode_smallText _) (read_small hok rfl)
    0 _ _ _ rfl ⟨_, rfl, mem_cons_self⟩ parseTx_small
  exact absurd htxid (by decide)

theorem any_witness : ¬ ∀ (text : Text) (shown : Shown) (m : PsbtMaps) (psbt : Psbt),
    psbtDecode sampleCrypto sampleWriter .mainnet id text = .ok shown →
      b64Decode (trim text) = some m.bytes → m.Read "psbt_decode" psbt →
      ∀ j raw value prev v, psbt.tx.inputs[j]? = some raw → m.HasField j [0x00] value →
        parseTx value "psbt_decode" = .ok prev → m.HasField j [0x01] v →
          ∃ o, prev.outputs[raw.vout.toNat]? = some o ∧
            witnessUtxo "psbt_decode" j v = .ok o := by
  intro h
  have hok : SmallFields [utxoField 2000, prevField] := by decide
  obtain ⟨o, ho, hwitness⟩ := h (smallText [utxoField 2000, prevField]) _
    (smallMaps [utxoField 2000, prevField]) _ (psbtDecode_smallText hok rfl (by decide +kernel) rfl)
    (decode_smallText _) (read_small hok rfl) 0 _ _ _ _ rfl
    ⟨_, rfl, mem_cons_of_mem _ mem_cons_self⟩ parseTx_small ⟨_, rfl, mem_cons_self⟩
  have hread : witnessUtxo "psbt_decode" 0 (utxoField 2000).2 = .ok ⟨2000, [0x6a]⟩ := rfl
  obtain rfl := Except.ok.inj (hread.symm.trans hwitness)
  have hamount := congrArg RawOutput.amount (Option.some.inj ho)
  exact absurd hamount (by decide)

theorem negative_fee : ¬ ∀ (text : Text) (shown : Shown) f,
    psbtDecode sampleCrypto sampleWriter .mainnet id text = .ok shown →
      shown.fee = some f → 0 ≤ f := by
  intro h
  have hok : SmallFields [utxoField 9223372036854776808] := by decide
  have hpin : inputFields "psbt_decode" 0 0 [utxoField 9223372036854776808] =
      .ok { PsbtInput.empty with utxo := some ⟨9223372036854776808, [0x6a]⟩ } := rfl
  have hfunded : totalOut (smallTx []) ≤ 9223372036854776808 := by decide
  have htin : totalIn [{ PsbtInput.empty with utxo := some ⟨9223372036854776808, [0x6a]⟩ }] =
      some 9223372036854776808 := rfl
  obtain ⟨shown, hshow⟩ : ∃ shown, showPsbt sampleCrypto sampleWriter .mainnet
      "psbt_decode" (smallPsbt { PsbtInput.empty with
        utxo := some ⟨9223372036854776808, [0x6a]⟩ }) = .ok shown := showPsbt_ok htin hfunded
  have hfee := h (smallText [utxoField 9223372036854776808]) shown _
    (psbtDecode_smallText hok hpin (by decide) hshow) (shown_of_showPsbt hshow).2.2.2.1
  exact absurd hfee (by decide)

end Synsema.Btc
