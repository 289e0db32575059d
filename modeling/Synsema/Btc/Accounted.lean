import Synsema.Btc.Plan

/-!
# Every satoshi

When the plan of a transaction accounts for every satoshi.  Each amount of an accepted plan is the
one declared in its parameters, so the sums that `build_plan` compares are the declared ones, modulo
`2 ^ 64` on each side.
-/

namespace Synsema.Btc

open Text Bytesutil List
open Except (bind_eq_ok)

variable {σ : Type} {c : Crypto σ} {fname : Text}

/-! ## What is declared -/

/-- The amount that an input or an output declares. -/
def declaredAmount : SynValue σ → Nat
  | .map m =>
    match m.lookup "amount".toList with
    | some (.number n) => ((toI64 n).getD 0).toNat
    | _ => 0
  | _ => 0

/-- The amounts that the inputs or the outputs declare. -/
def declared (params : SynMap σ) (key : Text) : List Nat :=
  match params.lookup key with
  | some (.list l) => l.map declaredAmount
  | _ => []

variable {what : Text} {sats : UInt64} {plan : Plan}

theorem satsField_ok {v : Option (SynValue σ)} {min : Int} (hmin : 0 ≤ min)
    (h : satsField v what fname min = .ok sats) :
    ∃ n, v = some (.number n) ∧ sats.toNat = ((toI64 n).getD 0).toNat ∧
      min ≤ sats.toNat ∧ (sats.toNat : Int) ≤ maxSats := by
  match v, h with
  | some (.number n), h =>
    rw [satsField] at h
    by_cases hint : (!isInteger n) = true
    · rw [if_pos hint] at h
      cases h
    · rw [if_neg hint] at h
      cases hn : toI64 n with
      | none =>
        rw [hn] at h
        cases h
      | some i =>
        rw [hn] at h
        dsimp only at h
        by_cases hbounds : i < min ∨ i > maxSats
        · rw [if_pos hbounds] at h
          cases h
        · rw [if_neg hbounds] at h
          obtain rfl := Except.ok.inj h
          have hlarge : maxSats = 2100000000000000 := rfl
          have hnat : (UInt64.ofNat i.toNat).toNat = i.toNat := by
            rw [UInt64.toNat_ofNat', Nat.mod_eq_of_lt]
            omega
          refine ⟨n, rfl, ?_⟩
          rw [hnat, hn, Option.getD_some]
          omega
  | some (.text _), h | some (.bool _), h | some .nothing, h | some (.bytes _), h
  | some (.secret _), h | some (.list _), h | some (.map _), h | some (.other _), h | none, h =>
    cases h

variable {m params : SynMap σ}

theorem declaredAmount_eq (h : satsField (m.lookup "amount".toList) what fname 1 = .ok sats) :
    sats.toNat = declaredAmount (.map m) := by
  obtain ⟨n, hn, hsats, -⟩ := satsField_ok Int.one_nonneg h
  rw [hsats, declaredAmount, hn]

theorem mapOf_ok {v : SynValue σ} (h : mapOf v what fname = .ok m) : v = .map m := by
  cases v with
  | map m' => rw [Except.ok.inj h]
  | _ => cases h

theorem listOf_ok {v : Option (SynValue σ)} {l : List (SynValue σ)}
    (h : listOf v what fname = .ok l) : v = some (.list l) := by
  match v, h with
  | some (.list l'), h => rw [Except.ok.inj h]
  | some (.text _), h | some (.bool _), h | some .nothing, h | some (.bytes _), h
  | some (.secret _), h | some (.number _), h | some (.map _), h | some (.other _), h | none, h =>
    cases h

theorem amountField_ok {v : Option (SynValue σ)} (h : amountField fname v what = .ok sats) :
    satsField v (what ++ ".amount") fname 1 = .ok sats := by
  cases v with
  | none => cases h
  | some v => exact h

/-! ## What is accepted -/

section Accepted

variable {network : Network}

variable {i : Nat}

variable {item : SynValue σ} {seen : List (Hash × UInt32)} {items : List (SynValue σ)}

theorem readPlanInput_ok {input : PlanInput}
    (h : readPlanInput c network fname seen i item = .ok input) :
    input.outpoint ∉ seen ∧ input.amount.toNat = declaredAmount item := by
  rw [readPlanInput] at h
  obtain ⟨m, hm, h⟩ := bind_eq_ok.mp h
  obtain ⟨-, -, h⟩ := bind_eq_ok.mp h
  obtain ⟨txid, -, h⟩ := bind_eq_ok.mp h
  obtain ⟨vout, -, h⟩ := bind_eq_ok.mp h
  by_cases hseen : (txid, vout) ∈ seen
  · rw [if_pos hseen] at h
    cases h
  · rw [if_neg hseen] at h
    obtain ⟨amount, hamount, h⟩ := bind_eq_ok.mp h
    obtain ⟨address, -, h⟩ := bind_eq_ok.mp h
    obtain ⟨dec, -, h⟩ := bind_eq_ok.mp h
    obtain ⟨-, -, h⟩ := bind_eq_ok.mp h
    obtain ⟨pubkey, -, h⟩ := bind_eq_ok.mp h
    obtain rfl := Except.ok.inj h
    obtain rfl := mapOf_ok hm
    exact ⟨hseen, declaredAmount_eq (amountField_ok hamount)⟩

theorem readPlanInputs_ok {inputs : List PlanInput}
    (h : readPlanInputs c network fname seen i items = .ok inputs) :
    (inputs.map PlanInput.outpoint).Nodup ∧ (∀ input ∈ inputs, input.outpoint ∉ seen) ∧
      (inputs.map fun input => input.amount.toNat) = items.map declaredAmount := by
  induction items generalizing seen i inputs with
  | nil =>
    obtain rfl := Except.ok.inj h
    exact ⟨nodup_nil, fun _ h => absurd h not_mem_nil, rfl⟩
  | cons item items ih =>
    rw [readPlanInputs] at h
    obtain ⟨input, hinput, h⟩ := bind_eq_ok.mp h
    obtain ⟨inputs, hinputs, h⟩ := bind_eq_ok.mp h
    obtain rfl := Except.ok.inj h
    obtain ⟨hnew, hamount⟩ := readPlanInput_ok hinput
    obtain ⟨hnodup, hseen, hamounts⟩ := ih hinputs
    refine ⟨nodup_cons.mpr ⟨fun hmem => ?_, hnodup⟩, forall_mem_cons.mpr ⟨hnew, ?_⟩, ?_⟩
    · obtain ⟨other, hother, he⟩ := mem_map.mp hmem
      exact hseen other hother (he ▸ mem_cons_self)
    · exact fun other hother hmem => hseen other hother (mem_cons_of_mem _ hmem)
    · rw [map_cons, map_cons, hamount, hamounts]

/-- An output that is accepted is worth relaying. -/
def PlanOutput.Accepted (c : Crypto σ) (fname : Text) (o : PlanOutput) : Prop :=
  ∃ dec, decodeAddress c o.address fname = .ok dec ∧ o.kind = dec.kind ∧
    dec.kind.dustLimit ≤ o.amount ∧ (o.amount.toNat : Int) ≤ maxSats

theorem readPlanOutput_ok {output : PlanOutput}
    (h : readPlanOutput c network fname i item = .ok output) :
    output.Accepted c fname ∧ output.amount.toNat = declaredAmount item := by
  rw [readPlanOutput] at h
  obtain ⟨m, hm, h⟩ := bind_eq_ok.mp h
  obtain ⟨-, -, h⟩ := bind_eq_ok.mp h
  obtain ⟨address, -, h⟩ := bind_eq_ok.mp h
  obtain ⟨dec, hdec, h⟩ := bind_eq_ok.mp h
  obtain ⟨-, -, h⟩ := bind_eq_ok.mp h
  obtain ⟨amount, hamount, h⟩ := bind_eq_ok.mp h
  by_cases hdust : amount < dec.kind.dustLimit
  · rw [if_pos hdust] at h
    cases h
  · rw [if_neg hdust] at h
    obtain rfl := Except.ok.inj h
    obtain rfl := mapOf_ok hm
    obtain ⟨n, -, -, -, hmax⟩ := satsField_ok Int.one_nonneg hamount
    exact ⟨⟨dec, hdec, rfl, UInt64.not_lt.mp hdust, hmax⟩, declaredAmount_eq hamount⟩

theorem readPlanOutputs_ok {outputs : List PlanOutput}
    (h : readPlanOutputs c network fname i items = .ok outputs) :
    (∀ o ∈ outputs, o.Accepted c fname) ∧
      (outputs.map fun o => o.amount.toNat) = items.map declaredAmount := by
  induction items generalizing i outputs with
  | nil =>
    obtain rfl := Except.ok.inj h
    exact ⟨fun _ h => absurd h not_mem_nil, rfl⟩
  | cons item items ih =>
    rw [readPlanOutputs] at h
    obtain ⟨output, houtput, h⟩ := bind_eq_ok.mp h
    obtain ⟨outputs, houtputs, h⟩ := bind_eq_ok.mp h
    obtain rfl := Except.ok.inj h
    obtain ⟨haccepted, hamount⟩ := readPlanOutput_ok houtput
    obtain ⟨hall, hamounts⟩ := ih houtputs
    refine ⟨forall_mem_cons.mpr ⟨haccepted, hall⟩, ?_⟩
    rw [map_cons, map_cons, hamount, hamounts]

end Accepted

/-! ## The sums -/

theorem toNat_sum {α : Type} (f : α → UInt64) (l : List α) :
    (l.map f).sum.toNat = (l.map fun a => (f a).toNat).sum % 2 ^ 64 := by
  induction l with
  | nil => rfl
  | cons a l ih =>
    rw [map_cons, sum_cons, UInt64.toNat_add, ih, map_cons, sum_cons, Nat.add_mod_mod]

/-- The exact amount of the inputs. -/
def Plan.totalIn (plan : Plan) : Nat := (plan.inputs.map fun i => i.amount.toNat).sum

/-- The exact amount of the outputs. -/
def Plan.totalOut (plan : Plan) : Nat := (plan.outputs.map fun o => o.amount.toNat).sum

theorem balance_eq_ok {plan' : Plan} : balance fname plan = .ok plan' ↔
    plan' = plan ∧ plan.totalIn % 2 ^ 64 = plan.totalOut % 2 ^ 64 + plan.fee.toNat ∧
      (plan.allowAbsurdFee = false → plan.fee.toNat ≤ plan.totalOut % 2 ^ 64) := by
  have hin : (plan.inputs.map PlanInput.amount).sum.toNat = plan.totalIn % 2 ^ 64 := toNat_sum _ _
  have hout : (plan.outputs.map PlanOutput.amount).sum.toNat = plan.totalOut % 2 ^ 64 :=
    toNat_sum _ _
  have hlt := (plan.inputs.map PlanInput.amount).sum.toNat_lt
  rw [balance]
  dsimp only
  generalize (plan.inputs.map PlanInput.amount).sum = totalIn at hin hlt
  generalize (plan.outputs.map PlanOutput.amount).sum = totalOut at hout
  rw [← hin, ← hout]
  by_cases hover : totalOut.toNat + plan.fee.toNat ≥ 2 ^ 64
  · rw [if_pos hover]
    exact iff_of_false nofun fun h => by omega
  · have hspend : (totalOut + plan.fee).toNat = totalOut.toNat + plan.fee.toNat := by
      rw [UInt64.toNat_add, Nat.mod_eq_of_lt (not_le.mp hover)]
    rw [if_neg hover, ← hspend, UInt64.toNat_inj]
    by_cases hgt : totalIn > totalOut + plan.fee
    · rw [if_pos hgt]
      exact iff_of_false nofun fun h => absurd h.2.1 (UInt64.ne_of_lt hgt).symm
    · rw [if_neg hgt]
      by_cases hne : totalIn ≠ totalOut + plan.fee
      · rw [if_pos hne]
        exact iff_of_false nofun fun h => hne h.2.1
      · rw [if_neg hne, ← UInt64.le_iff_toNat_le]
        by_cases hfee : plan.fee > totalOut ∧ plan.allowAbsurdFee = false
        · rw [if_pos hfee]
          exact iff_of_false nofun fun h => absurd hfee.1 (UInt64.not_lt.mpr (h.2.2 hfee.2))
        · rw [if_neg hfee]
          refine ⟨fun h => ⟨(Except.ok.inj h).symm, not_not.mp hne, fun hallow => ?_⟩,
            fun h => by rw [h.1]⟩
          exact UInt64.not_lt.mp fun hlt => hfee ⟨hlt, hallow⟩

/-! ## Every satoshi is accounted for -/

/-- Every satoshi of the plan is accounted for, in exact integers. -/
structure Accounted (c : Crypto σ) (fname : Text) (plan : Plan) : Prop where
  balanced : plan.totalIn = plan.totalOut + plan.fee.toNat
  distinct : (plan.inputs.map PlanInput.outpoint).Nodup
  outputs : ∀ o ∈ plan.outputs, o.Accepted c fname
  fee : plan.allowAbsurdFee = false → plan.fee.toNat ≤ plan.totalOut

/-- What an accepted plan is made of. -/
structure Built (c : Crypto σ) (params : SynMap σ) (fname : Text) (plan : Plan)
    (ins outs : List (SynValue σ)) : Prop where
  inList : params.lookup "inputs".toList = some (.list ins) ∧ ins.isEmpty = false
  inputs : readPlanInputs c plan.network fname [] 0 ins = .ok plan.inputs
  outList : params.lookup "outputs".toList = some (.list outs)
  outputs : readPlanOutputs c plan.network fname 0 outs = .ok plan.outputs
  fee : feeField (params.lookup "fee".toList) fname = .ok plan.fee
  balance : balance fname plan = .ok plan

theorem built_of_buildPlan (h : buildPlan c params fname = .ok plan) :
    ∃ ins outs, Built c params fname plan ins outs := by
  rw [buildPlan] at h
  obtain ⟨-, -, h⟩ := bind_eq_ok.mp h
  obtain ⟨network, -, h⟩ := bind_eq_ok.mp h
  obtain ⟨rbf, -, h⟩ := bind_eq_ok.mp h
  obtain ⟨locktime, -, h⟩ := bind_eq_ok.mp h
  obtain ⟨allowAbsurdFee, -, h⟩ := bind_eq_ok.mp h
  obtain ⟨fee, hfee, h⟩ := bind_eq_ok.mp h
  obtain ⟨ins, hins, h⟩ := bind_eq_ok.mp h
  by_cases hin : ins.isEmpty
  · rw [if_pos hin] at h
    cases h
  · rw [if_neg hin] at h
    obtain ⟨inputs, hinputs, h⟩ := bind_eq_ok.mp h
    obtain ⟨outs, houts, h⟩ := bind_eq_ok.mp h
    by_cases hout : outs.isEmpty
    · rw [if_pos hout] at h
      cases h
    · rw [if_neg hout] at h
      obtain ⟨outputs, houtputs, h⟩ := bind_eq_ok.mp h
      obtain rfl := (balance_eq_ok.mp h).1
      exact ⟨ins, outs, ⟨listOf_ok hins, Bool.eq_false_iff.mpr hin⟩, hinputs, listOf_ok houts,
        houtputs, hfee, h⟩

theorem buildPlan_ok (h : buildPlan c params fname = .ok plan) :
    (plan.inputs.map PlanInput.outpoint).Nodup ∧ (∀ o ∈ plan.outputs, o.Accepted c fname) ∧
      plan.totalIn = (declared params "inputs").sum ∧
      plan.totalOut = (declared params "outputs").sum ∧
      feeField (params.lookup "fee".toList) fname = .ok plan.fee ∧
      plan.totalIn % 2 ^ 64 = plan.totalOut % 2 ^ 64 + plan.fee.toNat ∧
      (plan.allowAbsurdFee = false → plan.fee.toNat ≤ plan.totalOut) := by
  obtain ⟨ins, outs, hbuilt⟩ := built_of_buildPlan h
  obtain ⟨-, hsum, habsurd⟩ := balance_eq_ok.mp hbuilt.balance
  obtain ⟨hnodup, -, hins⟩ := readPlanInputs_ok hbuilt.inputs
  obtain ⟨haccepted, houts⟩ := readPlanOutputs_ok hbuilt.outputs
  refine ⟨hnodup, haccepted, ?_, ?_, hbuilt.fee, hsum,
    fun hallow => (habsurd hallow).trans (Nat.mod_le _ _)⟩
  · rw [declared, hbuilt.inList.1, Plan.totalIn, hins]
  · rw [declared, hbuilt.outList, Plan.totalOut, houts]

/-- Every satoshi of an accepted plan is accounted for just if the sums of the declared amounts of
the inputs and of the outputs have wrapped around as often. -/
theorem accounted_iff {params : SynMap σ} {plan : Plan}
    (h : buildPlan c params fname = .ok plan) : Accounted c fname plan ↔
      (declared params "inputs").sum / 2 ^ 64 =
        (declared params "outputs").sum / 2 ^ 64 := by
  obtain ⟨hnodup, haccepted, hin, hout, -, hsum, habsurd⟩ := buildPlan_ok h
  rw [← hin, ← hout]
  have hindiv := Nat.div_add_mod plan.totalIn (2 ^ 64)
  have houtdiv := Nat.div_add_mod plan.totalOut (2 ^ 64)
  constructor
  · intro hacc
    have hbal := hacc.balanced
    omega
  · intro hdiv
    exact ⟨by omega, hnodup, haccepted, habsurd⟩

/-! ## A plan that is not -/

/-- A taproot address. -/
def sampleAddress : Text := "bc1p0xlxvlhemja6c4dqv22uapctqupfhlxm9h8z3k2e72q4k9hcz7vqzk5jj0"

/-- The key in it. -/
def sampleProgram : Bytes :=
  [0x79, 0xbe, 0x66, 0x7e, 0xf9, 0xdc, 0xbb, 0xac, 0x55, 0xa0, 0x62, 0x95, 0xce, 0x87, 0x0b, 0x07,
    0x02, 0x9b, 0xfc, 0xdb, 0x2d, 0xce, 0x28, 0xd9, 0x59, 0xf2, 0x81, 0x5b, 0x16, 0xf8, 0x17, 0x98]

/-- The functions on that address; the others are not called for it. -/
def sampleCrypto : Crypto Unit where
  debug s := s
  sha256 _ := ⟨replicate 32 0, rfl⟩
  ripemd160 _ := ⟨replicate 20 0, rfl⟩
  segwitDecode s :=
    if s = sampleAddress then .ok ("bc", 1, sampleProgram) else .error "invalid"
  base58Decode _ := none
  keyMaterial _ _ := .error "invalid"
  validPoint _ := false
  publicKey _ := none
  schnorrKey _ := none
  Point := Unit
  Scalar := Unit
  liftX _ := none
  scalar _ := none
  tweak _ _ := []

/-- The `i`-th output of a transaction, worth some sats. -/
def coin (sats : Int64) (i : Nat) : SynValue Unit :=
  .map [("txid", .bytes (replicate 32 1)), ("vout", .number (.int (.ofNat i))),
    ("amount", .number (.int sats)), ("address", .text sampleAddress)]

/-- The amount is accepted. -/
def amountIs (fname : Text) (sats : Int64) (amount : UInt64) : Prop :=
  ∀ what, amountField fname (some (.number (.int sats) : SynValue Unit)) what = .ok amount

/-- A payment to the address. -/
def payment (sats : Int64) : SynValue Unit :=
  .map [("address", .text sampleAddress), ("amount", .number (.int sats))]

/-- The parameters that spend some outputs, pay to the address and declare a fee of 1000 sats. -/
def sampleParams (coins : List (SynValue Unit)) (sats : Int64) : SynMap Unit :=
  [("inputs", .list coins), ("outputs", .list [payment sats]),
    ("fee", .number (.int 1000))]

/-- The input made of it. -/
def coinInput (sats : UInt64) (i : Nat) : PlanInput where
  txidDisplay := ⟨replicate 32 1, rfl⟩
  vout := .ofNat i
  amount := sats
  address := sampleAddress
  kind := .p2tr
  program := sampleProgram
  pubkey := none

/-- The plan made of them. -/
def samplePlan (inputs : List PlanInput) (sats : UInt64) : Plan where
  network := .mainnet
  rbf := true
  locktime := 0
  inputs := inputs
  outputs := [⟨sats, sampleAddress, .p2tr, 0x51 :: 0x20 :: sampleProgram⟩]
  fee := 1000
  allowAbsurdFee := false

theorem accounted_iff_sample :
    Accounted sampleCrypto "btc_tx" (samplePlan [coinInput 50000 0] 49000) := by
  have h : buildPlan sampleCrypto (sampleParams [coin 50000 0] 49000) "btc_tx" =
      .ok (samplePlan [coinInput 50000 0] 49000) := rfl
  exact (accounted_iff h).mpr rfl

section Coins

variable {a b : Int64} {u v : UInt64}

variable {k n : Nat} {seen : List (Hash × UInt32)}

theorem readPlanInput_coin (ha : amountIs fname a u) {i : Nat} (hi : i < 2 ^ 32)
    (hseen : (coinInput u i).outpoint ∉ seen) :
    readPlanInput sampleCrypto .mainnet fname seen k (coin a i) = .ok (coinInput u i) := by
  have hint : (Int64.ofNat i).toInt = i := Int64.toInt_ofNat_of_lt (by omega)
  have hvout : ∀ error, u32Field (.int (.ofNat i)) error = .ok (.ofNat i) := by
    intro error
    rw [u32Field, toI64, hint]
    dsimp only
    rw [if_pos ⟨rfl, by omega, by omega⟩, Int.toNat_natCast]
  refine bind_eq_ok.mpr ⟨_, rfl, bind_eq_ok.mpr ⟨(), rfl, ?_⟩⟩
  refine bind_eq_ok.mpr ⟨⟨replicate 32 1, rfl⟩, rfl, ?_⟩
  refine bind_eq_ok.mpr ⟨.ofNat i, hvout _, ?_⟩
  change (⟨replicate 32 1, rfl⟩, UInt32.ofNat i) ∉ seen at hseen
  rw [if_neg hseen]
  exact bind_eq_ok.mpr ⟨u, ha _, rfl⟩

theorem readPlanInputs_coins (ha : amountIs fname a u) {i : Nat} (hn : i + n ≤ 2 ^ 32)
    (hseen : ∀ o ∈ seen, o.2.toNat < i) :
    readPlanInputs sampleCrypto .mainnet fname seen k ((List.range' i n).map (coin a)) =
      .ok ((List.range' i n).map (coinInput u)) := by
  induction n generalizing i k seen with
  | zero => rfl
  | succ n ih =>
    have hout : (coinInput u i).outpoint.2.toNat = i :=
      UInt32.toNat_ofNat_of_lt (by change i < 2 ^ 32; omega)
    have hnew : (coinInput u i).outpoint ∉ seen := fun h => absurd (hseen _ h) (by omega)
    have hrest : ∀ o ∈ (coinInput u i).outpoint :: seen, o.2.toNat < i + 1 :=
      forall_mem_cons.mpr ⟨by omega, fun o ho => (hseen o ho).trans (Nat.lt_succ_self i)⟩
    rw [range'_succ, map_cons, map_cons]
    refine bind_eq_ok.mpr ⟨_, readPlanInput_coin ha (by omega) hnew, ?_⟩
    exact bind_eq_ok.mpr ⟨_, ih (by omega) hrest, rfl⟩

theorem buildPlan_coins (ha : amountIs fname a u) (hn : 0 < n) (hmax : n ≤ 2 ^ 32)
    (hpay : readPlanOutput sampleCrypto .mainnet fname 0 (payment b) =
      .ok ⟨v, sampleAddress, .p2tr, 0x51 :: 0x20 :: sampleProgram⟩)
    (hfee : feeField (some (.number (.int 1000)) : Option (SynValue Unit)) fname = .ok 1000)
    (hbalance : balance fname (samplePlan ((List.range' 0 n).map (coinInput u)) v) =
      .ok (samplePlan ((List.range' 0 n).map (coinInput u)) v)) :
    buildPlan sampleCrypto (sampleParams ((List.range' 0 n).map (coin a)) b) fname =
      .ok (samplePlan ((List.range' 0 n).map (coinInput u)) v) := by
  have hcoins : ¬ ((List.range' 0 n).map (coin a)).isEmpty := by
    rw [List.isEmpty_iff, map_eq_nil_iff, range'_eq_nil_iff]
    omega
  refine bind_eq_ok.mpr ⟨(), rfl, bind_eq_ok.mpr ⟨.mainnet, rfl, ?_⟩⟩
  refine bind_eq_ok.mpr ⟨true, rfl, bind_eq_ok.mpr ⟨0, rfl, ?_⟩⟩
  refine bind_eq_ok.mpr ⟨false, rfl, bind_eq_ok.mpr ⟨1000, hfee, ?_⟩⟩
  refine bind_eq_ok.mpr ⟨_, rfl, ?_⟩
  rw [if_neg hcoins]
  refine bind_eq_ok.mpr ⟨_, readPlanInputs_coins ha (by omega) nofun, ?_⟩
  refine bind_eq_ok.mpr ⟨[payment b], rfl, ?_⟩
  rw [if_neg (Bool.eq_false_iff.mp isEmpty_cons)]
  refine bind_eq_ok.mpr ⟨_, ?_, hbalance⟩
  exact bind_eq_ok.mpr ⟨_, hpay, rfl⟩

end Coins

theorem totalIn_coins (n : Nat) (a b : UInt64) :
    (samplePlan ((List.range' 0 n).map (coinInput a)) b).totalIn = n * a.toNat := by
  change (((List.range' 0 n).map (coinInput a)).map fun i => i.amount.toNat).sum = _
  rw [map_map, eq_replicate_of_mem (l := List.map _ _) (a := a.toNat), sum_replicate, length_map,
    length_range']
  · rfl
  · intro x hx
    obtain ⟨i, -, rfl⟩ := mem_map.mp hx
    rfl

/-- Inputs that are worth more than `2 ^ 64` sats, with a payment of what is left of that and the
fee. -/
theorem not_accounted : ¬ ∀ (params : SynMap Unit) plan,
    buildPlan sampleCrypto params "btc_tx" = .ok plan →
      Accounted sampleCrypto "btc_tx" plan := by
  intro h
  have hin := totalIn_coins 8785 2100000000000000 1755926290447384
  have hout : ∀ inputs, (samplePlan inputs 1755926290447384).totalOut = 1755926290447384 :=
    fun _ => rfl
  have hbalance : balance "btc_tx" (samplePlan ((List.range' 0 8785).map
      (coinInput 2100000000000000)) 1755926290447384) =
      .ok (samplePlan ((List.range' 0 8785).map (coinInput 2100000000000000)) 1755926290447384) :=
    balance_eq_ok.mpr ⟨rfl, by rw [hin, hout]; rfl, fun _ => by rw [hout]; decide⟩
  have hamount : amountIs "btc_tx" 2100000000000000 2100000000000000 := fun _ => rfl
  have hplan := buildPlan_coins (b := 1755926290447384) (v := 1755926290447384) hamount
    (by norm_num) (by norm_num) rfl rfl hbalance
  have hbal := (h _ _ hplan).balanced
  rw [hin, hout] at hbal
  exact absurd hbal (by decide)

end Synsema.Btc
