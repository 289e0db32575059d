import Synsema.Solana.Wire

/-!
# What a message says

The message of `solana_tx` is read by the wire format and compared with what the parameters ask for.
It says that, just if every list that is written with its length in front has at most 65535 items
(`solanaTx_says_iff`): `shortvec` goes on for longer ones, which the format has no room for.
-/

namespace Synsema.Solana

open Text List
open Except (bind_eq_ok)
open Blockchain (Stop)
open Btc (SynValue SynMap isInteger toI64)

/-! ## What the parameters ask for -/

section Asks

variable {σ : Type} (c : Crates σ)

/-- A key, as bytes or in base58. -/
def IsKey (v : SynValue σ) (k : Pubkey) : Prop :=
  v = .bytes k.1 ∨ ∃ s, v = .text s ∧ c.bs58Decode (trim s) = .ok k.1

/-- The key in a field. -/
def HasKey (m : SynMap σ) (key : Text) (k : Pubkey) : Prop := ∃ v, m.lookup key = some v ∧ IsKey c v k

/-- The flag in a field: it is not set when it is not there. -/
def HasFlag (m : SynMap σ) (key : Text) (b : Bool) : Prop :=
  m.lookup key = some (.bool b) ∨ b = false ∧ (m.lookup key = none ∨ m.lookup key = some .nothing)

/-- An account of an instruction. -/
def AsksAccount (v : SynValue σ) (a : AccountMeta) : Prop :=
  ∃ m, v = .map m ∧ HasKey c m "pubkey" a.pubkey ∧ HasFlag m "signer" a.signer ∧
    HasFlag m "writable" a.writable

/-- An instruction. -/
def AsksInstruction (v : SynValue σ) (ins : Instruction) : Prop :=
  ∃ m, v = .map m ∧ HasKey c m "program" ins.program ∧
    (m.lookup "accounts".toList = none ∧ ins.accounts = [] ∨
      ∃ l, m.lookup "accounts".toList = some (.list l) ∧
        Forall₂ (AsksAccount c) l ins.accounts) ∧
    (m.lookup "data".toList = some (.bytes ins.data) ∨
      ins.data = [] ∧ (m.lookup "data".toList = none ∨ m.lookup "data".toList = some .nothing))

/-- What the parameters ask for. -/
structure Asks (m : SynMap σ) (q : Request) : Prop where
  version : q.v0 = true ∧ (∃ n, m.lookup "version".toList = some (.number n) ∧ toI64 n = some 0 ∧
      isInteger n = true) ∨
    q.v0 = false ∧ (m.lookup "version".toList = none ∨ m.lookup "version".toList = some .nothing)
  feePayer : HasKey c m "fee_payer" q.feePayer
  blockhash : HasKey c m "recent_blockhash" q.blockhash
  instructions : ∃ l, m.lookup "instructions".toList = some (.list l) ∧
    Forall₂ (AsksInstruction c) l q.instructions

variable {c}

variable {what fname : Text}

variable {v : SynValue σ} {key : Text} {m : SynMap σ}

theorem isKey_of_ok {k : Pubkey} (h : pubkey32 c v what fname = .ok k) : IsKey c v k := by
  unfold pubkey32 at h
  rw [bind_eq_ok] at h
  obtain ⟨raw, hraw, h⟩ := h
  split at h
  · next hlen =>
      obtain rfl := Except.ok.inj h
      split at hraw
      · next b => exact Or.inl (congrArg _ (Except.ok.inj hraw))
      · next s =>
          rw [Except.mapError_eq_ok, base58Decode, Except.mapError_eq_ok] at hraw
          exact Or.inr ⟨s, rfl, hraw⟩
      · nomatch hraw
      · nomatch hraw
  · nomatch h

theorem hasKey_of_ok {missing : List Text} {k : Pubkey} (h : keyField c m key what missing = .ok k)
    : HasKey c m key k := by
  rw [keyField, bind_eq_ok] at h
  obtain ⟨v, hv, h⟩ := h
  rw [required] at hv
  split at hv
  · next hlookup =>
      obtain rfl := Except.ok.inj hv
      exact ⟨_, hlookup, isKey_of_ok h⟩
  · nomatch hv

theorem hasFlag_of_ok {b : Bool} (h : getBool m key what fname = .ok b) : HasFlag m key b := by
  rw [getBool] at h
  split at h
  · next hlookup => exact Or.inr ⟨(Except.ok.inj h).symm, Or.inl hlookup⟩
  · next hlookup => exact Or.inr ⟨(Except.ok.inj h).symm, Or.inr hlookup⟩
  · next hlookup => exact Or.inl (Except.ok.inj h ▸ hlookup)
  · nomatch h

theorem getMap_eq_ok :
    getMap v what fname = .ok m ↔ v = .map m := by
  constructor
  · intro h
    unfold getMap at h
    split at h
    · exact congrArg _ (Except.ok.inj h)
    · nomatch h
  · rintro rfl
    rfl

theorem forall_of_readAll {α β : Type} {read : Nat → α → Except Stop β} {R : α → β → Prop}
    (hread : ∀ i a b, read i a = .ok b → R a b) {i : Nat} {as : List α} {bs : List β}
    (h : readAll read i as = .ok bs) : Forall₂ R as bs := by
  induction as generalizing i bs with
  | nil =>
    obtain rfl := Except.ok.inj h
    exact .nil
  | cons a as ih =>
    simp only [readAll, bind_eq_ok] at h
    obtain ⟨b, hb, bs', hbs, h⟩ := h
    obtain rfl := Except.ok.inj h
    exact .cons (hread i a b hb) (ih hbs)

theorem asksAccount_of_ok {j : Nat} {a : AccountMeta} (h : readAccount c what j v = .ok a) :
    AsksAccount c v a := by
  simp only [readAccount, bind_eq_ok] at h
  obtain ⟨m, hm, -, -, pubkey, hpubkey, signer, hsigner, writable, hwritable, h⟩ := h
  obtain rfl := Except.ok.inj h
  exact ⟨m, getMap_eq_ok.mp hm, hasKey_of_ok hpubkey, hasFlag_of_ok hsigner, hasFlag_of_ok hwritable⟩

theorem argBytes_eq_ok {b : Bytes} : argBytes v fname what = .ok b ↔ v = .bytes b := by
  constructor
  · intro h
    unfold argBytes at h
    split at h
    · exact congrArg _ (Except.ok.inj h)
    · nomatch h
    · nomatch h
  · rintro rfl
    rfl

theorem asksInstruction_of_ok {i : Nat} {ins : Instruction} (h : readInstruction c i v = .ok ins) :
    AsksInstruction c v ins := by
  simp only [readInstruction, bind_eq_ok] at h
  obtain ⟨m, hm, -, -, program, hprogram, accounts, haccounts, data, hdata, h⟩ := h
  obtain rfl := Except.ok.inj h
  refine ⟨m, getMap_eq_ok.mp hm, hasKey_of_ok hprogram, ?_, ?_⟩
  · unfold readAccounts at haccounts
    split at haccounts
    · next hnone => exact Or.inl ⟨hnone, (Except.ok.inj haccounts).symm⟩
    · next l hl =>
        exact Or.inr ⟨l, hl, forall_of_readAll (R := AsksAccount c) (fun _ _ _ ↦ asksAccount_of_ok) haccounts⟩
    · nomatch haccounts
  · unfold readData at hdata
    split at hdata
    · next hnone => exact Or.inr ⟨(Except.ok.inj hdata).symm, Or.inl hnone⟩
    · next hnothing => exact Or.inr ⟨(Except.ok.inj hdata).symm, Or.inr hnothing⟩
    · next hv => exact Or.inl (hv.trans (congrArg some (argBytes_eq_ok.mp hdata)))

theorem asks_of_ok {q : Request} (h : readRequest c m = .ok q) : Asks c m q := by
  simp only [readRequest, bind_eq_ok] at h
  obtain ⟨-, -, v0, hv0, feePayer, hfeePayer, blockhash, hblockhash, list, hlist, h⟩ := h
  split at h
  · nomatch h
  · rw [bind_eq_ok] at h
    obtain ⟨instructions, hinstructions, h⟩ := h
    obtain rfl := Except.ok.inj h
    refine ⟨?_, hasKey_of_ok hfeePayer, hasKey_of_ok hblockhash, list, ?_, ?_⟩
    · unfold readVersion at hv0
      split at hv0
      · next hnone => exact Or.inr ⟨(Except.ok.inj hv0).symm, Or.inl hnone⟩
      · next hnothing => exact Or.inr ⟨(Except.ok.inj hv0).symm, Or.inr hnothing⟩
      · next hv =>
          dsimp only at hv0
          split at hv0
          · next n _ =>
              split at hv0
              · next hn =>
                  exact Or.inl ⟨(Except.ok.inj hv0).symm, n, hv, hn.1, hn.2⟩
              · nomatch hv0
          · nomatch hv0
    · unfold instructionList at hlist
      split at hlist
      · next hl => rw [hl, Except.ok.inj hlist]
      · nomatch hlist
      · nomatch hlist
    · exact forall_of_readAll (R := AsksInstruction c) (fun _ _ _ => asksInstruction_of_ok)
        hinstructions

end Asks

/-! ## What a message says -/

/-- The places of an instruction in the keys. -/
structure Refers (keys : List Bytes) (ins : Instruction) (d : Compiled) : Prop where
  program : keys[d.program.toNat]? = some ins.program.1
  accounts : Forall₂ (fun (a : AccountMeta) (i : UInt8) => keys[i.toNat]? = some a.pubkey.1)
    ins.accounts d.accounts
  data : d.data = ins.data

/-- The message says what is asked for. -/
structure Says (q : Request) (m : Message) : Prop where
  version : m.v0 = q.v0
  feePayer : m.keys.head? = some q.feePayer.1
  nodup : m.keys.Nodup
  /-- Of two keys of a group after the fee payer, the first is the smaller one. -/
  sorted : ∀ i j a b, 0 < i → i < j → m.keys[i]? = some a → m.keys[j]? = some b →
    m.signer i = m.signer j → m.writable i = m.writable j → a < b
  keys : ∀ k : Pubkey, k.1 ∈ m.keys ↔ q.Mentions k
  signer : ∀ i (k : Pubkey), m.keys[i]? = some k.1 → (m.signer i = true ↔ q.Signer k)
  writable : ∀ i (k : Pubkey), m.keys[i]? = some k.1 → (m.writable i = true ↔ q.Writable k)
  blockhash : m.blockhash = q.blockhash.1
  instructions : Forall₂ (Refers m.keys) q.instructions m.instructions
  lookups : m.lookups = []

/-- Every list that is written with its length has room for it. -/
structure Request.Fits (q : Request) : Prop where
  instructions : q.instructions.length < 65536
  lists : ∀ ins ∈ q.instructions, ins.accounts.length < 65536 ∧ ins.data.length < 65536

/-- The value is these signatures. -/
def AreSignatures {σ : Type} (v : SynValue σ) (sigs : List Bytes) : Prop :=
  (∃ b, v = .bytes b ∧ sigs = [b]) ∨ v = .list (sigs.map .bytes)

/-- `solana_tx_raw` puts the signatures of a message before it, if they are as many as `n` and of 64
bytes each. -/
def TakesSignatures (σ : Type) (b : Bytes) (n : Nat) : Prop :=
  ∀ (v : SynValue σ) (out : Bytes), solanaTxRaw [.bytes b, v] = .ok out ↔
    ∃ sigs, AreSignatures v sigs ∧ (∀ s ∈ sigs, s.length = 64) ∧ sigs.length = n ∧
      out = shortvec sigs.length ++ sigs.flatten ++ b

/-- The bytes are a message that says what is asked for, and takes the signatures it requires. -/
def Tells (σ : Type) (b : Bytes) (q : Request) : Prop :=
  ∃ m, message b m ∧ (∀ m', message b m' → m' = m) ∧ Says q m ∧ TakesSignatures σ b m.numRequired

/-! ### The places -/

section Places

variable {keys : List Pubkey}

theorem indexOf_eq_ok {k : Pubkey} {i : UInt8} (hlen : keys.length ≤ 256)
    (h : indexOf keys k = .ok i) : (keys.map Subtype.val)[i.toNat]? = some k.1 := by
  rw [indexOf] at h
  split at h
  · next n hn =>
      obtain ⟨hlt, hk, -⟩ := findIdx?_eq_some_iff_getElem.mp hn
      rw [← Except.ok.inj h, toNat_ofNat (by omega), getElem?_map,
        getElem?_eq_getElem hlt, of_decide_eq_true hk]
      rfl
  · nomatch h

theorem writeInstruction_eq_ok {ins : Instruction} {w : Bytes} (hlen : keys.length ≤ 256)
    (h : writeInstruction keys ins = .ok w) :
    ∃ d, Refers (keys.map Subtype.val) ins d ∧
      (ins.accounts.length < 65536 ∧ ins.data.length < 65536 → compiled w d) := by
  simp only [writeInstruction, bind_eq_ok] at h
  obtain ⟨program, hprogram, accounts, haccounts, h⟩ := h
  obtain rfl := Except.ok.inj h
  have hall := Except.mapM_eq_ok_iff.mp haccounts
  refine ⟨⟨program, accounts, ins.data⟩, ⟨indexOf_eq_ok hlen hprogram, ?_, rfl⟩, ?_⟩
  · exact hall.imp fun a i ha => indexOf_eq_ok hlen ha
  · rintro ⟨haccounts, hdata⟩
    rw [hall.length_eq] at haccounts ⊢
    simp only [cons_append, append_assoc]
    apply one_bind
    rw [← append_assoc]
    refine ⟨_, _, accounts, rfl, vector_one haccounts, ?_⟩
    exact ⟨_, [], ins.data, (append_nil _).symm, vector_one hdata, rfl, rfl⟩

theorem writeInstructions_eq_ok {l : List Instruction} {ws : List Bytes} (hlen : keys.length ≤ 256)
    (h : Forall₂ (fun ins w => writeInstruction keys ins = .ok w) l ws) :
    ∃ ds, Forall₂ (Refers (keys.map Subtype.val)) l ds ∧
      ((∀ ins ∈ l, ins.accounts.length < 65536 ∧ ins.data.length < 65536) →
        compiled.times ds.length ws.flatten ds) := by
  induction h with
  | nil => exact ⟨[], .nil, fun _ => ⟨rfl, rfl⟩⟩
  | @cons ins w l ws hins _ ih =>
    obtain ⟨ds, hds, htimes⟩ := ih
    obtain ⟨d, hd, hword⟩ := writeInstruction_eq_ok hlen hins
    refine ⟨d :: ds, .cons hd hds, fun hfits => ?_⟩
    obtain ⟨hhead, htail⟩ := forall_mem_cons.mp hfits
    exact ⟨w, ws.flatten, d, rfl, hword hhead, ws.flatten, [], ds, (append_nil _).symm,
      htimes htail, rfl, rfl⟩

end Places

/-! ### The signatures -/

section Signatures

variable {σ : Type}

variable {α β : Type} {b : Bytes} {m : Message}

theorem readAll_of_forall {read : Nat → α → Except Stop β} {R : α → β → Prop}
    (hread : ∀ i a b, R a b → read i a = .ok b) {i : Nat} {as : List α} {bs : List β}
    (h : Forall₂ R as bs) : readAll read i as = .ok bs := by
  induction h generalizing i with
  | nil => rfl
  | cons hab _ ih =>
    simp only [readAll, hread _ _ _ hab, ih]
    rfl

theorem forall_left {P : α → Prop} {as : List α} {bs : List β}
    (h : Forall₂ (fun a _ => P a) as bs) : ∀ a ∈ as, P a := by
  induction h with
  | nil => exact nofun
  | cons ha _ ih => exact forall_mem_cons.mpr ⟨ha, ih⟩

theorem readSignatures_eq_ok {v : SynValue σ} {sigs : List Bytes} :
    readSignatures v = .ok sigs ↔ AreSignatures v sigs := by
  constructor
  · intro h
    unfold readSignatures at h
    split at h
    · next b => exact Or.inl ⟨b, rfl, (Except.ok.inj h).symm⟩
    · next l =>
        have hall := forall_of_readAll (R := fun v b => v = SynValue.bytes b)
          (fun _ _ _ => argBytes_eq_ok.mp) h
        rw [← forall₂_map_right_iff, forall₂_eq_eq_eq] at hall
        exact Or.inr (congrArg _ hall)
    · nomatch h
  · rintro (⟨b, rfl, rfl⟩ | rfl)
    · rfl
    · refine readAll_of_forall (R := fun v b => v = SynValue.bytes b)
        (fun _ _ _ => argBytes_eq_ok.mpr) ?_
      rw [← forall₂_map_right_iff, forall₂_eq_eq_eq]

theorem and_high {a : UInt8} (h : a.toNat < 128) : a &&& 0x80 = 0 := by
  have hall : ∀ n < 128, UInt8.ofNat n &&& 0x80 = 0 := by decide
  have := hall a.toNat h
  rwa [UInt8.ofNat_toNat] at this

theorem signaturesOf_message (h : message b m) :
    4 ≤ b.length ∧ signaturesOf b = .ok m.numRequired := by
  have hafter {v0 : Bool} {n : UInt8} {w : Bytes} (h : afterRequired v0 n w m) :
      3 ≤ w.length ∧ m.numRequired = n.toNat := by
    obtain ⟨_, _, _, rfl, rfl, _, _, _, rfl, rfl, _, _, _, rfl, -, _, _, _, rfl, hblock, h⟩ := h
    obtain ⟨_, _, _, -, -, _, _, _, -, -, -, rfl⟩ := h
    refine ⟨?_, rfl⟩
    rw [length_append, length_append, length_append, length_append, hblock.1]
    omega
  obtain ⟨_, v, a, rfl, rfl, h⟩ := h
  split at h
  · next ha =>
      obtain ⟨hlen, hn⟩ := hafter h
      refine ⟨Nat.succ_le_succ hlen, ?_⟩
      rw [signaturesOf, singleton_append, getD_cons_zero, and_high ha, hn]
      rfl
  · split at h
    · next ha =>
        obtain ⟨_, w, n, rfl, rfl, h⟩ := h
        obtain ⟨hlen, hn⟩ := hafter h
        refine ⟨Nat.succ_le_succ (Nat.le_succ_of_le hlen), ?_⟩
        rw [ha, hn, signaturesOf, singleton_append, singleton_append, getD_cons_zero,
          getD_cons_succ, getD_cons_zero]
        rw [if_pos (by decide), if_neg (by decide)]
    · exact h.elim

theorem solanaTxRaw_message (h : message b m) : TakesSignatures σ b m.numRequired := by
  obtain ⟨hlen, hrequired⟩ := signaturesOf_message h
  intro v out
  have hmsg : arg [SynValue.bytes b, v] 0 solanaTxRawName = .ok (SynValue.bytes b) := rfl
  have hsigs : arg [SynValue.bytes b, v] 1 solanaTxRawName = .ok v := rfl
  simp only [solanaTxRaw, bind_eq_ok, hmsg, hsigs, Except.ok.injEq, exists_eq_left',
    argBytes_eq_ok, SynValue.bytes.injEq, if_neg (Nat.not_lt.mpr hlen), hrequired,
    readSignatures_eq_ok]
  refine exists_congr fun sigs => and_congr_right fun _ => ?_
  constructor
  · rintro ⟨us, hus, h⟩
    split at h
    · nomatch h
    · next hn =>
        refine ⟨?_, not_not.mp hn, (Except.ok.inj h).symm⟩
        refine forall_left (forall_of_readAll (R := fun (s : Bytes) (_ : Unit) ↦ s.length = 64) ?_ hus)
        intro i s u hu
        split at hu
        · nomatch hu
        · next h64 => exact not_not.mp h64
  · rintro ⟨hall, hn, rfl⟩
    refine ⟨sigs.map fun _ => (), ?_, ?_⟩
    · refine readAll_of_forall (R := fun (s : Bytes) (_ : Unit) => s.length = 64) ?_ ?_
      · intro i s u hs
        rw [if_neg (not_not.mpr hs)]
      · rw [forall₂_map_right_iff, forall₂_same]
        exact hall
    · rw [if_neg (not_not.mpr hn)]
      rfl

end Signatures

/-! ### The message -/

section Tells

theorem bind_append {α β : Type} {G : Grammar UInt8 α} {f : α → Grammar UInt8 β} {u v : Bytes}
    {a : α} {b : β} (hu : G u a) (hv : f a v b) : (G >>= f) (u ++ v) b :=
  ⟨u, v, a, rfl, hu, hv⟩

/-- The message of a request, with its instructions as they were written. -/
def messageOf (q : Request) (ds : List Compiled) : Message :=
  ⟨q.v0, numRequired q, (readonlySigners q).length, (readonlyOthers q).length,
    (compileKeys q).map Subtype.val, q.blockhash.1, ds, []⟩

variable {q : Request} {ds : List Compiled} {i j : Nat} {k k' : Pubkey}

theorem getElem?_messageOf :
    (messageOf q ds).keys[i]? = some k.1 ↔ (compileKeys q)[i]? = some k := by
  rw [messageOf, getElem?_map, Option.map_eq_some_iff]
  exact ⟨fun ⟨_, h, hk⟩ => Subtype.ext hk ▸ h, fun h => ⟨k, h, rfl⟩⟩

theorem signer_messageOf (h : (compileKeys q)[i]? = some k) :
    (messageOf q ds).signer i ↔ q.Signer k := by
  rw [Message.signer, decide_eq_true_eq]
  exact signer_place h

theorem writable_messageOf (h : (compileKeys q)[i]? = some k) :
    (messageOf q ds).writable i ↔ q.Writable k := by
  have hlen : (messageOf q ds).keys.length = (compileKeys q).length := length_map _
  rw [Message.writable_iff, hlen]
  exact writable_place h

theorem lt_of_flags (hi : 0 < i) (hij : i < j) (hk : (compileKeys q)[i]? = some k)
    (hk' : (compileKeys q)[j]? = some k') (hflags : q.flags k = q.flags k') : k.1 < k'.1 := by
  have htail := pairwise_compileKeys (q := q)
  cases i with
  | zero => exact absurd hi (lt_irrefl 0)
  | succ i =>
    cases j with
    | zero => exact absurd hij (Nat.not_lt_zero _)
    | succ j =>
      rw [compileKeys, getElem?_cons_succ] at hk hk'
      rw [compileKeys, tail_cons] at htail
      obtain ⟨hi', rfl⟩ := List.getElem?_eq_some_iff.mp hk
      obtain ⟨hj', rfl⟩ := List.getElem?_eq_some_iff.mp hk'
      obtain h | h := pairwise_iff_getElem.mp htail i j hi' hj' (Nat.lt_of_succ_lt_succ hij)
      · rw [hflags] at h
        exact absurd h (lt_irrefl _)
      · exact h.2

theorem says_messageOf
    (h : Forall₂ (Refers ((compileKeys q).map Subtype.val)) q.instructions ds) :
    Says q (messageOf q ds) where
  version := rfl
  feePayer := rfl
  nodup := nodup_compileKeys.map Subtype.val_injective
  sorted i j a b hi hij ha hb hsigner hwritable := by
    obtain ⟨k, hk, rfl⟩ := mem_map.mp (mem_of_getElem? ha)
    obtain ⟨k', hk', rfl⟩ := mem_map.mp (mem_of_getElem? hb)
    rw [getElem?_messageOf] at ha hb
    refine lt_of_flags hi hij ha hb (Prod.ext (Bool.eq_iff_iff.mpr ?_) (Bool.eq_iff_iff.mpr ?_))
    · rw [Request.flags, Request.flags, signer_compileMetas, signer_compileMetas,
        ← signer_messageOf ha, hsigner, signer_messageOf hb]
    · rw [Request.flags, Request.flags, writable_compileMetas, writable_compileMetas,
        ← writable_messageOf ha, hwritable, writable_messageOf hb]
  keys k := by
    rw [messageOf, mem_map_of_injective Subtype.val_injective]
    exact mem_compileKeys
  signer i k hk := signer_messageOf (getElem?_messageOf.mp hk)
  writable i k hk := writable_messageOf (getElem?_messageOf.mp hk)
  blockhash := rfl
  instructions := h
  lookups := rfl

theorem message_of_fits {ws : List Bytes} (hfits : q.Fits) (hrequired : numRequired q ≤ 127)
    (hkeys : (compileKeys q).length ≤ 256) (hlen : ds.length = q.instructions.length)
    (hds : compiled.times ds.length ws.flatten ds) :
    message ((if q.v0 then [0x80] else []) ++ [.ofNat (numRequired q),
      .ofNat (readonlySigners q).length, .ofNat (readonlyOthers q).length] ++
      shortvec (compileKeys q).length ++ (compileKeys q).flatMap Subtype.val ++ q.blockhash.1 ++
      shortvec q.instructions.length ++ ws.flatten ++ if q.v0 then shortvec 0 else [])
      (messageOf q ds) := by
  have hsigners : (readonlySigners q).length < 256 := by
    have := hrequired
    rw [numRequired] at this
    omega
  have hothers : (readonlyOthers q).length < 256 := by
    rw [compileKeys_eq, length_append, length_signers, length_append] at hkeys
    have hpos : 0 < numRequired q := by rw [numRequired]; omega
    omega
  have hvector : vector (Grammar.block 32)
      (shortvec (compileKeys q).length ++ (compileKeys q).flatMap Subtype.val)
      ((compileKeys q).map Subtype.val) := by
    have hblocks : (Grammar.block 32).times ((compileKeys q).map Subtype.val).length
        (((compileKeys q).map Subtype.val).flatMap id) ((compileKeys q).map Subtype.val) := by
      refine Grammar.times_flatMap fun k hk => ?_
      obtain ⟨k, -, rfl⟩ := mem_map.mp hk
      exact ⟨k.2, rfl⟩
    rw [flatMap_id, ← flatMap_def] at hblocks
    have hlen : ((compileKeys q).map Subtype.val).length = (compileKeys q).length :=
      length_map _
    rw [← hlen]
    exact vector_of_times (by omega) hblocks
  have hinstructions : vector compiled (shortvec q.instructions.length ++ ws.flatten) ds :=
    hlen ▸ vector_of_times (hlen ▸ hfits.instructions) hds
  have hlookups : (if q.v0 then vector tableLookup else pure [] : Grammar UInt8 (List TableLookup))
      (if q.v0 then shortvec 0 else []) [] := by
    cases q.v0 with
    | false => exact ⟨rfl, rfl⟩
    | true => exact ⟨_, [], 0, (append_nil _).symm, compact_shortvec (by decide), rfl, rfl⟩
  have hafter : afterRequired q.v0 (.ofNat (numRequired q)) (.ofNat (readonlySigners q).length ::
      .ofNat (readonlyOthers q).length :: ((shortvec (compileKeys q).length ++
        (compileKeys q).flatMap Subtype.val) ++ (q.blockhash.1 ++
        ((shortvec q.instructions.length ++ ws.flatten) ++ if q.v0 then shortvec 0 else []))))
      (messageOf q ds) := by
    apply one_bind
    apply one_bind
    refine bind_append hvector (bind_append ⟨q.blockhash.2, rfl⟩ (bind_append hinstructions ?_))
    refine ⟨_, [], [], (append_nil _).symm, hlookups, rfl, ?_⟩
    rw [toNat_ofNat (by omega), toNat_ofNat hsigners, toNat_ofNat hothers]
    rfl
  simp only [append_assoc, cons_append, nil_append] at hafter ⊢
  cases hv0 : q.v0 with
  | false =>
    rw [hv0] at hafter
    apply one_bind
    rw [toNat_ofNat (by omega), if_pos (by omega)]
    exact hafter
  | true =>
    rw [hv0] at hafter
    apply one_bind
    rw [if_neg (by decide), if_pos rfl]
    apply one_bind
    exact hafter

theorem Tells.fits {σ : Type} {b : Bytes} (h : Tells σ b q) : q.Fits := by
  obtain ⟨m, hm, -, htold, -⟩ := h
  obtain ⟨hcount, hlists⟩ := length_of_message hm
  refine ⟨htold.instructions.length_eq ▸ hcount, ?_⟩
  have hall := (forall₂_and_left _ _).mpr ⟨hlists, htold.instructions.flip⟩
  refine forall_left (Forall₂.flip (hall.imp ?_))
  rintro d ins ⟨⟨haccounts, hdata⟩, hd⟩
  exact ⟨hd.accounts.length_eq ▸ haccounts, hd.data ▸ hdata⟩

end Tells

/-- The message of `solana_tx` says what the parameters ask for just if no list in it has more items
than its length can say. -/
theorem solanaTx_tells_iff {σ : Type} (c : Crates σ) (args : List (SynValue σ)) {b : Bytes}
    (h : solanaTx c args = .ok b) :
    ∃ params q, args[0]? = some (.map params) ∧ Asks c params q ∧ (Tells σ b q ↔ q.Fits) := by
  rw [solanaTx] at h
  split at h
  · nomatch h
  simp only [bind_eq_ok, getMap_eq_ok] at h
  obtain ⟨v, hv, params, rfl, q, hq, h⟩ := h
  have harg : args[0]? = some (.map params) := by
    unfold arg at hv
    split at hv
    · next hget => rw [hget, Except.ok.inj hv]
    · nomatch hv
  refine ⟨params, q, harg, asks_of_ok hq, ?_⟩
  rw [compile] at h
  split at h
  · nomatch h
  · next hrequired =>
      split at h
      · nomatch h
      · next hkeys =>
          have hkeys : (compileKeys q).length ≤ 256 := Nat.le_of_not_lt hkeys
          simp only [writeMessage, bind_eq_ok, Except.mapM_eq_ok_iff] at h
          obtain ⟨ws, hws, h⟩ := h
          obtain rfl := Except.ok.inj h
          obtain ⟨ds, hrefers, htimes⟩ := writeInstructions_eq_ok hkeys hws
          constructor
          · exact Tells.fits
          · intro hfits
            have hm := message_of_fits hfits (Nat.le_of_not_lt hrequired) hkeys
              hrefers.length_eq.symm (htimes hfits.lists)
            exact ⟨messageOf q ds, hm, fun m' hm' => unambiguous_message.eq hm' hm,
              says_messageOf hrefers, solanaTxRaw_message hm⟩

/-! ## One instruction -/

section Memo

/-- A key of the same byte all through. -/
def plainKey (a : UInt8) : Pubkey := ⟨replicate 32 a, length_replicate⟩

/-- An instruction without accounts. -/
def memo (data : Bytes) : SynMap Unit :=
  [("fee_payer", .bytes (plainKey 1).1), ("recent_blockhash", .bytes (plainKey 9).1),
    ("instructions", .list [.map [("program", .bytes (plainKey 2).1),
      ("data", .bytes data)]])]

/-- Crates that read no text. -/
def noTexts : Crates Unit := ⟨fun _ => .error [], id, fun _ => []⟩

theorem asks_memo {data : Bytes} {q : Request} (h : Asks noTexts (memo data) q) :
    ∃ ins, q.instructions = [ins] ∧ ins.accounts = [] ∧ ins.data = data := by
  obtain ⟨l, hl, hall⟩ := h.instructions
  obtain rfl : _ = l := SynValue.list.inj (Option.some.inj hl)
  obtain ⟨ins, _, ⟨m, hm, -, haccounts, hdata⟩, hnil, hq⟩ := forall₂_cons_left_iff.mp hall
  obtain rfl := forall₂_nil_left_iff.mp hnil
  obtain rfl : _ = m := SynValue.map.inj hm
  refine ⟨ins, hq, ?_, ?_⟩
  · obtain ⟨-, h⟩ | ⟨l, hl, -⟩ := haccounts
    · exact h
    · nomatch hl
  · obtain h | ⟨-, h | h⟩ := hdata
    · exact (SynValue.bytes.inj (Option.some.inj h)).symm
    · nomatch h
    · nomatch h

/-- The message of a byte of data. -/
theorem solanaTx_tells_memo :
    ∃ q, Asks noTexts (memo [7]) q ∧
      Tells Unit ([1, 0, 1, 2] ++ replicate 32 1 ++ replicate 32 2 ++
        replicate 32 9 ++ [1, 1, 0, 1, 7]) q := by
  have h : solanaTx noTexts [.map (memo [7])] = .ok ([1, 0, 1, 2] ++ replicate 32 1 ++
      replicate 32 2 ++ replicate 32 9 ++ [1, 1, 0, 1, 7]) := by decide +kernel
  obtain ⟨params, q, hparams, hasks, hiff⟩ := solanaTx_tells_iff noTexts _ h
  obtain rfl : memo [7] = params := SynValue.map.inj (Option.some.inj hparams)
  obtain ⟨ins, hins, haccounts, hdata⟩ := asks_memo hasks
  refine ⟨q, hasks, hiff.mpr ⟨?_, ?_⟩⟩
  · rw [hins]
    exact (by decide : 1 < 65536)
  · rw [hins]
    intro ins' hins'
    obtain rfl := mem_singleton.mp hins'
    rw [haccounts, hdata]
    decide

theorem exists_solanaTx_memo (data : Bytes) : ∃ b, solanaTx noTexts [.map (memo data)] = .ok b := by
  let q : Request := ⟨false, plainKey 1, plainKey 9, [⟨plainKey 2, [], data⟩]⟩
  have hentries : (compileMetas q).entries =
      [(plainKey 1, true, true), (plainKey 2, false, false)] := rfl
  have hnone {fl : Bool × Bool} (h : (false, false) ≠ fl) : bucket q fl = [] := by
    rw [bucket, hentries, filter_cons_of_neg, filter_cons_of_neg]
    · exact mergeSort_nil
    · exact fun hp => h (of_decide_eq_true hp).2
    · exact fun hp => (of_decide_eq_true hp).1 rfl
  have hone : bucket q (false, false) = [plainKey 2] := by
    rw [bucket, hentries]
    exact mergeSort_singleton _
  have hkeys : compileKeys q = [plainKey 1, plainKey 2] := by
    rw [compileKeys, writableSigners, readonlySigners, writableOthers, readonlyOthers, hone,
      hnone (by decide), hnone (by decide), hnone (by decide)]
    rfl
  have hrequired : numRequired q = 1 := by
    rw [numRequired, writableSigners, readonlySigners, hnone (by decide), hnone (by decide)]
    rfl
  have hcompile : compile q = writeMessage q := by
    rw [compile, hrequired, hkeys]
    rfl
  have hwrite : ∃ b, writeMessage q = .ok b := by
    rw [writeMessage, hkeys]
    exact ⟨_, rfl⟩
  obtain ⟨b, hb⟩ := hwrite
  refine ⟨b, ?_⟩
  rw [← hb, ← hcompile]
  rfl

/-- 65536 bytes of data have no length in the format. -/
theorem solanaTx_long_data :
    ¬ ∀ (c : Crates Unit) (args : List (SynValue Unit)) (b : Bytes), solanaTx c args = .ok b →
      ∃ params q, args[0]? = some (.map params) ∧ Asks c params q ∧ Tells Unit b q := by
  intro h
  obtain ⟨b, hb⟩ := exists_solanaTx_memo (replicate 65536 0)
  obtain ⟨params, q, hparams, hasks, htells⟩ := h noTexts _ b hb
  obtain rfl : memo (replicate 65536 0) = params :=
    SynValue.map.inj (Option.some.inj hparams)
  obtain ⟨ins, hins, -, hdata⟩ := asks_memo hasks
  have hlen := (htells.fits.lists ins (hins ▸ mem_singleton_self ins)).2
  rw [hdata, length_replicate] at hlen
  exact lt_irrefl _ hlen

end Memo

end Synsema.Solana
