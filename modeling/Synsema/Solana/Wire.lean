import Synsema.Lib.Grammar
import Synsema.Solana.Accounts

/-!
# The wire format of a message

The legacy and the v0 format of a message as a grammar, apart from the code that writes it: lengths
are compact-u16, at most three bytes and at most 65535, and a reference to a key is a byte.  A list
of bytes is a message in one way at most (`unambiguous_message`).
-/

namespace Synsema.Solana

open Blockchain (Stop)

/-! ## The grammar -/

/-- A compact-u16. -/
def compact : Grammar UInt8 Nat :=
  Grammar.filter (do
    let a ← Grammar.one
    if a.toNat < 128 then return a.toNat
    else
      let b ← Grammar.one
      if b.toNat < 128 then return a.toNat - 128 + 128 * b.toNat
      else
        let c ← Grammar.one
        return a.toNat - 128 + 128 * (b.toNat - 128) + 16384 * c.toNat) (· < 65536)

/-- A length, and as many words. -/
def vector {α : Type} (G : Grammar UInt8 α) : Grammar UInt8 (List α) := do
  let n ← compact
  G.times n

/-- An instruction: its program and accounts are places in the list of keys. -/
structure Compiled where
  program : UInt8
  accounts : List UInt8
  data : Bytes

/-- An entry of the address table lookups. -/
structure TableLookup where
  table : Bytes
  writable : Bytes
  readonly : Bytes

/-- What a message says. -/
structure Message where
  v0 : Bool
  numRequired : Nat
  numReadonlySigned : Nat
  numReadonlyUnsigned : Nat
  keys : List Bytes
  blockhash : Bytes
  instructions : List Compiled
  lookups : List TableLookup

namespace Message

/-- The key at the place is to sign. -/
def signer (m : Message) (i : Nat) : Bool := i < m.numRequired

/-- The key at the place is to be written to. -/
def writable (m : Message) (i : Nat) : Bool :=
  if i < m.numRequired then i < m.numRequired - m.numReadonlySigned
  else i < m.keys.length - m.numReadonlyUnsigned

theorem writable_iff (m : Message) (i : Nat) : m.writable i ↔
    if i < m.numRequired then i < m.numRequired - m.numReadonlySigned
    else i < m.keys.length - m.numReadonlyUnsigned := by
  rw [writable]
  split
  · exact decide_eq_true_iff
  · exact decide_eq_true_iff

end Message

/-- An instruction. -/
def compiled : Grammar UInt8 Compiled := do
  let program ← Grammar.one
  let accounts ← vector Grammar.one
  let data ← vector Grammar.one
  return ⟨program, accounts, data⟩

/-- An entry of the address table lookups. -/
def tableLookup : Grammar UInt8 TableLookup := do
  let table ← Grammar.block 32
  let writable ← vector Grammar.one
  let readonly ← vector Grammar.one
  return ⟨table, writable, readonly⟩

/-- A message after the number of its signatures. -/
def afterRequired (v0 : Bool) (numRequired : UInt8) : Grammar UInt8 Message := do
  let numReadonlySigned ← Grammar.one
  let numReadonlyUnsigned ← Grammar.one
  let keys ← vector (Grammar.block 32)
  let blockhash ← Grammar.block 32
  let instructions ← vector compiled
  let lookups ← (if v0 then vector tableLookup else pure [])
  return ⟨v0, numRequired.toNat, numReadonlySigned.toNat, numReadonlyUnsigned.toNat, keys, blockhash,
    instructions, lookups⟩

/-- A message: the high bit of the first byte says that a version follows in it. -/
def message : Grammar UInt8 Message := do
  let a ← Grammar.one
  if a.toNat < 128 then afterRequired false a
  else if a = 0x80 then afterRequired true (← Grammar.one)
  else Grammar.never

section Unambiguous

open Grammar.Unambiguous

theorem unambiguous_compact : compact.Unambiguous :=
  filter (one.bind fun _ => .ite (fun _ => .pure _) fun _ =>
    one.bind fun _ => .ite (fun _ => .pure _) fun _ => one.bind fun _ => .pure _) _

theorem unambiguous_vector {α : Type} {G : Grammar UInt8 α} (hG : G.Unambiguous) :
    (vector G).Unambiguous :=
  unambiguous_compact.bind hG.times

theorem unambiguous_compiled : compiled.Unambiguous :=
  one.bind fun _ => (unambiguous_vector one).bind fun _ => (unambiguous_vector one).bind fun _ =>
    .pure _

theorem unambiguous_tableLookup : tableLookup.Unambiguous :=
  (block 32).bind fun _ => (unambiguous_vector one).bind fun _ =>
    (unambiguous_vector one).bind fun _ => .pure _

theorem unambiguous_afterRequired (v0 : Bool) (n : UInt8) : (afterRequired v0 n).Unambiguous := by
  have hlookups : (if v0 then vector tableLookup else Pure.pure []).Unambiguous :=
    .ite (fun _ => unambiguous_vector unambiguous_tableLookup) fun _ => .pure []
  exact one.bind fun _ => one.bind fun _ => (unambiguous_vector (block 32)).bind fun _ =>
    (block 32).bind fun _ => (unambiguous_vector unambiguous_compiled).bind fun _ =>
    hlookups.bind fun _ => .pure _

theorem unambiguous_message : message.Unambiguous :=
  one.bind fun _ => .ite (fun _ => unambiguous_afterRequired _ _) fun _ =>
    .ite (fun _ => one.bind fun _ => unambiguous_afterRequired _ _) fun _ => .never

end Unambiguous

/-! ## Lengths -/

section Lengths

variable {n : Nat}

theorem toNat_ofNat (h : n < 256) : (UInt8.ofNat n).toNat = n := by
  rw [UInt8.toNat_ofNat', Nat.mod_eq_of_lt h]

theorem shortvec_of_lt (h : n < 128) : shortvec n = [.ofNat n] := by
  rw [shortvec, if_pos (Nat.div_eq_of_lt h), Nat.mod_eq_of_lt h]

theorem shortvec_of_le (h : 128 ≤ n) :
    shortvec n = .ofNat (n % 128 + 128) :: shortvec (n / 128) := by
  rw [shortvec, if_neg (by omega)]

theorem one_bind {β : Type} {f : UInt8 → Grammar UInt8 β} {a : UInt8} {w : Bytes} {b : β}
    (h : f a w b) : (Grammar.one >>= f) (a :: w) b :=
  ⟨[a], w, a, rfl, rfl, h⟩

theorem compact_shortvec (h : n < 65536) : compact (shortvec n) n := by
  refine ⟨?_, h⟩
  by_cases h₁ : n < 128
  · rw [shortvec_of_lt h₁]
    apply one_bind
    rw [toNat_ofNat (by omega), if_pos h₁]
    exact ⟨rfl, rfl⟩
  rw [shortvec_of_le (by omega)]
  apply one_bind
  rw [toNat_ofNat (by omega), if_neg (by omega)]
  by_cases h₂ : n / 128 < 128
  · rw [shortvec_of_lt h₂]
    apply one_bind
    rw [toNat_ofNat (by omega), if_pos h₂]
    exact ⟨rfl, by omega⟩
  rw [shortvec_of_le (by omega), shortvec_of_lt (by omega)]
  apply one_bind
  rw [toNat_ofNat (by omega), if_neg (by omega)]
  apply one_bind
  rw [toNat_ofNat (by omega)]
  exact ⟨rfl, by omega⟩

variable {α : Type} {G : Grammar UInt8 α} {w : Bytes} {as : List α}

theorem vector_of_times (h : as.length < 65536) (hw : G.times as.length w as) :
    vector G (shortvec as.length ++ w) as :=
  ⟨_, _, _, rfl, compact_shortvec h, hw⟩

theorem vector_one {b : Bytes} (h : b.length < 65536) :
    vector Grammar.one (shortvec b.length ++ b) b := by
  have hb : b.flatMap (fun a => [a]) = b := List.flatMap_singleton' b
  refine vector_of_times h ?_
  nth_rewrite 2 [← hb]
  exact Grammar.times_flatMap fun a _ => rfl

theorem length_of_vector (h : vector G w as) : as.length < 65536 := by
  obtain ⟨u, v, n, rfl, ⟨-, hn⟩, hv⟩ := h
  exact (Grammar.forall_of_times hv).1 ▸ hn

theorem forall_of_vector (h : vector G w as) : ∀ a ∈ as, ∃ u, G u a := by
  obtain ⟨u, v, n, rfl, -, hv⟩ := h
  exact (Grammar.forall_of_times hv).2

theorem length_of_compiled {c : Compiled} (h : compiled w c) :
    c.accounts.length < 65536 ∧ c.data.length < 65536 := by
  obtain ⟨_, _, p, -, -, _, _, accounts, -, ha, _, _, data, -, hd, -, rfl⟩ := h
  exact ⟨length_of_vector ha, length_of_vector hd⟩

theorem length_of_message {m : Message} (h : message w m) :
    m.instructions.length < 65536 ∧
      ∀ c ∈ m.instructions, c.accounts.length < 65536 ∧ c.data.length < 65536 := by
  have hafter {v0 : Bool} {n : UInt8} {w : Bytes} (h : afterRequired v0 n w m) :
      ∃ u, vector compiled u m.instructions := by
    obtain ⟨_, _, _, -, -, _, _, _, -, -, _, _, _, -, -, _, _, _, -, -, u, _, ins, -, hins, _, _, _, -,
      -, -, rfl⟩ := h
    exact ⟨u, hins⟩
  have hvector : ∃ u, vector compiled u m.instructions := by
    obtain ⟨_, _, a, -, -, h⟩ := h
    split at h
    · exact hafter h
    · split at h
      · obtain ⟨_, _, b, -, -, h⟩ := h
        exact hafter h
      · exact h.elim
  obtain ⟨u, hu⟩ := hvector
  refine ⟨length_of_vector hu, fun c hc => ?_⟩
  obtain ⟨v, hv⟩ := forall_of_vector hu c hc
  exact length_of_compiled hv

end Lengths

end Synsema.Solana
