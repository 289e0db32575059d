import Synsema.Algorand.Meaning
import Synsema.Cbor.WellFormed

/-!
# Canonical bytes

The canonical words of msgpack: numbers and lengths in their shortest form, the keys of each map in
strict order, and no entry that holds zero.  A list of bytes is such a word for one tree at most.

What `algorand_tx` writes is the word of what the transaction says (`algorandTx_canonical_iff`), but
for a length of 2^32 or more, which no head of msgpack has room for.
-/

namespace Synsema.Algorand

open Text Bytesutil List
open Captoken (beBytes)
open Captoken.Cur (beNat beNat_beBytes beNat_lt length_beBytes)
open Cbor (number)
open Blockchain (Stop)
open Eip712 (SynValue)

/-! ## The grammar -/

/-- What the head of an item says: a number, a truth value, or how long the rest of it is. -/
inductive Head where
  | uint (n : Nat)
  | bool (b : Bool)
  | bin (len : Nat)
  | str (len : Nat)
  | list (len : Nat)
  | map (len : Nat)

/-- The heads with a number behind the first byte: in how many bytes it stands, and the least number
that needs as many. -/
def forms : List (UInt8 × (Nat → Head) × Nat × Nat) :=
  [(0xc4, .bin, 1, 0), (0xc5, .bin, 2, 0x100), (0xc6, .bin, 4, 0x10000),
    (0xcc, .uint, 1, 0x80), (0xcd, .uint, 2, 0x100), (0xce, .uint, 4, 0x10000),
    (0xcf, .uint, 8, 0x100000000),
    (0xd9, .str, 1, 0x20), (0xda, .str, 2, 0x100), (0xdb, .str, 4, 0x10000),
    (0xdc, .list, 2, 0x10), (0xdd, .list, 4, 0x10000),
    (0xde, .map, 2, 0x10), (0xdf, .map, 4, 0x10000)]

/-- What follows the first byte of a head. -/
def headOf (b : UInt8) : Grammar UInt8 Head :=
  if b ≤ 0x7f then pure (.uint b.toNat)
  else if b ≤ 0x8f then pure (.map (b &&& 0x0f).toNat)
  else if b ≤ 0x9f then pure (.list (b &&& 0x0f).toNat)
  else if b ≤ 0xbf then pure (.str (b &&& 0x1f).toNat)
  else if b = 0xc2 then pure (.bool false)
  else if b = 0xc3 then pure (.bool true)
  else
    match forms.lookup b with
    | some (form, width, least) => do return form (← (number width).filter fun n => least ≤ n)
    | none => Grammar.never

/-- A head. -/
def head : Grammar UInt8 Head := do headOf (← Grammar.one)

/-- A text of so many bytes. -/
def text (len : Nat) : Grammar UInt8 Text := fun w t => w.length = len ∧ utf8 t = w

/-- A key. -/
def key : Grammar UInt8 Text := do
  match ← head with
  | .str len => text len
  | _ => Grammar.never

/-- An item of at most so many levels. -/
def item : Nat → Grammar UInt8 Mp
  | 0 => Grammar.never
  | n + 1 => do
    match ← head with
    | .uint v => return .uint (.ofNat v)
    | .bool b => return .bool b
    | .bin len => return .bytes (← Grammar.block len)
    | .str len => return .str (← text len)
    | .list len => return .list (← (item n).times len)
    | .map len =>
      return .map (← (Grammar.times (do return (← key, ← item n)) len).filter fun entries =>
        Mp.Sorted entries ∧ ∀ p ∈ entries, ¬p.2.datum.IsZero)

/-- Canonical msgpack for what is said. -/
def IsCanonical (b : Bytes) (d : Datum) : Prop := ∃ n m, item n b m ∧ m.datum = d

/-! ### The grammar is unambiguous -/

theorem unambiguous_head : head.Unambiguous := by
  refine Grammar.Unambiguous.one.bind fun b => ?_
  refine .ite (fun _ => .pure _) fun _ => .ite (fun _ => .pure _) fun _ =>
    .ite (fun _ ↦ .pure _) fun _ ↦ .ite (fun _ ↦ .pure _) fun _ ↦ .ite (fun _ ↦ .pure _) fun _ ↦
    .ite (fun _ => .pure _) fun _ => ?_
  split
  · exact ((Cbor.unambiguous_number _).filter _).bind fun _ => .pure _
  · exact .never

theorem unambiguous_text (len : Nat) : (text len).Unambiguous := by
  rintro u t u' t' s s' ⟨hu, rfl⟩ ⟨hu', rfl⟩ h
  have heq := (append_inj h (hu.trans hu'.symm)).1
  exact ⟨heq, utf8_injective heq⟩

theorem unambiguous_key : key.Unambiguous := by
  refine unambiguous_head.bind fun h => ?_
  cases h with
  | str len => exact unambiguous_text len
  | _ => exact .never

theorem unambiguous_item (n : Nat) : (item n).Unambiguous := by
  induction n with
  | zero => exact .never
  | succ n ih =>
    have hpair : Grammar.Unambiguous (do return (← key, ← item n)) :=
      unambiguous_key.bind fun _ => ih.bind fun _ => .pure _
    refine unambiguous_head.bind fun h => ?_
    cases h with
    | uint v | bool b => exact .pure _
    | bin len => exact (Grammar.Unambiguous.block len).bind fun _ => .pure _
    | str len => exact (unambiguous_text len).bind fun _ => .pure _
    | list len => exact (ih.times len).bind fun _ => .pure _
    | map len => exact ((hpair.times len).filter _).bind fun _ => .pure _

/-! ### Words are canonical -/

/-- The number in a head has room in it. -/
def Head.Fits : Head → Prop
  | .uint n => n < 2 ^ 64
  | .bool _ => True
  | .bin len | .str len | .list len | .map len => len < 2 ^ 32

theorem fits_forms : ∀ f ∈ forms, ∀ n < 256 ^ f.2.2.1, (f.2.1 n).Fits := by
  simp only [forms, forall_mem_cons, Head.Fits]
  refine ⟨?_, ?_, ?_, ?_, ?_, ?_, ?_, ?_, ?_, ?_, ?_, ?_, ?_, ?_, nofun⟩ <;> omega

variable {w : Bytes} {n : Nat} {m : Mp} {c : UInt8}

theorem lt_of_number {k : Nat} (h : number k w n) : n < 256 ^ k := by
  obtain ⟨b, ⟨hlen, rfl⟩, rfl⟩ := Grammar.map_iff.mp h
  exact hlen ▸ beNat_lt b

variable {h : Head} {k : Text} {b : Bytes}

theorem fits_head (hw : head w h) : h.Fits := by
  obtain ⟨u, v, b, rfl, rfl, hv⟩ := hw
  have hb := b.toNat_lt
  have hlow (mask : UInt8) : (b &&& mask).toNat < 2 ^ 32 := by
    have := (b &&& mask).toNat_lt
    omega
  change headOf b v h at hv
  unfold headOf at hv
  split_ifs at hv
  · obtain ⟨-, rfl⟩ := hv
    show b.toNat < 2 ^ 64
    omega
  · obtain ⟨-, rfl⟩ := hv
    exact hlow _
  · obtain ⟨-, rfl⟩ := hv
    exact hlow _
  · obtain ⟨-, rfl⟩ := hv
    exact hlow _
  · obtain ⟨-, rfl⟩ := hv
    trivial
  · obtain ⟨-, rfl⟩ := hv
    trivial
  · cases hform : forms.lookup b with
    | none =>
      rw [hform] at hv
      exact hv.elim
    | some f =>
      rw [hform] at hv
      obtain ⟨n, ⟨hn, -⟩, rfl⟩ := Grammar.map_iff.mp hv
      obtain ⟨l₁, l₂, heq, -⟩ := lookup_eq_some_iff.mp hform
      exact fits_forms _ (heq ▸ mem_append_right _ mem_cons_self) n (lt_of_number hn)

theorem fits_key (h : key w k) : (utf8 k).length < 2 ^ 32 := by
  obtain ⟨u, v, hd, rfl, hu, hv⟩ := h
  have hfits := fits_head hu
  cases hd with
  | str len =>
    obtain ⟨rfl, hk⟩ := hv
    exact hk ▸ hfits
  | _ => exact hv.elim

theorem item_canonical (h : item n w m) : m.Canonical ∧ m.Fits := by
  induction n generalizing w m with
  | zero => exact h.elim
  | succ n ih =>
    obtain ⟨u, v, hd, rfl, hu, hv⟩ := h
    have hfits := fits_head hu
    cases hd with
    | uint n =>
      obtain ⟨-, rfl⟩ := hv
      exact ⟨.uint _, .uint _⟩
    | bool b =>
      obtain ⟨-, rfl⟩ := hv
      exact ⟨.bool b, .bool b⟩
    | bin len =>
      obtain ⟨b, ⟨hlen, rfl⟩, rfl⟩ := Grammar.map_iff.mp hv
      exact ⟨.bytes b, .bytes (hlen ▸ hfits)⟩
    | str len =>
      obtain ⟨t, ⟨hlen, hutf8⟩, rfl⟩ := Grammar.map_iff.mp hv
      rw [← hutf8] at hlen
      exact ⟨.str t, .str (hlen ▸ hfits)⟩
    | list len =>
      obtain ⟨items, hitems, rfl⟩ := Grammar.map_iff.mp hv
      obtain ⟨hlen, hall⟩ := Grammar.forall_of_times hitems
      have hall (v : Mp) (hv : v ∈ items) : v.Canonical ∧ v.Fits := ih (hall v hv).choose_spec
      exact ⟨.list fun v hv => (hall v hv).1, .list (hlen ▸ hfits) fun v hv => (hall v hv).2⟩
    | map len =>
      obtain ⟨entries, ⟨hentries, hsorted, hzero⟩, rfl⟩ := Grammar.map_iff.mp hv
      obtain ⟨hlen, hall⟩ := Grammar.forall_of_times hentries
      have hall (p : Text × Mp) (hp : p ∈ entries) :
          (utf8 p.1).length < 2 ^ 32 ∧ p.2.Canonical ∧ p.2.Fits := by
        obtain ⟨u, u₁, u₂, k, -, hk, hitem⟩ := hall p hp
        obtain ⟨v, hv, rfl⟩ := Grammar.map_iff.mp hitem
        exact ⟨fits_key hk, ih hv⟩
      exact ⟨.map hsorted hzero fun p hp => (hall p hp).2.1,
        .map (hlen ▸ hfits) (fun p hp => (hall p hp).1) fun p hp => (hall p hp).2.2⟩

/-! ### What is written is a word -/

theorem number_beBytes {v : Nat} (h : v < 256 ^ n) : number n (beBytes n v) v :=
  Grammar.map_iff.mpr ⟨_, ⟨length_beBytes n v, rfl⟩, (beNat_beBytes h).symm⟩

theorem headOf_of_lt (hc : 0xc3 < c) : headOf c =
    match forms.lookup c with
    | some (form, width, least) => do return form (← (number width).filter fun n => least ≤ n)
    | none => Grammar.never := by
  have hnle {d : UInt8} (hd : d < 0xc3) : ¬c ≤ d := UInt8.not_le.mpr (UInt8.lt_trans hd hc)
  have hne : c ≠ 0xc3 := (UInt8.ne_of_lt hc).symm
  have hne' : c ≠ 0xc2 := (UInt8.ne_of_lt (UInt8.lt_trans (by decide) hc)).symm
  rw [headOf, if_neg (hnle (by decide)), if_neg (hnle (by decide)), if_neg (hnle (by decide)),
    if_neg (hnle (by decide)), if_neg hne', if_neg hne]

theorem head_form {form : Nat → Head} {width least : Nat} (hc : 0xc3 < c)
    (hform : forms.lookup c = some (form, width, least)) (hn : least ≤ n) (hlt : n < 256 ^ width) :
    head (c :: beBytes width n) (form n) := by
  refine ⟨[c], beBytes width n, c, rfl, rfl, ?_⟩
  show headOf c _ _
  rw [headOf_of_lt hc, hform]
  exact Grammar.map_iff.mpr ⟨n, ⟨number_beBytes hlt, hn⟩, rfl⟩

theorem head_one (hc : headOf c = pure h) : head [c] h := by
  refine ⟨[c], [], c, rfl, rfl, ?_⟩
  show headOf c [] h
  rw [hc]
  exact ⟨rfl, rfl⟩

theorem head_uint (n : UInt64) : head (Captoken.Mp.uint n.toNat) (.uint n.toNat) := by
  have hn := n.toNat_lt
  unfold Captoken.Mp.uint
  split_ifs with h₁ h₂ h₃ h₄
  · have hbyte : (UInt8.ofNat n.toNat).toNat = n.toNat := by
      rw [UInt8.toNat_ofNat', Nat.mod_eq_of_lt (by omega)]
    have hle : UInt8.ofNat n.toNat ≤ 0x7f := UInt8.le_iff_toNat_le.mpr (hbyte.symm ▸ h₁)
    apply head_one
    rw [headOf, if_pos hle, hbyte]
  · exact head_form (by decide) rfl (by omega) (by omega)
  · exact head_form (by decide) rfl (by omega) (by omega)
  · exact head_form (by decide) rfl (by omega) (by omega)
  · exact head_form (by decide) rfl (by omega) (by omega)

theorem head_bool (b : Bool) : head [if b then 0xc3 else 0xc2] (.bool b) := by
  apply head_one
  cases b <;> rfl

theorem head_map (hn : n < 2 ^ 32) : head (Captoken.Mp.mapHead n) (.map n) := by
  unfold Captoken.Mp.mapHead
  split_ifs with h₁ h₂
  · obtain ⟨hlo, hhi, hlen⟩ := Captoken.Cur.head_spec.2.1 n (by omega)
    apply head_one
    rw [headOf, if_neg (UInt8.not_le.mpr (UInt8.lt_of_lt_of_le (by decide) hlo)), if_pos hhi, hlen]
  · exact head_form (by decide) rfl (by omega) (by omega)
  · exact head_form (by decide) rfl (by omega) (by omega)

theorem head_list (hn : n < 2 ^ 32) : head (Captoken.Mp.listHead n) (.list n) := by
  unfold Captoken.Mp.listHead
  split_ifs with h₁ h₂
  · obtain ⟨hlo, hhi, hlen⟩ := Captoken.Cur.head_spec.2.2 n (by omega)
    have hnle {d : UInt8} (hd : d < 0x90) : ¬0x90 ||| UInt8.ofNat n ≤ d :=
      UInt8.not_le.mpr (UInt8.lt_of_lt_of_le hd hlo)
    apply head_one
    rw [headOf, if_neg (hnle (by decide)), if_neg (hnle (by decide)), if_pos hhi, hlen]
  · exact head_form (by decide) rfl (by omega) (by omega)
  · exact head_form (by decide) rfl (by omega) (by omega)

theorem exists_head_bytes (hb : b.length < 2 ^ 32) :
    ∃ u, Captoken.Mp.bytes b = u ++ b ∧ head u (.bin b.length) := by
  refine ⟨_, rfl, ?_⟩
  split_ifs with h₁ h₂
  · exact head_form (by decide) rfl (by omega) (by omega)
  · exact head_form (by decide) rfl (by omega) (by omega)
  · exact head_form (by decide) rfl (by omega) (by omega)

theorem exists_head_str {t : Text} (ht : (utf8 t).length < 2 ^ 32) :
    ∃ u, Captoken.Mp.str t = u ++ utf8 t ∧ head u (.str (utf8 t).length) := by
  refine ⟨_, rfl, ?_⟩
  generalize (utf8 t).length = n at ht ⊢
  split_ifs with h₁ h₂ h₃
  · obtain ⟨hlo, hhi, hlen⟩ := Captoken.Cur.head_spec.1 n (by omega)
    have hnle {d : UInt8} (hd : d < 0xa0) : ¬0xa0 ||| UInt8.ofNat n ≤ d :=
      UInt8.not_le.mpr (UInt8.lt_of_lt_of_le hd hlo)
    apply head_one
    rw [headOf, if_neg (hnle (by decide)), if_neg (hnle (by decide)), if_neg (hnle (by decide)),
      if_pos hhi, hlen]
  · exact head_form (by decide) rfl (by omega) (by omega)
  · exact head_form (by decide) rfl (by omega) (by omega)
  · exact head_form (by decide) rfl (by omega) (by omega)

theorem key_str (hk : (utf8 k).length < 2 ^ 32) : key (Captoken.Mp.str k) k := by
  obtain ⟨u, heq, hu⟩ := exists_head_str hk
  rw [heq]
  exact ⟨u, utf8 k, _, rfl, hu, rfl, rfl⟩

theorem writeEntries_eq (entries : List (Text × Mp)) :
    writeEntries entries = entries.flatMap fun p => Captoken.Mp.str p.1 ++ mpWrite p.2 := by
  induction entries with
  | nil => rfl
  | cons p entries ih => rw [flatMap_cons, ← ih, writeEntries, append_assoc]

theorem writeItems_eq (items : List Mp) : writeItems items = items.flatMap mpWrite := by
  induction items with
  | nil => rfl
  | cons v items ih => rw [flatMap_cons, ← ih, writeItems]

theorem item_mpWrite (hm : m.Canonical) (hfits : m.Fits) (hn : sizeOf m ≤ n) :
    item (n + 1) (mpWrite m) m := by
  induction hm generalizing n with
  | uint v =>
    refine ⟨_, [], _, (append_nil _).symm, head_uint v, rfl, ?_⟩
    rw [UInt64.ofNat_toNat]
  | bool b => exact ⟨_, [], _, (append_nil _).symm, head_bool b, rfl, rfl⟩
  | bytes b =>
    cases hfits with
    | bytes hlen =>
      obtain ⟨u, heq, hu⟩ := exists_head_bytes hlen
      exact ⟨u, b, _, heq, hu, Grammar.map_iff.mpr ⟨b, ⟨rfl, rfl⟩, rfl⟩⟩
  | str t =>
    cases hfits with
    | str hlen =>
      obtain ⟨u, heq, hu⟩ := exists_head_str hlen
      exact ⟨u, utf8 t, _, heq, hu, Grammar.map_iff.mpr ⟨t, ⟨rfl, rfl⟩, rfl⟩⟩
  | @list items h ih =>
    cases hfits with
    | list hlen hv =>
      have hitem (v : Mp) (hmem : v ∈ items) : item n (mpWrite v) v := by
        have hlt := sizeOf_lt_of_mem hmem
        have hsize := Mp.list.sizeOf_spec items
        obtain ⟨k, rfl⟩ : ∃ k, n = k + 1 := ⟨n - 1, by omega⟩
        exact ih v hmem (hv v hmem) (by omega)
      refine ⟨_, _, _, rfl, head_list hlen, Grammar.map_iff.mpr ⟨items, ?_, rfl⟩⟩
      rw [writeItems_eq]
      exact Grammar.times_flatMap hitem
  | @map entries hsorted hzero h ih =>
    cases hfits with
    | map hlen hkeys hv =>
      have hitem (p : Text × Mp) (hmem : p ∈ entries) : item n (mpWrite p.2) p.2 := by
        have hlt := sizeOf_lt_of_mem hmem
        have hsize := Mp.map.sizeOf_spec entries
        have hpair : sizeOf p = 1 + sizeOf p.1 + sizeOf p.2 := rfl
        obtain ⟨k, rfl⟩ : ∃ k, n = k + 1 := ⟨n - 1, by omega⟩
        exact ih p hmem (hv p hmem) (by omega)
      refine ⟨_, _, _, rfl, head_map hlen,
        Grammar.map_iff.mpr ⟨entries, ⟨?_, hsorted, hzero⟩, rfl⟩⟩
      rw [writeEntries_eq]
      refine Grammar.times_flatMap fun p hp => ?_
      exact ⟨_, _, p.1, rfl, key_str (hkeys p hp),
        Grammar.map_iff.mpr ⟨p.2, hitem p hp, rfl⟩⟩

theorem eq_of_mpWrite {m' : Mp} (hm : m.Canonical) (hm' : m'.Canonical) (hfits : m.Fits)
    (hfits' : m'.Fits) (h : mpWrite m = mpWrite m') : m = m' := by
  have hword := item_mpWrite hm hfits (le_max_left (sizeOf m) (sizeOf m'))
  have hword' := item_mpWrite hm' hfits' (le_max_right (sizeOf m) (sizeOf m'))
  rw [← h] at hword'
  exact (unambiguous_item _).eq hword hword'

theorem IsCanonical.fits {d : Datum} (h : IsCanonical b d) : d.Fits := by
  obtain ⟨n, m, hm, rfl⟩ := h
  obtain ⟨hcanonical, hfits⟩ := item_canonical hm
  exact (Mp.fits_datum hcanonical).mpr hfits

/-! ## Transactions -/

/-- A value of the program, whose maps have each key once. -/
structure Transaction where
  value : SynValue
  distinct : Distinct value

section Transactions

variable (sha512_256 : Bytes → Bytes) (debug : Char → Text)

/-- What a transaction says. -/
noncomputable def Transaction.meaning (t : Transaction) : Datum :=
  Algorand.meaning debug txnAddrKeys t.value

/-- `algorand_tx` succeeds on the transaction, with what it answers. -/
def Transaction.Builds (t : Transaction) (r : SynValue) : Prop :=
  ∃ rest, algorandTx sha512_256 debug (t.value :: rest) = .ok r

variable {sha512_256 debug}

theorem Transaction.Builds.exists_mp {t : Transaction} {r : SynValue}
    (h : t.Builds sha512_256 debug r) : ∃ mp : Mp,
      r = .bytes (domainTag ++ mpWrite mp) ∧ mp.Canonical ∧ mp.datum = t.meaning debug := by
  obtain ⟨rest, h⟩ := h
  have hbuilds : (do
      let mp ← txnToMp sha512_256 debug "algorand_tx" t.value
      Except.ok (.bytes (domainTag ++ mpWrite mp))) = Except.ok r := by
    unfold algorandTx at h
    split at h
    · exact nomatch h
    · exact nomatch h
    · next heq =>
      obtain ⟨rfl, -⟩ := cons.inj heq
      exact h
  obtain ⟨mp, hmp, h⟩ := Except.bind_eq_ok.mp hbuilds
  cases h
  exact ⟨mp, rfl, txnToMp_stands t.distinct hmp⟩

variable (sha512_256 debug)

/-- In a class of transactions each is written as canonical msgpack for what it says, and two are
written alike if and only if they say the same, exactly where no length in what they say is 2^32 or
more. -/
theorem algorandTx_canonical_iff (S : Set Transaction) :
    ((∀ t ∈ S, ∀ r, t.Builds sha512_256 debug r →
        ∃ b, r = .bytes (domainTag ++ b) ∧ IsCanonical b (t.meaning debug)) ∧
      ∀ t ∈ S, ∀ t' ∈ S, ∀ r r', t.Builds sha512_256 debug r → t'.Builds sha512_256 debug r' →
        (r = r' ↔ t.meaning debug = t'.meaning debug)) ↔
      ∀ t ∈ S, ∀ r, t.Builds sha512_256 debug r → (t.meaning debug).Fits := by
  constructor
  · rintro ⟨h, -⟩ t ht r hr
    obtain ⟨b, -, hb⟩ := h t ht r hr
    exact hb.fits
  · intro hfits
    -- a tree that is built fits where what it says does
    have hbuilt {t : Transaction} (ht : t ∈ S) {r : SynValue} (hr : t.Builds sha512_256 debug r) :
        ∃ mp : Mp, r = .bytes (domainTag ++ mpWrite mp) ∧ mp.Canonical ∧ mp.Fits ∧
          mp.datum = t.meaning debug := by
      obtain ⟨mp, rfl, hcanonical, hdatum⟩ := hr.exists_mp
      refine ⟨mp, rfl, hcanonical, (Mp.fits_datum hcanonical).mp ?_, hdatum⟩
      exact hdatum ▸ hfits t ht _ hr
    constructor
    · intro t ht r hr
      obtain ⟨mp, rfl, hcanonical, hmp, hdatum⟩ := hbuilt ht hr
      exact ⟨mpWrite mp, rfl, _, mp, item_mpWrite hcanonical hmp le_rfl, hdatum⟩
    · intro t ht t' ht' r r' hr hr'
      obtain ⟨mp, rfl, hcanonical, hmp, hdatum⟩ := hbuilt ht hr
      obtain ⟨mp', rfl, hcanonical', hmp', hdatum'⟩ := hbuilt ht' hr'
      rw [← hdatum, ← hdatum']
      constructor
      · intro h
        have hwrite := append_cancel_left (SynValue.bytes.inj h)
        rw [eq_of_mpWrite hcanonical hcanonical' hmp hmp' hwrite]
      · intro h
        rw [Mp.eq_of_datum hcanonical hcanonical' h]

/-- A transaction with a note. -/
def noteTransaction (note : Bytes) : Transaction where
  value := .map [("note", .bytes note)]
  distinct := .map (nodup_singleton _) (forall_mem_singleton.mpr (.bytes note))

theorem noteTransaction_builds {note : Bytes} (h : note ≠ []) :
    (noteTransaction note).Builds sha512_256 debug
      (.bytes (domainTag ++ mpWrite (.map [("note", .bytes note)]))) := by
  have hkey : "note".toList ∉ txnAddrKeys := by decide
  have hbytes :
      bytesToMp "algorand_tx" ("txn" ++ "." ++ "note") 1 note =
        .ok (some (.bytes note)) := by
    show Except.ok (if note = [] then none else some (Mp.bytes note)) = _
    rw [if_neg h]
  have hentries : entriesToMp sha512_256 debug "algorand_tx" "txn" txnAddrKeys 0
      [("note", .bytes note)] = .ok [("note", .bytes note)] := by
    rw [entriesToMp, if_neg hkey, toMp, hbytes]
    rfl
  have hmp : toMp sha512_256 debug "algorand_tx" "txn" txnAddrKeys 0
      (noteTransaction note).value = .ok (some (.map [("note", .bytes note)])) := by
    rw [noteTransaction, toMp, hentries]
    rfl
  refine ⟨[], ?_⟩
  show (toMp sha512_256 debug "algorand_tx" "txn" txnAddrKeys 0
      (noteTransaction note).value >>= _) >>= _ = _
  rw [hmp]
  rfl

end Transactions

/-- A note of 2^32 bytes is written with a length of 0. -/
theorem algorandTx_long_note : ∃ r : SynValue,
    (noteTransaction (replicate (2 ^ 32) 0)).Builds (fun _ => []) (fun _ => []) r ∧
      ¬∃ b, r = .bytes (domainTag ++ b) ∧
        IsCanonical b ((noteTransaction (replicate (2 ^ 32) 0)).meaning fun _ => []) := by
  have hlen : (replicate (2 ^ 32) (0 : UInt8)).length = 2 ^ 32 := length_replicate
  generalize replicate (2 ^ 32) (0 : UInt8) = note at hlen
  have hne : note ≠ [] := by
    rintro rfl
    exact absurd hlen (by decide)
  refine ⟨_, noteTransaction_builds _ _ hne, ?_⟩
  rintro ⟨b, -, hb⟩
  have hsays :
      entriesMeaning (fun _ => []) txnAddrKeys [("note", .bytes note)] "note" =
        some (.bytes note) := by
    have hzero : ¬(Datum.bytes note).IsZero := hne
    rw [entriesMeaning, if_pos rfl, if_neg (by decide), meaning, Datum.kept, if_neg hzero]
  obtain ⟨⟩ | ⟨⟩ | ⟨⟩ | ⟨⟩ | ⟨-, -, hmap⟩ | ⟨⟩ := hb.fits
  obtain ⟨⟩ | ⟨⟩ | hlt := hmap _ _ hsays
  exact absurd hlt (by omega)

end Synsema.Algorand
