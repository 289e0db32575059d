import Synsema.Algorand.Model
import Synsema.Lib.Lookup
import Mathlib.Data.Set.Card

/-!
# What a transaction says

A transaction says for each key what it holds, unless that is zero.  A field that is an address
holds 32 bytes, whichever way it was written.  In which order the keys stand it does not say, and
for that the bytes of the keys decide: a canonical tree is told apart by what it says
(`eq_of_datum`).

The tree that is built of a transaction is canonical and says what the transaction says
(`txnToMp_stands`).
-/

namespace Synsema.Algorand

open Text Bytesutil List
open Except (bind_eq_ok)
open Abi (fail asBigint num)
open Blockchain (Stop)
open Eip712 (SynValue)

/-! ## Data -/

/-- What a value says. -/
inductive Datum where
  | uint (n : Nat)
  | bool (b : Bool)
  | bytes (b : Bytes)
  | text (t : Text)
  | map (f : Text → Option Datum)
  | list (items : List Datum)

namespace Datum

/-- 0, false, and what is empty. -/
def IsZero : Datum → Prop
  | .uint n => n = 0
  | .bool b => b = false
  | .bytes b => b = []
  | .text t => t = []
  | .map f => ∀ k, f k = none
  | .list items => items = []

open Classical in
/-- What a map keeps of a value. -/
noncomputable def kept (d : Datum) : Option Datum := if d.IsZero then none else some d

/-- Every length in it is less than 2^32. -/
inductive Fits : Datum → Prop
  | uint (n : Nat) : Fits (.uint n)
  | bool (b : Bool) : Fits (.bool b)
  | bytes {b : Bytes} (h : b.length < 2 ^ 32) : Fits (.bytes b)
  | text {t : Text} (h : (utf8 t).length < 2 ^ 32) : Fits (.text t)
  | map {f : Text → Option Datum} (hcard : {k | f k ≠ none}.ncard < 2 ^ 32)
      (hkeys : ∀ k, f k ≠ none → (utf8 k).length < 2 ^ 32) (h : ∀ k d, f k = some d → Fits d) :
      Fits (.map f)
  | list {items : List Datum} (hlen : items.length < 2 ^ 32) (h : ∀ d ∈ items, Fits d) :
      Fits (.list items)

end Datum

/-! ## Values -/

section Meaning

variable (debug : Char → Text)

/-- The 32 bytes of an address. -/
def addressBytes : SynValue → Bytes
  | .text s => ((base32Decode debug s).toOption.getD []).take 32
  | .bytes b => b
  | _ => []

mutual

/-- What a value says, of whose fields some are addresses. -/
noncomputable def meaning (addrKeys : List Text) : SynValue → Datum
  | .number n => .uint ((asBigint n).getD 0).toNat
  | .bool b => .bool b
  | .bytes b => .bytes b
  | .text s => .text s
  | .map m => .map (entriesMeaning addrKeys m)
  | .list items => .list (itemsMeaning items)
  -- no part of a transaction
  | .secret | .other _ => .bool false

/-- What a map holds at a key. -/
noncomputable def entriesMeaning (addrKeys : List Text) :
    List (Text × SynValue) → Text → Option Datum
  | [], _ => none
  | (k, v) :: m, key =>
    if key = k then
      (if k ∈ addrKeys then Datum.bytes (addressBytes debug v)
        else meaning (childAddr k) v).kept
    else entriesMeaning addrKeys m key

/-- What the elements of a list say. -/
noncomputable def itemsMeaning : List SynValue → List Datum
  | [] => []
  | it :: items => meaning [] it :: itemsMeaning items

end

end Meaning

/-- No map in the value has a key twice: a `SynMap` has none. -/
inductive Distinct : SynValue → Prop
  | bool (b : Bool) : Distinct (.bool b)
  | number (n : Number) : Distinct (.number n)
  | text (t : Text) : Distinct (.text t)
  | bytes (b : Bytes) : Distinct (.bytes b)
  | secret : Distinct .secret
  | list {items : List SynValue} (h : ∀ it ∈ items, Distinct it) : Distinct (.list items)
  | map {m : List (Text × SynValue)} (hkeys : (m.map Prod.fst).Nodup)
      (h : ∀ p ∈ m, Distinct p.2) : Distinct (.map m)
  | other (typeName : Text) : Distinct (.other typeName)

/-! ## Trees -/

namespace Mp

mutual

/-- What a tree says. -/
def datum : Mp → Datum
  | .uint n => .uint n.toNat
  | .bool b => .bool b
  | .bytes b => .bytes b
  | .str t => .text t
  | .map entries => .map (entriesDatum entries)
  | .list items => .list (itemsDatum items)

/-- What a map holds at a key. -/
def entriesDatum : List (Text × Mp) → Text → Option Datum
  | [], _ => none
  | (k, v) :: entries, key => if key = k then some (datum v) else entriesDatum entries key

/-- What the elements of a list say. -/
def itemsDatum : List Mp → List Datum
  | [] => []
  | v :: items => datum v :: itemsDatum items

end

/-- The keys are in the order of their bytes. -/
abbrev Sorted (entries : List (Text × Mp)) : Prop :=
  entries.Pairwise fun a b => keyBytes a.1 < keyBytes b.1

/-- The keys of each map are in order, and each holds something. -/
inductive Canonical : Mp → Prop
  | uint (n : UInt64) : Canonical (.uint n)
  | bool (b : Bool) : Canonical (.bool b)
  | bytes (b : Bytes) : Canonical (.bytes b)
  | str (t : Text) : Canonical (.str t)
  | map {entries : List (Text × Mp)} (hsorted : Sorted entries)
      (hzero : ∀ p ∈ entries, ¬p.2.datum.IsZero) (h : ∀ p ∈ entries, Canonical p.2) :
      Canonical (.map entries)
  | list {items : List Mp} (h : ∀ v ∈ items, Canonical v) : Canonical (.list items)

/-- Every length in it is less than 2^32. -/
inductive Fits : Mp → Prop
  | uint (n : UInt64) : Fits (.uint n)
  | bool (b : Bool) : Fits (.bool b)
  | bytes {b : Bytes} (h : b.length < 2 ^ 32) : Fits (.bytes b)
  | str {t : Text} (h : (utf8 t).length < 2 ^ 32) : Fits (.str t)
  | map {entries : List (Text × Mp)} (hlen : entries.length < 2 ^ 32)
      (hkeys : ∀ p ∈ entries, (utf8 p.1).length < 2 ^ 32) (h : ∀ p ∈ entries, Fits p.2) :
      Fits (.map entries)
  | list {items : List Mp} (hlen : items.length < 2 ^ 32) (h : ∀ v ∈ items, Fits v) :
      Fits (.list items)

theorem entriesDatum_eq (entries : List (Text × Mp)) (key : Text) :
    entriesDatum entries key = (entries.lookup key).map datum := by
  induction entries with
  | nil => rfl
  | cons p entries ih =>
    obtain ⟨k, v⟩ := p
    rw [entriesDatum, lookup_cons, ih]
    by_cases h : key = k
    · rw [if_pos h, beq_iff_eq.mpr h]
      rfl
    · rw [if_neg h, beq_eq_false_iff_ne.mpr h]

theorem itemsDatum_eq (items : List Mp) : itemsDatum items = items.map datum := by
  induction items with
  | nil => rfl
  | cons v items ih => rw [itemsDatum, map_cons, ih]

theorem keyBytes_injective {k k' : Text} (h : keyBytes k = keyBytes k') : k = k' := by
  apply utf8_injective
  apply map_injective_iff.mpr _ h
  exact fun a b hab => UInt8.toNat_inj.mp hab

/-! ### Canonical trees -/

variable {m : Mp} {entries : List (Text × Mp)}

theorem eq_of_datum {m' : Mp} (h : m.Canonical) (h' : m'.Canonical) (hd : m.datum = m'.datum) :
    m = m' := by
  induction h generalizing m' with
  | uint n =>
    cases h' with
    | uint n' => exact congrArg Mp.uint (UInt64.toNat_inj.mp (Datum.uint.inj hd))
    | _ => injection hd
  | bool b =>
    cases h' with
    | bool b' => exact congrArg Mp.bool (Datum.bool.inj hd)
    | _ => injection hd
  | bytes b =>
    cases h' with
    | bytes b' => exact congrArg Mp.bytes (Datum.bytes.inj hd)
    | _ => injection hd
  | str t =>
    cases h' with
    | str t' => exact congrArg Mp.str (Datum.text.inj hd)
    | _ => injection hd
  | @list items h ih =>
    cases h' with
    | @list items' h' =>
      have hmap := Datum.list.inj hd
      rw [itemsDatum_eq, itemsDatum_eq] at hmap
      exact congrArg Mp.list (Lookup.eq_of_map_eq (fun v hv v' hv' => ih v hv (h' v' hv')) hmap)
    | _ => injection hd
  | @map entries hsorted hzero h ih =>
    cases h' with
    | @map entries' hsorted' hzero' h' =>
      have hfun := Datum.map.inj hd
      -- the entries with what they say
      let said (p : Text × Mp) : Text × Datum := (p.1, p.2.datum)
      have hsaid {es : List (Text × Mp)} (hes : Sorted es) :
          (es.map said).Pairwise fun a b => keyBytes a.1 < keyBytes b.1 :=
        pairwise_map.mpr hes
      have hmap : entries.map said = entries'.map said := by
        refine Lookup.eq_of_lookup (hsaid hsorted) (hsaid hsorted') fun k => ?_
        rw [Lookup.lookup_map, Lookup.lookup_map, ← entriesDatum_eq, ← entriesDatum_eq, hfun]
      refine congrArg Mp.map (Lookup.eq_of_map_eq (fun p hp p' hp' heq => ?_) hmap)
      obtain ⟨hk, hv⟩ := Prod.mk.inj heq
      exact Prod.ext hk (ih p hp (h' p' hp') hv)
    | _ => injection hd

theorem fits_datum (h : m.Canonical) : m.datum.Fits ↔ m.Fits := by
  induction h with
  | uint n => exact ⟨fun _ => .uint n, fun _ => .uint _⟩
  | bool b => exact ⟨fun _ => .bool b, fun _ => .bool b⟩
  | bytes b => exact ⟨fun | .bytes h => .bytes h, fun | .bytes h => .bytes h⟩
  | str t => exact ⟨fun | .text h => .str h, fun | .str h => .text h⟩
  | @list items h ih =>
    have hdatum : (Mp.list items).datum = .list (items.map datum) :=
      congrArg Datum.list (itemsDatum_eq items)
    rw [hdatum]
    constructor
    · rintro (_ | _ | _ | _ | _ | ⟨hlen, hd⟩)
      rw [length_map] at hlen
      exact .list hlen fun v hv => (ih v hv).mp (hd _ (mem_map_of_mem hv))
    · rintro (_ | _ | _ | _ | _ | ⟨hlen, hv⟩)
      refine .list (by rwa [length_map]) (forall_mem_map.mpr fun v hmem => ?_)
      exact (ih v hmem).mpr (hv v hmem)
  | @map entries hsorted hzero h ih =>
    have hnodup : (entries.map Prod.fst).Nodup := Lookup.nodup_of_sorted hsorted
    have hsome {p : Text × Mp} (hp : p ∈ entries) :
        entriesDatum entries p.1 = some p.2.datum := by
      rw [entriesDatum_eq, (Lookup.lookup_eq_some hnodup).mpr hp]
      rfl
    have hkeys (k : Text) : entriesDatum entries k ≠ none ↔ k ∈ entries.map Prod.fst := by
      rw [entriesDatum_eq, Ne, Option.map_eq_none_iff, Lookup.lookup_eq_none, not_not]
    have hcard : {k | entriesDatum entries k ≠ none}.ncard = entries.length := by
      have hset : {k | entriesDatum entries k ≠ none} =
          ((entries.map Prod.fst).toFinset : Set Text) := by
        ext k
        rw [coe_toFinset]
        exact hkeys k
      rw [hset, Set.ncard_coe_finset, toFinset_card_of_nodup hnodup, length_map]
    constructor
    · rintro (_ | _ | _ | _ | ⟨hlen, hlong, hd⟩ | _)
      refine .map (hcard ▸ hlen) (fun p hp => hlong _ ?_)
        fun p hp => (ih p hp).mp (hd _ _ (hsome hp))
      exact (hkeys p.1).mpr (mem_map_of_mem hp)
    · rintro (_ | _ | _ | _ | ⟨hlen, hlong, hp⟩ | _)
      refine .map (hcard ▸ hlen) (fun k hk => ?_) fun k d hk => ?_
      · obtain ⟨p, hmem, rfl⟩ := mem_map.mp ((hkeys k).mp hk)
        exact hlong p hmem
      · rw [entriesDatum_eq, Option.map_eq_some_iff] at hk
        obtain ⟨v, hv, rfl⟩ := hk
        have hmem := (Lookup.lookup_eq_some hnodup).mp hv
        exact (ih _ hmem).mpr (hp _ hmem)

theorem sortEntries_perm (entries : List (Text × Mp)) : (sortEntries entries).Perm entries :=
  perm_insertionSort _ entries

theorem entriesDatum_sortEntries (h : (entries.map Prod.fst).Nodup) :
    entriesDatum (sortEntries entries) = entriesDatum entries := by
  funext key
  rw [entriesDatum_eq, entriesDatum_eq, Lookup.lookup_perm h (sortEntries_perm entries).symm]

theorem sorted_sortEntries (h : (entries.map Prod.fst).Nodup) : Sorted (sortEntries entries) := by
  have hle :=
    pairwise_insertionSort (fun a b : Text × Mp => keyBytes a.1 ≤ keyBytes b.1) entries
  have hne : (sortEntries entries).Pairwise fun a b => a.1 ≠ b.1 := by
    apply pairwise_map.mp
    exact ((sortEntries_perm entries).map Prod.fst).nodup_iff.mpr h
  exact hle.imp₂ (fun _ _ hle hne => hle.lt_of_ne fun heq => hne (keyBytes_injective heq)) hne

end Mp

/-! ## What is built of a transaction -/

/-- There is no tree for what is zero, and a canonical one that says the rest. -/
def Stands (d : Datum) : Option Mp → Prop
  | none => d.IsZero
  | some m => ¬d.IsZero ∧ m.Canonical ∧ m.datum = d

section Conversion

variable {sha512_256 : Bytes → Bytes} {debug : Char → Text} {fname path : Text}
  {addrKeys : List Text} {depth : Nat}

variable {o : Option Mp} {v : SynValue}

theorem numberToMp_stands {n : Number} (h : numberToMp fname path n = .ok o) :
    Stands (.uint ((asBigint n).getD 0).toNat) o := by
  unfold numberToMp at h
  split at h
  · exact nomatch h
  · next big hbig =>
    rw [hbig]
    split_ifs at h with hneg hbound hzero
    · exact nomatch h
    · exact nomatch h
    · cases h
      subst hzero
      rfl
    · cases h
      refine ⟨?_, .uint _, ?_⟩
      · show big.toNat ≠ 0
        omega
      · show Datum.uint (UInt64.ofNat big.toNat).toNat = _
        rw [UInt64.toNat_ofNat_of_lt' (by show big.toNat < 2 ^ 64; omega)]
        rfl

theorem bytesToMp_stands {b : Bytes} (h : bytesToMp fname path depth b = .ok o) :
    Stands (.bytes b) o := by
  obtain ⟨-, -, h⟩ := bind_eq_ok.mp h
  cases h
  split_ifs with hb
  · exact hb
  · exact ⟨hb, .bytes b, rfl⟩

theorem addressField_eq {pk : Bytes} (h : addressField sha512_256 debug fname path v = .ok pk) :
    pk = addressBytes debug v := by
  cases v with
  | text s =>
    change addressToPubkey sha512_256 debug fname path s = .ok pk at h
    unfold addressToPubkey at h
    split_ifs at h with hlen
    · exact nomatch h
    · split at h
      · exact nomatch h
      · next raw hraw =>
        split_ifs at h with hraw' hcheck
        · exact nomatch h
        · exact nomatch h
        · cases h
          show _ = List.take 32 _
          rw [hraw]
          rfl
  | bytes b =>
    change (if b.length = 32 then _ else _) = _ at h
    split_ifs at h with hlen
    · cases h
      rfl
    · exact nomatch h
  | _ => exact nomatch h

variable {mp : Mp}

theorem inList_stands {it : SynValue} (ho : Stands (meaning debug addrKeys it) o)
    (h : inList it o = .ok mp) : mp.Canonical ∧ mp.datum = meaning debug addrKeys it := by
  cases o with
  | some m =>
    cases h
    exact ho.2
  | none =>
    cases it with
    | bool b =>
      cases h
      exact ⟨.bool false, congrArg Datum.bool (Eq.symm ho)⟩
    | number n =>
      cases h
      exact ⟨.uint 0, congrArg Datum.uint (Eq.symm ho)⟩
    | text t =>
      cases h
      exact ⟨.str [], congrArg Datum.text (Eq.symm ho)⟩
    | bytes b =>
      cases h
      exact ⟨.bytes [], congrArg Datum.bytes (Eq.symm ho)⟩
    | list items =>
      cases h
      exact ⟨.list nofun, congrArg Datum.list (Eq.symm ho)⟩
    | map m =>
      cases h
      refine ⟨.map .nil nofun nofun, congrArg Datum.map ?_⟩
      funext key
      exact (ho key).symm
    | secret | other typeName => exact nomatch h

theorem entriesToMp_stands {m : List (Text × SynValue)} {entries : List (Text × Mp)}
    (hm : ∀ p ∈ m, ∀ path addrKeys depth o,
      toMp sha512_256 debug fname path addrKeys depth p.2 = .ok o →
        Stands (meaning debug addrKeys p.2) o)
    (hnodup : (m.map Prod.fst).Nodup)
    (h : entriesToMp sha512_256 debug fname path addrKeys depth m = .ok entries) :
    (entries.map Prod.fst).Sublist (m.map Prod.fst) ∧
      (∀ p ∈ entries, ¬p.2.datum.IsZero ∧ p.2.Canonical) ∧
      Mp.entriesDatum entries = entriesMeaning debug addrKeys m := by
  induction m generalizing entries with
  | nil =>
    cases h
    exact ⟨.refl _, nofun, rfl⟩
  | cons p m ih =>
    obtain ⟨k, val⟩ := p
    obtain ⟨o, ho, h⟩ := bind_eq_ok.mp h
    obtain ⟨rest, hrest, h⟩ := bind_eq_ok.mp h
    obtain ⟨hk, hnodup⟩ := nodup_cons.mp hnodup
    obtain ⟨hsub, hvalues, hdatum⟩ :=
      ih (fun q hq => hm q (mem_cons_of_mem _ hq)) hnodup hrest
    -- what the map says at the key
    have hstands : Stands (if k ∈ addrKeys then .bytes (addressBytes debug val)
        else meaning debug (childAddr k) val) o := by
      split_ifs at ho ⊢ with haddr
      · obtain ⟨pk, hpk, ho⟩ := bind_eq_ok.mp ho
        rw [← addressField_eq hpk]
        exact bytesToMp_stands ho
      · exact hm _ mem_cons_self _ _ _ _ ho
    have hnone : Mp.entriesDatum rest k = none := by
      rw [Mp.entriesDatum_eq, Lookup.lookup_eq_none.mpr fun hmem => hk (hsub.subset hmem)]
      rfl
    cases o with
    | none =>
      cases h
      refine ⟨hsub.cons _, hvalues, ?_⟩
      funext key
      rw [entriesMeaning, ← hdatum]
      by_cases hkey : key = k
      · rw [if_pos hkey, Datum.kept, if_pos (show Datum.IsZero _ from hstands), hkey]
        exact hnone
      · rw [if_neg hkey]
    | some mp =>
      cases h
      obtain ⟨hzero, hcanonical, heq⟩ := hstands
      refine ⟨hsub.cons_cons _,
        forall_mem_cons.mpr ⟨⟨heq ▸ hzero, hcanonical⟩, hvalues⟩, ?_⟩
      funext key
      rw [entriesMeaning, ← hdatum, Mp.entriesDatum, Datum.kept, if_neg hzero, ← heq]

theorem itemsToMp_stands {items : List SynValue} {i : Nat} {out : List Mp}
    (hitems : ∀ it ∈ items, ∀ path addrKeys depth o,
      toMp sha512_256 debug fname path addrKeys depth it = .ok o →
        Stands (meaning debug addrKeys it) o)
    (h : itemsToMp sha512_256 debug fname path depth i items = .ok out) :
    (∀ v ∈ out, v.Canonical) ∧ Mp.itemsDatum out = itemsMeaning debug items := by
  induction items generalizing i out with
  | nil =>
    cases h
    exact ⟨nofun, rfl⟩
  | cons it items ih =>
    obtain ⟨o, ho, h⟩ := bind_eq_ok.mp h
    obtain ⟨mp, hmp, h⟩ := bind_eq_ok.mp h
    obtain ⟨rest, hrest, h⟩ := bind_eq_ok.mp h
    cases h
    obtain ⟨hcanonical, hdatum⟩ :=
      inList_stands (hitems it mem_cons_self _ _ _ _ ho) hmp
    obtain ⟨hvalues, hrest⟩ := ih (fun v hv => hitems v (mem_cons_of_mem _ hv)) hrest
    refine ⟨forall_mem_cons.mpr ⟨hcanonical, hvalues⟩, ?_⟩
    rw [Mp.itemsDatum, hdatum, hrest, itemsMeaning]

theorem toMp_stands (hv : Distinct v)
    (h : toMp sha512_256 debug fname path addrKeys depth v = .ok o) :
    Stands (meaning debug addrKeys v) o := by
  induction hv generalizing path addrKeys depth o with
  | bool b =>
    obtain ⟨-, -, h⟩ := bind_eq_ok.mp h
    cases h
    cases b with
    | true => exact ⟨Bool.noConfusion, .bool true, rfl⟩
    | false => rfl
  | number n =>
    obtain ⟨-, -, h⟩ := bind_eq_ok.mp h
    exact numberToMp_stands h
  | text t =>
    obtain ⟨-, -, h⟩ := bind_eq_ok.mp h
    cases h
    split_ifs with ht
    · exact ht
    · exact ⟨ht, .str t, rfl⟩
  | bytes b => exact bytesToMp_stands h
  | secret | other typeName =>
    obtain ⟨-, -, h⟩ := bind_eq_ok.mp h
    exact nomatch h
  | @list items hitems ih =>
    obtain ⟨-, -, h⟩ := bind_eq_ok.mp h
    obtain ⟨out, hout, h⟩ := bind_eq_ok.mp h
    cases h
    obtain ⟨hcanonical, hdatum⟩ := itemsToMp_stands (fun it hit _ _ _ _ ho => ih it hit ho) hout
    have hmeaning : meaning debug addrKeys (.list items) = .list (Mp.itemsDatum out) :=
      congrArg Datum.list hdatum.symm
    rw [hmeaning]
    split_ifs with hnil
    · rw [hnil]
      rfl
    · refine ⟨fun hzero => hnil ?_, .list hcanonical, rfl⟩
      rw [Mp.itemsDatum_eq] at hzero
      exact map_eq_nil_iff.mp hzero
  | @map m hkeys hm ih =>
    obtain ⟨-, -, h⟩ := bind_eq_ok.mp h
    obtain ⟨entries, hentries, h⟩ := bind_eq_ok.mp h
    cases h
    obtain ⟨hsub, hvalues, hdatum⟩ :=
      entriesToMp_stands (fun p hp _ _ _ _ ho => ih p hp ho) hkeys hentries
    have hnodup := hsub.nodup hkeys
    have hmeaning : meaning debug addrKeys (.map m) = .map (Mp.entriesDatum entries) :=
      congrArg Datum.map hdatum.symm
    rw [hmeaning]
    split_ifs with hnil
    · rw [hnil]
      exact fun _ => rfl
    · refine ⟨fun hzero => hnil ?_, ?_, ?_⟩
      · rw [← map_eq_nil_iff (f := Prod.fst), eq_nil_iff_forall_not_mem]
        intro k
        apply Lookup.lookup_eq_none.mp
        rw [← Option.map_eq_none_iff (f := Mp.datum), ← Mp.entriesDatum_eq]
        exact hzero k
      · have hmem {p : Text × Mp} (hp : p ∈ sortEntries entries) : p ∈ entries :=
          (Mp.sortEntries_perm entries).mem_iff.mp hp
        exact .map (Mp.sorted_sortEntries hnodup) (fun p hp => (hvalues p (hmem hp)).1)
          fun p hp => (hvalues p (hmem hp)).2
      · exact congrArg Datum.map (Mp.entriesDatum_sortEntries hnodup)

theorem txnToMp_stands (hv : Distinct v) (h : txnToMp sha512_256 debug fname v = .ok mp) :
    mp.Canonical ∧ mp.datum = meaning debug txnAddrKeys v := by
  cases v with
  | map m =>
    obtain ⟨o, ho, h⟩ := bind_eq_ok.mp h
    cases o with
    | none => exact nomatch h
    | some mp' =>
      cases h
      exact (toMp_stands hv ho).2
  | _ => exact nomatch h

end Conversion

end Synsema.Algorand
