import Synsema.Abi.Faithful

/-!
# Heads and tails

The reader of a list of values follows its head and its tail as the writer lays them out, when
the types of the values are faithful.
-/

namespace Synsema.Abi

open List
open Except (bind_eq_ok)

open Blockchain (Stop At usizeAdd usizeAdd_eq)

variable {keccak : Bytes → Bytes} {data : Bytes} {ename dname : Text}

/-! ## Lists of values -/

section Lists

variable {ts : List AbiType} {t : AbiType} {vals : List SynValue} {i k base : Nat}
variable {pathOf : Nat → AbiType → Text} {hs tl b : Bytes}

theorem map_fst_encoders : (encoders keccak ename ts).map Prod.fst = ts := by
  induction ts with
  | nil => rw [encoders, map_nil]
  | cons t ts ih => rw [encoders, map_cons, ih]

theorem map_fst_elems : (elems keccak data dname ts).map Prod.fst = ts := by
  induction ts with
  | nil => rw [elems, map_nil]
  | cons t ts ih => rw [elems, map_cons, ih]

theorem encoders_replicate :
    encoders keccak ename (replicate k t) = replicate k (t, encodeValue keccak ename t) := by
  induction k with
  | zero => rw [replicate_zero, replicate_zero, encoders]
  | succ k ih => rw [replicate_succ, replicate_succ, encoders, ih]

theorem elems_replicate :
    elems keccak data dname (replicate k t) = replicate k (t, elem keccak data dname t) := by
  induction k with
  | zero => rw [replicate_zero, replicate_zero, elems]
  | succ k ih => rw [replicate_succ, replicate_succ, elems, ih]

theorem canonicals_replicate :
    canonicals keccak (replicate vals.length t) vals = vals.map (canonical keccak t) := by
  induction vals with
  | nil => rw [length_nil, replicate_zero, canonicals, map_nil]; nofun
  | cons v vals ih => rw [length_cons, replicate_succ, canonicals, ih, map_cons]

variable {off hp tail : Nat}

theorem encodeItems_cons_ok {v : SynValue} :
    encodeItems pathOf (encoders keccak ename (t :: ts)) (v :: vals) i off = .ok (hs, tl) ↔
      ∃ b, encodeValue keccak ename t v (pathOf i t) = .ok b ∧
        if t.isDynamic then ∃ hs' tl',
          encodeItems pathOf (encoders keccak ename ts) vals (i + 1) (off + b.length) =
            .ok (hs', tl') ∧ u256Word off ++ hs' = hs ∧ b ++ tl' = tl
        else ∃ hs', encodeItems pathOf (encoders keccak ename ts) vals (i + 1) off =
          .ok (hs', tl) ∧ b ++ hs' = hs := by
  rw [encoders, encodeItems, bind_eq_ok]
  refine exists_congr fun b => and_congr_right fun _ => ?_
  by_cases hdyn : t.isDynamic
  · rw [if_pos hdyn, if_pos hdyn, bind_eq_ok]
    simp only [pure_ok, Prod.mk.injEq, Prod.exists]
  · rw [if_neg hdyn, if_neg hdyn, bind_eq_ok]
    simp only [pure_ok, Prod.mk.injEq, Prod.exists]
    constructor
    · rintro ⟨hs', tl', h, hhs, rfl⟩
      exact ⟨hs', h, hhs⟩
    · rintro ⟨hs', h, hhs⟩
      exact ⟨hs', tl, h, hhs, rfl⟩

theorem length_encodeItems (hall : ∀ t ∈ ts, Faithful keccak data ename dname t)
    (hlen : vals.length = ts.length)
    (henc : encodeItems pathOf (encoders keccak ename ts) vals i off = .ok (hs, tl)) :
    hs.length % 2 ^ 64 = AbiType.sumHeadSize ts ∧ 32 * ts.length ≤ hs.length ∧
      (AbiType.anyDynamic ts = false → tl = []) := by
  induction ts generalizing vals i off hs tl with
  | nil =>
    obtain rfl := eq_nil_of_length_eq_zero hlen
    cases henc
    exact ⟨rfl, Nat.le_refl _, fun _ => rfl⟩
  | cons t ts ih =>
    obtain ⟨v, vals, rfl⟩ := exists_cons_of_length_eq_add_one hlen
    obtain ⟨ht, hall⟩ := forall_mem_cons.mp hall
    rw [length_cons, length_cons, Nat.add_right_cancel_iff] at hlen
    obtain ⟨b, hb, h⟩ := encodeItems_cons_ok.mp henc
    rw [AbiType.sumHeadSize, AbiType.headSize, AbiType.anyDynamic, length_cons]
    by_cases hdyn : t.isDynamic
    · rw [if_pos hdyn] at h ⊢
      obtain ⟨hs', tl', h, rfl, rfl⟩ := h
      obtain ⟨hmod, hle, -⟩ := ih hall hlen h
      rw [← hmod, usizeAdd, length_append, length_u256Word, Nat.add_mod_mod]
      exact ⟨rfl, by omega, fun hnone => absurd hnone (by simp [hdyn])⟩
    · rw [if_neg hdyn] at h ⊢
      obtain ⟨hs', h, rfl⟩ := h
      obtain ⟨hmod, hle, htl⟩ := ih hall hlen h
      obtain ⟨hsize, hword⟩ := ht.sized v _ b hb (Bool.of_not_eq_true hdyn)
      rw [← hmod, ← hsize, usizeAdd, length_append, Nat.add_mod_mod, Nat.mod_add_mod]
      refine ⟨rfl, by omega, fun hnone => htl ?_⟩
      rw [Bool.or_eq_false_iff] at hnone
      exact hnone.2

theorem encodeScope_ok :
    encodeScope pathOf (encoders keccak ename ts) vals = .ok b ↔
      ∃ hs tl, encodeItems pathOf (encoders keccak ename ts) vals 0 (AbiType.sumHeadSize ts) =
        .ok (hs, tl) ∧ hs ++ tl = b := by
  rw [encodeScope, map_fst_encoders, bind_eq_ok]
  simp only [pure_ok, Prod.exists]

variable (hdata : data.length < 2 ^ 63)
include hdata

theorem scopeLoop_of_encodeItems (hall : ∀ t ∈ ts, Faithful keccak data ename dname t)
    (hlen : vals.length = ts.length)
    (henc : encodeItems pathOf (encoders keccak ename ts) vals i off = .ok (hs, tl))
    (hhead : At data (base + hp) hs) (htail : At data (base + off) tl) :
    scopeLoop data dname base (elems keccak data dname ts) hp off =
      .ok (canonicals keccak ts vals, off + tl.length) := by
  induction ts generalizing vals i off hs tl hp with
  | nil =>
    obtain rfl := eq_nil_of_length_eq_zero hlen
    cases henc
    rw [elems, scopeLoop, canonicals]
    · rfl
    · nofun
  | cons t ts ih =>
    obtain ⟨v, vals, rfl⟩ := exists_cons_of_length_eq_add_one hlen
    obtain ⟨ht, hall⟩ := forall_mem_cons.mp hall
    rw [length_cons, length_cons, Nat.add_right_cancel_iff] at hlen
    obtain ⟨b, hb, h⟩ := encodeItems_cons_ok.mp henc
    have hhp := hhead.le
    have htp := htail.le
    rw [elems, scopeLoop, canonicals, usizeAdd_eq (a := base) (b := hp) (by omega)]
    by_cases hdyn : t.isDynamic
    · rw [if_pos hdyn] at h ⊢
      obtain ⟨hs', tl', h, rfl, rfl⟩ := h
      rw [At.append_iff] at hhead htail
      rw [length_u256Word, Nat.add_assoc] at hhead
      rw [Nat.add_assoc] at htail
      rw [length_append] at hhp htp
      rw [length_u256Word] at hhp
      have hoff : usizeWord data dname (base + hp) "a dynamic-data offset" = .ok off :=
        (usizeWord_ok hdata).mpr ⟨by omega, hhead.1⟩
      simp only [bind_eq_ok, if_fail_ok, pure_ok]
      refine ⟨off, hoff, not_not.mpr rfl, (canonical keccak t v, b.length), ?_,
        (canonicals keccak ts vals, off + b.length + tl'.length), ?_, ?_⟩
      · rw [usizeAdd_eq (by omega)]
        exact ht.complete v _ _ b hb htail.1
      · rw [usizeAdd_eq (by omega), usizeAdd_eq (by omega)]
        exact ih hall hlen h hhead.2 htail.2
      · rw [length_append, Nat.add_assoc]
    · rw [if_neg hdyn] at h ⊢
      obtain ⟨hs', h, rfl⟩ := h
      rw [At.append_iff, Nat.add_assoc] at hhead
      rw [length_append] at hhp
      simp only [bind_eq_ok, pure_ok]
      refine ⟨(canonical keccak t v, b.length), ht.complete v _ _ b hb hhead.1,
        (canonicals keccak ts vals, off + tl.length), ?_, rfl⟩
      rw [usizeAdd_eq (by omega)]
      exact ih hall hlen h hhead.2 htail

theorem encodeItems_of_scopeLoop (hall : ∀ t ∈ ts, Faithful keccak data ename dname t) {tail' : Nat}
    (hbase : base + hp < 2 ^ 64) (hempty : ts = [] → base + hp ≤ data.length)
    (hdec : scopeLoop data dname base (elems keccak data dname ts) hp tail = .ok (vals, tail')) :
    ∃ hs tl, (∀ pathOf i, encodeItems pathOf (encoders keccak ename ts) vals i tail =
        .ok (hs, tl)) ∧ vals.length = ts.length ∧ tail + tl.length = tail' ∧
      At data (base + hp) hs ∧ (base + tail ≤ data.length → At data (base + tail) tl) := by
  have hnil : ∀ {j}, j ≤ data.length → At data j [] := by
    intro j hj
    have h : At data j ((data.take j).drop j) := At.of_slice (Nat.le_refl j) hj
    simpa using h
  induction ts generalizing hp tail vals with
  | nil =>
    rw [elems, scopeLoop] at hdec
    cases hdec
    exact ⟨[], [], fun _ _ => rfl, rfl, rfl, hnil (hempty rfl), hnil⟩
  | cons t ts ih =>
    obtain ⟨ht, hall⟩ := forall_mem_cons.mp hall
    rw [elems, scopeLoop, usizeAdd_eq hbase] at hdec
    by_cases hdyn : t.isDynamic
    · simp only [if_pos hdyn, bind_eq_ok, if_fail_ok, pure_ok, not_not] at hdec
      obtain ⟨off, hoff, rfl, ⟨v, n⟩, hv, ⟨vs, m⟩, hvs, heq⟩ := hdec
      cases heq
      obtain ⟨hle, hword⟩ := (usizeWord_ok hdata).mp hoff
      have hend := hword.le
      rw [length_u256Word] at hend
      rw [usizeAdd_eq (by omega)] at hv
      obtain ⟨b, hat, rfl, hb⟩ := ht.sound _ _ _ (by omega) hv
      have hfits := hat.le
      rw [usizeAdd_eq (by omega), usizeAdd_eq (a := off) (by omega)] at hvs
      obtain ⟨hs, tl, henc, hlen, hm, hhead, htail⟩ :=
        ih hall (by omega) (fun _ => by omega) hvs
      refine ⟨u256Word off ++ hs, b ++ tl, fun pathOf i => ?_, ?_, ?_, ?_, fun _ => ?_⟩
      · rw [encodeItems_cons_ok]
        refine ⟨b, hb _, ?_⟩
        rw [if_pos hdyn]
        exact ⟨hs, tl, henc pathOf (i + 1), rfl, rfl⟩
      · rw [length_cons, length_cons, hlen]
      · rw [length_append, ← Nat.add_assoc, hm]
      · rw [At.append_iff, length_u256Word, Nat.add_assoc]
        exact ⟨hword, hhead⟩
      · rw [At.append_iff, Nat.add_assoc]
        exact ⟨hat, htail (by omega)⟩
    · simp only [if_neg hdyn, bind_eq_ok, pure_ok] at hdec
      obtain ⟨⟨v, n⟩, hv, ⟨vs, m⟩, hvs, heq⟩ := hdec
      cases heq
      obtain ⟨b, hat, rfl, hb⟩ := ht.sound _ _ _ hbase hv
      have hfits := hat.le
      rw [usizeAdd_eq (by omega)] at hvs
      obtain ⟨hs, tl, henc, hlen, hm, hhead, htail⟩ :=
        ih hall (by omega) (fun _ => by omega) hvs
      refine ⟨b ++ hs, tl, fun pathOf i => ?_, ?_, hm, ?_, htail⟩
      · rw [encodeItems_cons_ok]
        refine ⟨b, hb _, ?_⟩
        rw [if_neg hdyn]
        exact ⟨hs, henc pathOf (i + 1), rfl⟩
      · rw [length_cons, length_cons, hlen]
      · rw [At.append_iff, Nat.add_assoc]
        exact ⟨hat, hhead⟩

theorem scopeLoop_safe (hall : ∀ t ∈ ts, Faithful keccak data ename dname t)
    (hbase : base + hp + 32 < 2 ^ 64) :
    Ends (scopeLoop data dname base (elems keccak data dname ts) hp tail) := by
  induction ts generalizing hp tail with
  | nil =>
    rw [elems, scopeLoop]
    exact ok_ends
  | cons t ts ih =>
    obtain ⟨ht, hall⟩ := forall_mem_cons.mp hall
    rw [elems, scopeLoop, usizeAdd_eq (by omega)]
    by_cases hdyn : t.isDynamic
    · rw [if_pos hdyn]
      refine bind_ends (usizeWord_ends hbase) fun off hoff => ?_
      refine if_fail_ends fun _ => ?_
      obtain ⟨hle, hword⟩ := (usizeWord_ok hdata).mp hoff
      have hend := hword.le
      rw [length_u256Word] at hend
      rw [usizeAdd_eq (by omega), usizeAdd_eq (a := hp) (by omega)]
      refine bind_ends (ht.safe _ (by omega)) fun _ _ => ?_
      exact bind_ends (ih hall (by omega)) fun _ _ => ok_ends
    · rw [if_neg hdyn]
      refine bind_ends (ht.safe _ hbase) fun r hr => ?_
      obtain ⟨b, hat, hlen, -⟩ := ht.sound _ r.1 r.2 (by omega) hr
      have hfits := hat.le
      rw [← hlen, usizeAdd_eq (by omega)]
      exact bind_ends (ih hall (by omega)) fun _ _ => ok_ends

/-! ### Scopes -/

theorem scope_of_encodeScope (hall : ∀ t ∈ ts, Faithful keccak data ename dname t)
    (hlen : vals.length = ts.length)
    (henc : encodeScope pathOf (encoders keccak ename ts) vals = .ok b) (hat : At data base b) :
    scope data dname (elems keccak data dname ts) base = .ok (canonicals keccak ts vals, b.length) ∧
      32 * ts.length ≤ b.length := by
  obtain ⟨hs, tl, h, rfl⟩ := encodeScope_ok.mp henc
  obtain ⟨hmod, hle, -⟩ := length_encodeItems hall hlen h
  have hfits := hat.le
  rw [length_append] at hfits ⊢
  have hsize : AbiType.sumHeadSize ts = hs.length := by
    rw [← hmod, Nat.mod_eq_of_lt (by omega)]
  rw [At.append_iff, ← Nat.add_zero base] at hat
  rw [hsize] at h
  have hloop := scopeLoop_of_encodeItems hdata hall hlen h hat.1 hat.2
  refine ⟨?_, by omega⟩
  rw [scope, map_fst_elems, hsize, if_neg (by rw [usizeAdd_eq (by omega)]; omega)]
  exact hloop

theorem encodeScope_of_scope (hall : ∀ t ∈ ts, Faithful keccak data ename dname t) {n : Nat}
    (hbase : base < 2 ^ 64) (hempty : ts = [] → base ≤ data.length)
    (hdec : scope data dname (elems keccak data dname ts) base = .ok (vals, n)) :
    ∃ b, (∀ pathOf, encodeScope pathOf (encoders keccak ename ts) vals = .ok b) ∧
      vals.length = ts.length ∧ At data base b ∧ b.length = n := by
  simp only [scope, map_fst_elems, if_fail_ok] at hdec
  obtain ⟨hroom, hloop⟩ := hdec
  obtain ⟨hs, tl, henc, hlen, hn, hhead, htail⟩ :=
    encodeItems_of_scopeLoop hdata hall (Nat.add_zero base ▸ hbase) hempty hloop
  obtain ⟨hmod, -, -⟩ := length_encodeItems hall hlen (henc (fun _ _ => []) 0)
  have hfits := hhead.le
  have hsize : AbiType.sumHeadSize ts = hs.length := by
    rw [← hmod, Nat.mod_eq_of_lt (by omega)]
  rw [hsize] at hroom htail hn
  rw [usizeAdd_eq (by omega)] at hroom
  refine ⟨hs ++ tl, fun pathOf => encodeScope_ok.mpr ⟨hs, tl, henc pathOf 0, rfl⟩, hlen, ?_, ?_⟩
  · rw [At.append_iff]
    exact ⟨hhead, htail (by omega)⟩
  · rw [length_append, hn]

theorem scope_safe (hall : ∀ t ∈ ts, Faithful keccak data ename dname t)
    (hbase : base + 32 < 2 ^ 64) : Ends (scope data dname (elems keccak data dname ts) base) :=
  if_fail_ends fun _ => scopeLoop_safe hdata hall hbase

end Lists

end Synsema.Abi
