import Mathlib.Tactic.Linarith
import Synsema.Lib.Probing
import Synsema.Lib.Selection
import Synsema.Rng.Bounded

/-!
# Sampling without replacement

`sample_indices` of `rng.rs`: the shuffle of the tail of all indices where many are asked of a
large population, and else Floyd's selection over a table with open addressing, shuffled at the
end.  The draws are those of any monad; `none` is a walk over the table that never ends.
-/

namespace Synsema.Rng

open Selection Probing

/-! ## The size of the table -/

/-- The nearest number of 53 binary digits, ties to even: an integer `as f64`. -/
def toF64 (x : Nat) : Nat :=
  let e := x.size - 53
  let q := x / 2 ^ e
  let r := x % 2 ^ e
  if 2 * r < 2 ^ e ∨ 2 * r = 2 ^ e ∧ q % 2 = 0 then q * 2 ^ e else (q + 1) * 2 ^ e

/-- `(1.2 * size as f64) as u64`, where 1.2 is the double `5404319552844595 / 2 ^ 52`. -/
def setSize (size : Nat) : Nat := toF64 (5404319552844595 * toF64 size) / 2 ^ 52

theorem le_toF64 (x : Nat) : x * 4503599627370495 ≤ toF64 x * 4503599627370496 := by
  have hfloor : x / 2 ^ (x.size - 53) * 2 ^ (x.size - 53) ≤ toF64 x := by
    simp only [toF64]
    split
    · exact le_rfl
    · exact Nat.mul_le_mul_right _ (Nat.le_succ _)
  have hsplit := Nat.div_add_mod' x (2 ^ (x.size - 53))
  have hrest : x % 2 ^ (x.size - 53) * 4503599627370496 ≤ x := by
    by_cases he : x.size - 53 = 0
    · rw [he, Nat.pow_zero, Nat.mod_one]
      exact Nat.zero_le x
    · have hlow : 2 ^ (x.size - 53 + 52) ≤ x := Nat.lt_size.mp (by omega)
      have hmod := Nat.mod_lt x (Nat.two_pow_pos (x.size - 53))
      rw [Nat.pow_add] at hlow
      exact (Nat.mul_le_mul_right _ hmod.le).trans hlow
  linarith

theorem toF64_le (x : Nat) : toF64 x ≤ 2 * x := by
  have hsplit := Nat.div_add_mod' x (2 ^ (x.size - 53))
  have hup : toF64 x ≤ x / 2 ^ (x.size - 53) * 2 ^ (x.size - 53) + 2 ^ (x.size - 53) := by
    simp only [toF64]
    split
    · exact Nat.le_add_right _ _
    · exact (Nat.succ_mul _ _).le
  by_cases hx : x.size - 53 = 0
  · simp only [toF64, hx, Nat.pow_zero, Nat.mod_one, Nat.div_one, Nat.mul_one]
    split <;> omega
  · have hlow : 2 ^ (x.size - 53) ≤ x := Nat.lt_size.mp (by omega)
    omega

/-- The table is larger than the sample, rounding included. -/
theorem le_setSize (size : Nat) : size ≤ setSize size := by
  have h1 := le_toF64 size
  have h2 := le_toF64 (5404319552844595 * toF64 size)
  rw [setSize, Nat.le_div_iff_mul_le (Nat.two_pow_pos 52)]
  norm_num
  linarith

theorem setSize_lt {size : Nat} (h : size * 50 ≤ 2 ^ 64) : setSize size < 2 ^ 64 := by
  have h1 := toF64_le size
  have h2 := toF64_le (5404319552844595 * toF64 size)
  rw [setSize, Nat.div_lt_iff_lt_mul (Nat.two_pow_pos 52)]
  norm_num at h ⊢
  linarith

/-! ## The code -/

section Sample

variable {m : Type → Type} [Monad m] (draw : (i : Nat) → m (Fin (i + 1)))

/-- `u64::MAX`, what an empty slot holds. -/
def empty : Nat := 2 ^ 64 - 1

/-- `val & mask` -/
def slotOf (mask val : Nat) : Fin (mask + 1) := ⟨val &&& mask, Nat.lt_succ_of_le Nat.and_le_right⟩

/-- `while !stop(set[loc]) { loc = (loc + 1) & mask }`, for `fuel` slots. -/
def probe (stop : Nat → Bool) {mask : Nat} (set : Vector Nat (mask + 1)) :
    Nat → Fin (mask + 1) → Option (Fin (mask + 1))
| 0, _ => none
| fuel + 1, loc =>
  if stop (set.get loc) then some loc else probe stop set fuel (slotOf mask (loc + 1))

/-- The body of the loop over `j`, after the draw. -/
def insertDrawn {mask k : Nat} (set : Vector Nat (mask + 1)) (out : Vector Nat k) (j val : Nat) :
    Option (Vector Nat (mask + 1) × Vector Nat (k + 1)) := do
  let loc ← probe (fun x => decide (x = empty) || decide (x = val)) set (mask + 1) (slotOf mask val)
  if set.get loc = empty then some (set.set loc val, out.push val)
  else
    let loc ← probe (fun x => decide (x = empty)) set (mask + 1) (slotOf mask j)
    some (set.set loc j, out.push j)

/-- The loop over `j`, for its first `k` rounds: the table, and `out` as far as it is filled. -/
def floyd (pop size mask : Nat) : (k : Nat) → OptionT m (Vector Nat (mask + 1) × Vector Nat k)
| 0 => pure (Vector.replicate (mask + 1) empty, #v[])
| k + 1 => do
  let (set, out) ← floyd pop size mask k
  let val ← OptionT.lift (draw (pop - size + k))
  OptionT.mk (pure (insertDrawn set out (pop - size + k) val))

def sampleIndices (pop size : Nat) : OptionT m (List Nat) :=
  if 10000 < pop ∧ pop / 50 < size then do
    let idx ← OptionT.lift (shuffle draw (max (pop - size) 1) pop le_rfl (Vector.range pop))
    pure (idx.toList.drop (pop - size))
  else do
    let (_, out) ← floyd draw pop size (smear (setSize size)) size
    let out ← OptionT.lift (shuffle draw 1 size le_rfl out)
    pure out.toList

end Sample

/-! ## The table is a set -/

section Table

variable {mask k : Nat} {set : Vector Nat (mask + 1)} {out : Vector Nat k}

theorem slotOf_eq_place (hmask : ∃ b, mask + 1 = 2 ^ b) (val : Nat) :
    slotOf mask val = place val := by
  obtain ⟨b, hb⟩ := hmask
  refine Fin.ext ?_
  have hm : mask = 2 ^ b - 1 := by omega
  change val &&& mask = val % (mask + 1)
  rw [hb, hm, Nat.and_two_pow_sub_one_eq_mod]

theorem probe_eq_walk (hmask : ∃ b, mask + 1 = 2 ^ b) (stop : Nat → Bool) (fuel loc : Nat) :
    probe stop set fuel (slotOf mask loc) = walk stop set fuel loc := by
  induction fuel generalizing loc with
  | zero => rfl
  | succ fuel ih =>
    have hnext : slotOf mask (slotOf mask loc + 1) = slotOf mask (loc + 1) := by
      rw [slotOf_eq_place hmask, slotOf_eq_place hmask, slotOf_eq_place hmask]
      exact Fin.ext (Nat.mod_add_mod loc (mask + 1) 1)
    rw [probe, walk, hnext, ih, slotOf_eq_place hmask]

/-- A round of the loop takes the number that Floyd's selection takes, and the table holds it. -/
theorem insertDrawn_eq (hmask : ∃ b, mask + 1 = 2 ^ b) {j val : Nat}
    (h : Holds empty id set out.toList.toFinset) (hout : Selected j out) (hk : k ≤ mask)
    (hval : val ≤ j) (hj : j < empty) :
    ∃ set', insertDrawn set out j val = some (set', pick out j val) ∧
      Holds empty id set' (pick out j val).toList.toFinset := by
  have hmem : ∀ x, x ∈ out.toList.toFinset ↔ x ∈ out := fun x => by
    rw [List.mem_toFinset, Vector.mem_toList_iff]
  have hpush : ∀ x, (out.push x).toList.toFinset = insert x out.toList.toFinset := fun x => by
    rw [Vector.toList_push, List.toFinset_append, Finset.union_comm]
    rfl
  have hcard : out.toList.toFinset.card ≤ mask := by
    rwa [List.toFinset_card_of_nodup hout.nodup, Vector.length_toList]
  have hne : val ≠ empty := (hval.trans_lt hj).ne
  obtain ⟨d, hwalk, hempty, hbefore⟩ := h.walk_value hcard val
  rw [insertDrawn, probe_eq_walk hmask, probe_eq_walk hmask]
  rw [id_eq] at hwalk
  rw [hwalk, Option.bind_eq_bind, Option.bind_some, pick]
  by_cases hin : val ∈ out
  · obtain ⟨c, hwalk', hempty', hbefore'⟩ := h.walk_empty hcard j
    have hnot : j ∉ out.toList.toFinset := fun hx => (hout.lt j ((hmem j).mp hx)).false
    have hused : ¬ set.get (place (val + d)) = empty := fun he =>
      (hempty.mp he).elim (fun hx => hx ((hmem val).mpr hin)) hne
    rw [if_neg hused, hwalk', if_pos hin]
    exact ⟨_, rfl, (hpush j).symm ▸ h.set hnot hj.ne hempty' hbefore'⟩
  · have hnot : val ∉ out.toList.toFinset := fun hx => hin ((hmem val).mp hx)
    have hfree : set.get (place (val + d)) = empty := hempty.mpr (Or.inl hnot)
    rw [if_pos hfree, if_neg hin]
    exact ⟨_, rfl, (hpush val).symm ▸ h.set hnot hne hfree hbefore⟩

end Table

/-! ## Every run -/

section Runs

variable {m : Type → Type} [Monad m] [LawfulMonad m] (draw : (i : Nat) → m (Fin (i + 1)))

theorem smear_succ {x : Nat} (h : x < 2 ^ 64) : ∃ b, smear x + 1 = 2 ^ b :=
  ⟨x.size, by rw [smear_eq h]; exact Nat.sub_add_cancel (Nat.two_pow_pos _)⟩

/-- The loop never runs round a full table, and its numbers are those of Floyd's selection. -/
theorem floyd_eq {pop size mask : Nat} (hmask : ∃ b, mask + 1 = 2 ^ b) (hsize : size ≤ mask)
    (hle : size ≤ pop) (hpop : pop < 2 ^ 64) {k : Nat} (hk : k ≤ size) :
    ∃ r : m {s : Vector Nat (mask + 1) × Vector Nat k //
        Holds empty id s.1 s.2.toList.toFinset ∧ Selected (pop - size + k) s.2},
      (floyd draw pop size mask k).run = (fun s => some s.1) <$> r ∧
      select draw (pop - size) k = (fun s => s.1.2) <$> r := by
  induction k with
  | zero =>
    refine ⟨pure ⟨(Vector.replicate (mask + 1) empty, #v[]), Holds.replicate, ?_⟩, ?_, ?_⟩
    · exact ⟨List.nodup_nil, by simp⟩
    · rw [map_pure]
      rfl
    · rw [map_pure]
      rfl
  | succ k ih =>
    obtain ⟨r, hrun, hselect⟩ := ih (Nat.le_of_succ_le hk)
    have hstep : ∀ (s : {s : Vector Nat (mask + 1) × Vector Nat k //
        Holds empty id s.1 s.2.toList.toFinset ∧ Selected (pop - size + k) s.2})
        (v : Fin (pop - size + k + 1)),
        ∃ set', insertDrawn s.1.1 s.1.2 (pop - size + k) v =
            some (set', pick s.1.2 (pop - size + k) v) ∧
          Holds empty id set' (pick s.1.2 (pop - size + k) v).toList.toFinset := by
      intro s v
      have hj : pop - size + k < empty := by
        rw [empty]
        omega
      exact insertDrawn_eq hmask s.2.1 s.2.2 (by omega) (Nat.le_of_lt_succ v.isLt) hj
    choose set' hinsert hholds using hstep
    refine ⟨r >>= fun s => (fun v => ⟨(set' s v, pick s.1.2 _ v), hholds s v,
      s.2.2.pick (Nat.le_of_lt_succ v.isLt)⟩) <$> draw (pop - size + k), ?_, ?_⟩
    · show OptionT.run (floyd draw pop size mask k >>= _) = _
      rw [OptionT.run_bind, hrun]
      simp only [Option.elimM, bind_map_left, map_bind, Functor.map_map, Option.elim_some,
        OptionT.run_bind_lift, OptionT.run_mk, hinsert, bind_pure_comp]
    · rw [select, hselect]
      simp only [bind_map_left, map_bind, Functor.map_map, bind_pure_comp]

/-- What is asked: `size` distinct indices below `pop`. -/
def Sampled (pop size : Nat) (l : List Nat) : Prop :=
  l.length = size ∧ l.Nodup ∧ ∀ x ∈ l, x < pop

variable {pop size : Nat}

theorem sampleIndices_tail (h : 10000 < pop ∧ pop / 50 < size) :
    (sampleIndices draw pop size).run = (fun idx => some (idx.toList.drop (pop - size))) <$>
      shuffle draw (max (pop - size) 1) pop le_rfl (Vector.range pop) := by
  rw [sampleIndices, if_pos h, OptionT.run_bind_lift]
  simp only [OptionT.run_pure, bind_pure_comp]

theorem sampleIndices_floyd (hle : size ≤ pop) (hpop : pop < 2 ^ 64)
    (h : ¬ (10000 < pop ∧ pop / 50 < size)) :
    (sampleIndices draw pop size).run = (fun out => some out.toList) <$>
      (select draw (pop - size) size >>= shuffle draw 1 size le_rfl) := by
  have hsmall : size * 50 ≤ 2 ^ 64 := by omega
  have hmask := smear_succ (setSize_lt hsmall)
  have hsize : size ≤ smear (setSize size) := by
    refine (le_setSize size).trans ?_
    rw [smear_eq (setSize_lt hsmall)]
    exact Nat.le_sub_one_of_lt (Nat.lt_size_self _)
  obtain ⟨r, hrun, hselect⟩ := floyd_eq draw hmask hsize hle hpop le_rfl
  rw [sampleIndices, if_neg h, OptionT.run_bind, hrun, hselect]
  simp only [Option.elimM, bind_map_left, map_bind, Option.elim_some, OptionT.run_bind_lift,
    OptionT.run_pure]
  simp only [bind_pure_comp]

/-- Whatever is drawn, a run ends with a sample: there is none in which the table is full. -/
theorem sampleIndices_sampled (hle : size ≤ pop) (hpop : pop < 2 ^ 64) :
    ∃ r : m {l : List Nat // Sampled pop size l},
      (sampleIndices draw pop size).run = (fun l => some l.1) <$> r := by
  by_cases h : 10000 < pop ∧ pop / 50 < size
  · obtain ⟨r, hr⟩ := shuffle_perm draw (max (pop - size) 1) pop le_rfl (Vector.range pop)
    rw [sampleIndices_tail draw h, hr]
    refine ⟨(fun w => ⟨w.1.toList.drop (pop - size), ?_, ?_, ?_⟩) <$> r, by rw [Functor.map_map,
      Functor.map_map]⟩
    · rw [List.length_drop, Vector.length_toList]
      omega
    · have hnodup : w.1.toList.Nodup := by
        rw [w.2.toList.nodup_iff, Vector.toList_range]
        exact List.nodup_range
      exact hnodup.sublist (List.drop_sublist _ _)
    · intro x hx
      have hmem := w.2.toList.mem_iff.mp (List.mem_of_mem_drop hx)
      rw [Vector.toList_range] at hmem
      exact List.mem_range.mp hmem
  · obtain ⟨r, hr⟩ := select_selected draw (pop - size) size
    choose shuffled hshuffled using shuffle_perm draw 1 size le_rfl
    rw [sampleIndices_floyd draw hle hpop h, hr]
    refine ⟨r >>= fun out ↦ (fun w ↦ ⟨w.1.toList, w.1.length_toList, ?_, ?_⟩) <$> shuffled out.1, ?_⟩
    · exact w.2.toList.nodup_iff.mpr out.2.nodup
    · intro x hx
      have hmem := out.2.lt x (Vector.mem_toList_iff.mp (w.2.toList.mem_iff.mp hx))
      omega
    · simp only [bind_map_left, map_bind, Functor.map_map, hshuffled]

/-- The draw sequences of a sample: one where the tail is shuffled, and else `size!`. -/
theorem count_sampleIndices (hle : size ≤ pop) (hpop : pop < 2 ^ 64) {l : List Nat}
    (hl : Sampled pop size l) :
    (sampleIndices draws pop size).run.count (some l) =
      if 10000 < pop ∧ pop / 50 < size then 1 else size.factorial := by
  split
  · rename_i h
    have htail : (sampleIndices draws pop size).run.count (some l) =
        (shuffle draws (max (pop - size) 1) pop le_rfl (Vector.range pop)).countP fun idx =>
          decide (idx.toList.drop (pop - size) = l) := by
      rw [sampleIndices_tail draws h]
      change (List.map _ _).count _ = _
      rw [List.count, List.countP_map]
      refine List.countP_congr fun idx _ => ?_
      simp
    obtain ⟨hlen, hnodup, hlt⟩ := hl
    -- the target: the sample, behind what the result leaves out
    let t : Vector Nat pop :=
      ⟨(List.replicate (pop - size) 0 ++ l).toArray, by simp [hlen, Nat.sub_add_cancel hle]⟩
    have hget : ∀ i (hi : i < pop) (hd : pop - size ≤ i), ∃ (hl : i - (pop - size) < l.length),
        t[i] = l[i - (pop - size)] := by
      intro i hi hd
      refine ⟨by omega, ?_⟩
      simp [t, List.getElem_append_right, hd]
    have hcount := countP_shuffle
      (show pop - size = max (pop - size) 1 ∨ pop - size = 0 ∧ max (pop - size) 1 = 1 by omega)
      le_rfl (Vector.range pop) t (fun i j hi hj h => by simpa using h)
      (fun i hi hn => absurd hi (Nat.not_lt.mpr hn))
      (fun i hi hd => by
        obtain ⟨hl, ht⟩ := hget i hi hd
        exact ⟨t[i], ht ▸ hlt _ (List.getElem_mem hl), by simp⟩)
      (fun i j hi hj hdi hdj h => by
        obtain ⟨hi', hti⟩ := hget i hi hdi
        obtain ⟨hj', htj⟩ := hget j hj hdj
        have := hnodup.getElem_inj_iff.mp (hti.symm.trans (h.trans htj))
        omega)
    rw [htail]
    refine (List.countP_congr fun idx _ => ?_).trans hcount
    rw [decide_eq_true_iff, decide_eq_true_iff]
    constructor
    · rintro rfl i hi
      obtain ⟨hl, ht⟩ := hget i i.isLt hi
      simpa [Nat.add_sub_cancel' hi] using ht.symm
    · intro h
      refine List.ext_getElem (by simp [hlen, Nat.sub_sub_self hle]) fun k hk hkl => ?_
      obtain ⟨hl, ht⟩ := hget (pop - size + k) (by omega) (Nat.le_add_right _ _)
      have hk' := h ⟨pop - size + k, by omega⟩ (Nat.le_add_right _ _)
      simp only [Fin.getElem_fin] at hk'
      simp only [Nat.add_sub_cancel_left] at ht
      rw [List.getElem_drop, Vector.getElem_toList, hk', ht]
  · rename_i h
    obtain ⟨rfl, hnodup, hlt⟩ := hl
    rw [sampleIndices_floyd draws hle hpop h]
    have hsel : Selected (pop - l.length + l.length) (⟨l.toArray, rfl⟩ : Vector Nat l.length) :=
      ⟨hnodup, fun x hx => by rw [Nat.sub_add_cancel hle]; exact hlt x (by simpa using hx)⟩
    rw [← countP_select_shuffle hsel]
    change (List.map _ _).count _ = _
    rw [List.count, List.countP_map]
    refine List.countP_congr fun out _ => ?_
    simp [← Vector.toList_inj]

end Runs

section Streams

variable {σ : Type} (next : σ → UInt64 × σ)

theorem bounded_lt {i fuel : Nat} {g : Generator σ} {r : Nat × Generator σ}
    (h : bounded next (UInt64.ofNat i) fuel g = some r) : r.1 < i + 1 := by
  have hle := (bounded_exact next (UInt64.ofNat i)).1 fuel g r h
  rw [UInt64.toNat_ofNat'] at hle
  exact Nat.lt_succ_of_le (hle.trans (Nat.mod_le i _))

/-- `self.bounded(i)`, each with fuel for `fuel` rejected words. -/
def boundedDraw (fuel i : Nat) : StateT (Generator σ) Option (Fin (i + 1)) := fun g =>
  match h : bounded next (UInt64.ofNat i) fuel g with
  | none => none
  | some r => some (⟨r.1, bounded_lt next h⟩, r.2)

/-- Sampling is correct: on every stream of words a run whose draws return ends with a sample, as
it does for draws of any kind, and over uniform draws every sample comes of the same number of
draw sequences. -/
theorem sampleIndices_correct {pop size : Nat} (hle : size ≤ pop) (hpop : pop < 2 ^ 64) :
    (∀ (fuel : Nat) (g : Generator σ),
      ∀ r ∈ (sampleIndices (boundedDraw next fuel) pop size).run.run g,
        ∃ l, r.1 = some l ∧ Sampled pop size l) ∧
    (∀ (m : Type → Type) [Monad m] [LawfulMonad m] (draw : (i : Nat) → m (Fin (i + 1))),
      ∃ r : m {l : List Nat // Sampled pop size l},
        (sampleIndices draw pop size).run = (fun l => some l.1) <$> r) ∧
    ∃ c, 0 < c ∧ ∀ l, Sampled pop size l → (sampleIndices draws pop size).run.count (some l) = c := by
  refine ⟨fun fuel g r hr => ?_, fun m _ _ draw => sampleIndices_sampled draw hle hpop, ?_⟩
  · obtain ⟨s, hs⟩ := sampleIndices_sampled (boundedDraw next fuel) hle hpop
    rw [hs, StateT.run_map] at hr
    obtain ⟨l, -, rfl⟩ := Option.map_eq_some_iff.mp hr
    exact ⟨l.1.1, rfl, l.1.2⟩
  · refine ⟨_, ?_, fun l hl => count_sampleIndices hle hpop hl⟩
    split
    · exact Nat.one_pos
    · exact Nat.factorial_pos size

/-- Two of three, from the words 0, 1, 2, ...: each draw takes the half of a word. -/
theorem sampleIndices_three :
    (∃ l, Sampled 3 2 l) ∧ ∃ c, 0 < c ∧
      ∀ l, Sampled 3 2 l → (sampleIndices draws 3 2).run.count (some l) = c :=
  ⟨⟨[0, 1], rfl, by decide, by decide⟩,
    (sampleIndices_correct (fun n : Nat => (UInt64.ofNat n, n + 1)) (by decide) (by decide)).2.2⟩

end Streams

end Synsema.Rng
