import Mathlib.Algebra.BigOperators.Fin

/-!
# Shuffles and selections

Fisher and Yates's shuffle of the end of a vector, and Floyd's selection of `k` of the numbers
below `base + k`, over draws in any monad: `draw i` gives a number up to `i`.

In every monad the shuffle permutes and the selection has no number twice.  Over the draws as
lists (`List.finRange`), which runs through all the sequences of draws, the results are counted:
each order of a vector comes of one sequence, each set of `k` numbers of `k!`.
-/

namespace Selection

variable {m : Type → Type} [Monad m] (draw : (i : Nat) → m (Fin (i + 1)))

/-! ## The shuffle -/

section Shuffle

variable {N : Nat}

/-- For `i` from `n - 1` down to `lo`: exchanges the places `i` and `draw i`. -/
def shuffle (lo : Nat) : (n : Nat) → n ≤ N → Vector Nat N → m (Vector Nat N)
| 0, _, v => pure v
| n + 1, h, v =>
  if n < lo then pure v
  else do
    let j ← draw n
    shuffle lo n (Nat.le_of_succ_le h) (v.swap n j h (Nat.lt_of_lt_of_le j.isLt h))

variable [LawfulMonad m]

/-- The shuffle permutes, whatever is drawn. -/
theorem shuffle_perm (lo n : Nat) (h : n ≤ N) (v : Vector Nat N) :
    ∃ r : m {w : Vector Nat N // w.Perm v}, shuffle draw lo n h v = Subtype.val <$> r := by
  induction n generalizing v with
  | zero => exact ⟨pure ⟨v, Vector.Perm.refl v⟩, by rw [shuffle, map_pure]⟩
  | succ n ih =>
    by_cases hlo : n < lo
    · exact ⟨pure ⟨v, Vector.Perm.refl v⟩, by rw [shuffle, if_pos hlo, map_pure]⟩
    choose r hr using fun j : Fin (n + 1) =>
      ih (Nat.le_of_succ_le h) (v.swap n j h (Nat.lt_of_lt_of_le j.isLt h))
    refine ⟨draw n >>= fun j => (fun w => ⟨w.1, w.2.trans (Vector.swap_perm _ _)⟩) <$> r j, ?_⟩
    rw [shuffle, if_neg hlo, map_bind]
    simp only [hr, Functor.map_map]

end Shuffle

/-! ## Floyd's selection -/

section Select

/-- One more number: the drawn one, or `j` where the drawn one is there already. -/
def pick {k : Nat} (out : Vector Nat k) (j v : Nat) : Vector Nat (k + 1) :=
  out.push (if v ∈ out then j else v)

/-- `k` numbers below `base + k`. -/
def select (base : Nat) : (k : Nat) → m (Vector Nat k)
| 0 => pure #v[]
| k + 1 => do
  let out ← select base k
  let v ← draw (base + k)
  pure (pick out (base + k) v)

/-- A selection below a bound. -/
structure Selected (bound : Nat) {k : Nat} (out : Vector Nat k) : Prop where
  nodup : out.toList.Nodup
  lt : ∀ x ∈ out, x < bound

theorem Selected.pick {j k v : Nat} {out : Vector Nat k} (h : Selected j out) (hv : v ≤ j) :
    Selected (j + 1) (pick out j v) := by
  have hnew : (if v ∈ out then j else v) ∉ out ∧ (if v ∈ out then j else v) < j + 1 := by
    split
    · exact ⟨fun hj => (h.lt j hj).false, j.lt_succ_self⟩
    · rename_i hout
      exact ⟨hout, Nat.lt_succ_of_le hv⟩
  constructor
  · rw [Selection.pick, Vector.toList_push, List.nodup_append_comm]
    exact List.nodup_cons.mpr ⟨fun hx => hnew.1 (Vector.mem_toList_iff.mp hx), h.nodup⟩
  · intro x hx
    rcases Vector.mem_push.mp hx with hx | rfl
    · exact (h.lt x hx).trans j.lt_succ_self
    · exact hnew.2

/-- The selection has no number twice, whatever is drawn. -/
theorem select_selected [LawfulMonad m] (base k : Nat) :
    ∃ r : m {out : Vector Nat k // Selected (base + k) out},
      select draw base k = Subtype.val <$> r := by
  induction k with
  | zero => exact ⟨pure ⟨#v[], List.nodup_nil, by simp⟩, by rw [select, map_pure]⟩
  | succ k ih =>
    obtain ⟨r, hr⟩ := ih
    refine ⟨r >>= fun out => (fun v : Fin (base + k + 1) => ⟨pick out.1 (base + k) v,
      out.2.pick (Nat.le_of_lt_succ v.isLt)⟩) <$> draw (base + k), ?_⟩
    rw [select, hr]
    simp only [bind_map_left, map_bind, Functor.map_map, bind_pure_comp]

end Select

/-! ## Counting -/

/-- Every draw: over lists a run goes through all sequences of draws. -/
abbrev draws (i : Nat) : List (Fin (i + 1)) := List.finRange (i + 1)

theorem countP_bind_draws {α : Type} (p : α → Bool) (i : Nat) (f : Fin (i + 1) → List α) :
    (draws i >>= f).countP p = ∑ j, (f j).countP p := by
  rw [Fin.sum_univ_def]
  exact List.countP_flatMap

section Shuffled

variable {N d lo n : Nat}

variable {v : Vector Nat N}

theorem shuffle_frame {h : n ≤ N} {r : Vector Nat N} (hr : r ∈ shuffle draws lo n h v) {i : Nat}
    (hi : i < N) (hn : n ≤ i) : r[i] = v[i] := by
  induction n generalizing v with
  | zero => rw [List.mem_singleton.mp hr]
  | succ n ih =>
    rw [shuffle] at hr
    split at hr
    · rw [List.mem_singleton.mp hr]
    · obtain ⟨j, -, hj⟩ := List.mem_flatMap.mp hr
      rw [ih hj (Nat.le_of_succ_le hn), Vector.getElem_swap_of_ne (by omega) (by omega)]

/-- Where the shuffle stops, only the last place of a whole shuffle is left, and one value. -/
theorem agree_of_le (hd : d = lo ∨ d = 0 ∧ lo = 1) (h : n ≤ N) {t : Vector Nat N}
    (hfix : ∀ i (hi : i < N), n ≤ i → t[i] = v[i])
    (hmem : ∀ i (hi : i < n), d ≤ i → ∃ (k : Nat) (hk : k < n), t[i] = v[k]) (hlo : n ≤ lo)
    (i : Fin N) (hi : d ≤ i.val) : v[i] = t[i] := by
  by_cases hin : n ≤ i.val
  · exact (hfix i i.isLt hin).symm
  · obtain ⟨k, hk, hval⟩ := hmem i (Nat.not_le.mp hin) hi
    have hki : k = i.val := by omega
    subst hki
    exact hval.symm

/-- What a vector has from `d` on, the shuffle down to `d` gives in one way. -/
theorem countP_shuffle (hd : d = lo ∨ d = 0 ∧ lo = 1) (h : n ≤ N) (v t : Vector Nat N)
    (hv : ∀ i j (hi : i < n) (hj : j < n), v[i] = v[j] → i = j)
    (hfix : ∀ i (hi : i < N), n ≤ i → t[i] = v[i])
    (hmem : ∀ i (hi : i < n), d ≤ i → ∃ (k : Nat) (hk : k < n), t[i] = v[k])
    (ht : ∀ i j (hi : i < n) (hj : j < n), d ≤ i → d ≤ j → t[i] = t[j] → i = j) :
    (shuffle draws lo n h v).countP (fun r => decide (∀ i : Fin N, d ≤ i.val → r[i] = t[i])) =
      1 := by
  induction n generalizing v with
  | zero => simpa [shuffle] using agree_of_le hd h hfix hmem (Nat.zero_le lo)
  | succ n ih =>
    rw [shuffle]
    split
    · rename_i hlo
      simpa using agree_of_le hd h hfix hmem hlo
    rename_i hlo
    obtain ⟨k, hk, hval⟩ := hmem n n.lt_succ_self (by omega)
    rw [countP_bind_draws, Finset.sum_eq_single ⟨k, hk⟩]
    · -- the last place takes the value it must have, and the place `k` the last value
      have hswap : ∀ i (hi : i < n), (v.swap n k h (hk.trans_le h))[i] =
          if i = k then v[n] else v[i] := by
        intro i hi
        rw [Vector.getElem_swap, if_neg hi.ne]
      refine ih _ _ ?_ ?_ ?_ ?_
      · intro i j hi hj heq
        rw [hswap i hi, hswap j hj] at heq
        grind
      · intro i hi hin
        rw [Vector.getElem_swap]
        grind
      · intro i hi hdi
        obtain ⟨l, hl, hil⟩ := hmem i (hi.trans n.lt_succ_self) hdi
        have hlk : l ≠ k := by
          rintro rfl
          exact hi.ne (ht i n (hi.trans n.lt_succ_self) n.lt_succ_self hdi (by omega)
            (hil.trans hval.symm))
        by_cases hln : l = n
        · subst hln
          exact ⟨k, by omega, by rw [hil, hswap k (by omega), if_pos rfl]⟩
        · exact ⟨l, by omega, by rw [hil, hswap l (by omega), if_neg hlk]⟩
      · exact fun i j hi hj => ht i j (hi.trans n.lt_succ_self) (hj.trans n.lt_succ_self)
    · intro j _ hj
      rw [List.countP_eq_zero]
      intro r hr hall
      have hlast : r[n] = v[j.val] := by
        rw [shuffle_frame hr h n.le_refl, Vector.getElem_swap_left]
      have hrt : r[n] = t[n] := of_decide_eq_true hall ⟨n, h⟩ (by show d ≤ n; omega)
      refine hj (Fin.ext ?_)
      exact hv j k j.isLt hk (by rw [← hlast, hrt, hval])
    · exact fun hk' => absurd (Finset.mem_univ _) hk'

end Shuffled

section Chosen

theorem countP_bind_swap {α β : Type} (p : β → Bool) (i : Nat) (f : α → Fin (i + 1) → β)
    (l : List α) :
    (l >>= fun a => draws i >>= fun v => pure (f a v)).countP p =
      ∑ v, l.countP fun a => p (f a v) := by
  induction l with
  | nil => simp
  | cons a l ih =>
    have hcons : (a :: l >>= fun a => draws i >>= fun v => pure (f a v)) =
        (draws i >>= fun v => pure (f a v)) ++ (l >>= fun a => draws i >>= fun v => pure (f a v)) :=
      List.flatMap_cons
    rw [hcons, List.countP_append, ih, countP_bind_draws, ← Finset.sum_add_distrib]
    refine Finset.sum_congr rfl fun v _ => ?_
    rw [List.countP_cons, Nat.add_comm, List.pure_def, List.countP_singleton]

variable {base k j : Nat} {T : Finset Nat}

theorem selected_of_mem {out : Vector Nat k} (h : out ∈ select draws base k) :
    Selected (base + k) out := by
  obtain ⟨r, hr⟩ := select_selected draws base k
  rw [hr] at h
  obtain ⟨w, -, rfl⟩ := List.mem_map.mp h
  exact w.2

/-- A set comes of the set without `j`, if it has `j`, and else of the set without the number
that was drawn. -/
theorem toFinset_pick_eq_iff {v : Nat} {out : Vector Nat k} (h : Selected j out) :
    (pick out j v).toList.toFinset = T ↔
      v ∈ T ∧ out.toList.toFinset = T.erase (if j ∈ T then j else v) := by
  have hj : j ∉ out.toList.toFinset := fun hj =>
    (h.lt j (Vector.mem_toList_iff.mp (List.mem_toFinset.mp hj))).false
  have hv : v ∈ out ↔ v ∈ out.toList.toFinset := by
    rw [List.mem_toFinset, Vector.mem_toList_iff]
  have hpick : (pick out j v).toList.toFinset =
      insert (if v ∈ out.toList.toFinset then j else v) out.toList.toFinset := by
    rw [pick, Vector.toList_push, List.toFinset_append, Finset.union_comm]
    simp only [hv]
    rfl
  rw [hpick]
  generalize out.toList.toFinset = S at hj
  constructor
  · rintro rfl
    split <;> grind
  · rintro ⟨hvT, rfl⟩
    split <;> grind

/-- Each set of `k` numbers below `base + k` comes of `k!` sequences of draws. -/
theorem countP_select (hcard : T.card = k) (hT : T ⊆ Finset.range (base + k)) :
    (select draws base k).countP (fun out => decide (out.toList.toFinset = T)) = k.factorial := by
  induction k generalizing T with
  | zero =>
    rw [Finset.card_eq_zero] at hcard
    subst hcard
    rfl
  | succ k ih =>
    have hstep : ∀ v : Fin (base + k + 1), (select draws base k).countP (fun out =>
        decide ((pick out (base + k) v).toList.toFinset = T)) =
          if v.val ∈ T then k.factorial else 0 := by
      intro v
      split
      · rename_i hv
        have hmem : (if base + k ∈ T then base + k else v.val) ∈ T := by
          split
          · assumption
          · exact hv
        rw [← ih (T := T.erase (if base + k ∈ T then base + k else v.val))]
        · refine List.countP_congr fun out hout => ?_
          rw [decide_eq_true_iff, decide_eq_true_iff,
            toFinset_pick_eq_iff (selected_of_mem hout), and_iff_right hv]
        · rw [Finset.card_erase_of_mem hmem, hcard, Nat.add_sub_cancel]
        · intro x hx
          have hxT := hT (Finset.mem_of_mem_erase hx)
          have hne := Finset.ne_of_mem_erase hx
          rw [Finset.mem_range] at hxT ⊢
          by_cases hlast : x = base + k
          · subst hlast
            rw [if_pos (Finset.mem_of_mem_erase hx)] at hne
            exact absurd rfl hne
          · omega
      · rename_i hv
        rw [List.countP_eq_zero]
        intro out hout htrue
        exact hv ((toFinset_pick_eq_iff (selected_of_mem hout)).mp (of_decide_eq_true htrue)).1
    rw [select, countP_bind_swap, Finset.sum_congr rfl fun v _ => hstep v,
      Fin.sum_univ_eq_sum_range (fun x => if x ∈ T then k.factorial else 0), Finset.sum_ite_mem,
      Finset.inter_eq_right.mpr (show T ⊆ Finset.range (base + k + 1) from hT), Finset.sum_const, hcard, smul_eq_mul, Nat.factorial_succ]

theorem getElem_inj {v : Vector Nat k} (h : v.toList.Nodup) {i : Nat} (hi : i < k) (hj : j < k)
    (heq : v[i] = v[j]) : i = j := by
  have hi' : i < v.toList.length := by rwa [Vector.length_toList]
  have hj' : j < v.toList.length := by rwa [Vector.length_toList]
  have hlist : v.toList[i] = v.toList[j] := by simpa using heq
  exact h.getElem_inj_iff.mp hlist

/-- Each order of `k` numbers below `base + k` comes of `k!` sequences of draws. -/
theorem countP_select_shuffle {t : Vector Nat k} (ht : Selected (base + k) t) :
    (select draws base k >>= shuffle draws 1 k le_rfl).countP (fun r => decide (r = t)) =
      k.factorial := by
  have hcard : t.toList.toFinset.card = k := by
    rw [List.toFinset_card_of_nodup ht.nodup, Vector.length_toList]
  have hsub : t.toList.toFinset ⊆ Finset.range (base + k) := fun x hx =>
    Finset.mem_range.mpr (ht.lt x (Vector.mem_toList_iff.mp (List.mem_toFinset.mp hx)))
  have hone : ∀ out ∈ select draws base k, (shuffle draws 1 k le_rfl out).countP
      (fun r => decide (r = t)) = if out.toList.toFinset = t.toList.toFinset then 1 else 0 := by
    intro out hout
    split
    · rename_i heq
      have hsame : ∀ x, x ∈ t ↔ x ∈ out := by
        intro x
        rw [← Vector.mem_toList_iff, ← List.mem_toFinset, ← heq, List.mem_toFinset,
          Vector.mem_toList_iff]
      have hcount := countP_shuffle (Or.inr ⟨rfl, rfl⟩) le_rfl out t
        (fun i j hi hj h => getElem_inj (selected_of_mem hout).nodup hi hj h)
        (fun i hi hk => absurd hi (Nat.not_lt.mpr hk))
        (fun i hi _ => by
          obtain ⟨l, hl, h⟩ := Vector.getElem_of_mem ((hsame _).mp (Vector.getElem_mem hi))
          exact ⟨l, hl, h.symm⟩)
        (fun i j hi hj _ _ h => getElem_inj ht.nodup hi hj h)
      refine (List.countP_congr fun r _ => ?_).trans hcount
      rw [decide_eq_true_iff, decide_eq_true_iff]
      exact ⟨fun h i _ => by rw [h], fun h => Vector.ext fun i hi => h ⟨i, hi⟩ i.zero_le⟩
    · rename_i hne
      rw [List.countP_eq_zero]
      intro r hr htrue
      obtain ⟨rs, hrs⟩ := shuffle_perm draws 1 k le_rfl out
      rw [hrs] at hr
      obtain ⟨w, -, rfl⟩ := List.mem_map.mp hr
      have hw : w.1 = t := of_decide_eq_true htrue
      exact hne (List.toFinset_eq_of_perm _ _ (hw ▸ w.2).toList.symm)
  rw [← countP_select hcard hsub]
  generalize select draws base k = outs at hone
  induction outs with
  | nil => rfl
  | cons out outs ih =>
    have hcons : (out :: outs >>= shuffle draws 1 k le_rfl) =
        shuffle draws 1 k le_rfl out ++ (outs >>= shuffle draws 1 k le_rfl) := List.flatMap_cons
    rw [hcons, List.countP_append, ih fun o ho => hone o (List.mem_cons_of_mem _ ho),
      hone out List.mem_cons_self, List.countP_cons, Nat.add_comm]
    simp only [decide_eq_true_iff]

end Chosen

end Selection
