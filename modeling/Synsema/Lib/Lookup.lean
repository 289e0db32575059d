import Mathlib.Data.List.Sort

/-!
# Lists of entries

A list of keys and values in which no key stands twice is told apart by its lookups up to the order
of its entries (`lookup_perm`), and one that is sorted by its keys is told apart by them altogether
(`eq_of_lookup`).
-/

namespace Lookup

open List

universe u v w

variable {κ : Type u} {ν : Type v} {μ : Type w} [BEq κ] [LawfulBEq κ]

theorem lookup_eq_some {l : List (κ × ν)} (h : (l.map Prod.fst).Nodup) {k : κ} {v : ν} :
    l.lookup k = some v ↔ (k, v) ∈ l := by
  constructor
  · intro hk
    obtain ⟨l₁, l₂, rfl, -⟩ := lookup_eq_some_iff.mp hk
    exact mem_append_right _ mem_cons_self
  · intro hmem
    obtain ⟨l₁, l₂, rfl⟩ := append_of_mem hmem
    refine lookup_eq_some_iff.mpr ⟨l₁, l₂, rfl, fun p hp => ?_⟩
    rw [map_append, nodup_append] at h
    have hne : p.1 ≠ k := h.2.2 _ (mem_map_of_mem hp) _ mem_cons_self
    exact bne_iff_ne.mpr hne.symm

theorem lookup_perm {l l' : List (κ × ν)} (h : (l.map Prod.fst).Nodup) (hp : l.Perm l') (k : κ) :
    l.lookup k = l'.lookup k := by
  have h' : (l'.map Prod.fst).Nodup := (hp.map Prod.fst).nodup_iff.mp h
  ext v
  rw [lookup_eq_some h, lookup_eq_some h', hp.mem_iff]

omit [LawfulBEq κ] in
theorem lookup_map (f : ν → μ) (l : List (κ × ν)) (k : κ) :
    (l.map fun p => (p.1, f p.2)).lookup k = (l.lookup k).map f := by
  induction l with
  | nil => rfl
  | cons p l ih =>
    rw [map_cons, lookup_cons, lookup_cons, ih]
    cases k == p.1 <;> rfl

theorem lookup_eq_none {l : List (κ × ν)} {k : κ} : l.lookup k = none ↔ k ∉ l.map Prod.fst := by
  rw [lookup_eq_none_iff]
  constructor
  · rintro h hk
    obtain ⟨p, hp, rfl⟩ := mem_map.mp hk
    exact absurd (beq_self_eq_true p.1) (by simpa using h p hp)
  · intro h p hp
    exact bne_iff_ne.mpr fun heq => h (heq ▸ mem_map_of_mem hp)

theorem eq_of_map_eq {α : Type v} {β : Type w} {f : α → β} {l l' : List α}
    (hf : ∀ a ∈ l, ∀ a' ∈ l', f a = f a' → a = a') (h : l.map f = l'.map f) : l = l' := by
  induction l generalizing l' with
  | nil => exact (map_eq_nil_iff.mp h.symm).symm
  | cons a l ih =>
    cases l' with
    | nil => exact absurd h (cons_ne_nil _ _)
    | cons a' l' =>
      obtain ⟨ha, hl⟩ := cons.inj h
      rw [hf a mem_cons_self a' mem_cons_self ha,
        ih (fun b hb b' hb' =>
          hf b (mem_cons_of_mem _ hb) b' (mem_cons_of_mem _ hb')) hl]

section Sorted

variable {ι : Type w} [LinearOrder ι] {rank : κ → ι}

omit [BEq κ] [LawfulBEq κ] in
theorem nodup_of_sorted {l : List (κ × ν)} (h : l.Pairwise fun a b => rank a.1 < rank b.1) :
    (l.map Prod.fst).Nodup := by
  have hkeys : (l.map Prod.fst).Pairwise fun a b => rank a < rank b := pairwise_map.mpr h
  exact hkeys.imp fun hlt heq => hlt.ne (congrArg rank heq)

theorem eq_of_lookup {l l' : List (κ × ν)} (h : l.Pairwise fun a b => rank a.1 < rank b.1)
    (h' : l'.Pairwise fun a b => rank a.1 < rank b.1) (hl : ∀ k, l.lookup k = l'.lookup k) :
    l = l' := by
  have hn := nodup_of_sorted h
  have hn' := nodup_of_sorted h'
  have hmem (p : κ × ν) : p ∈ l ↔ p ∈ l' := by
    rw [← lookup_eq_some hn, ← lookup_eq_some hn', hl]
  have hperm : l.Perm l' :=
    (perm_ext_iff_of_nodup (.of_map _ hn) (.of_map _ hn')).mpr hmem
  refine hperm.eq_of_pairwise (fun a b _ _ hab hba => ?_) h h'
  exact absurd hba hab.asymm

end Sorted

end Lookup
