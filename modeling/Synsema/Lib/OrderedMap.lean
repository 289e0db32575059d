import Mathlib.Data.List.Lex
import Mathlib.Data.List.Nodup
import Mathlib.Data.List.Induction

/-!
# Maps that keep the order of insertion

A map whose entries stand in the order in which their keys were first inserted: writing to
a key that is there leaves it where it is, removing a key closes the gap it leaves.

A lookup is determined by membership (`get?_eq_some`), so what each operation does to the
lookups is read off what it does to the entries.
-/

universe u v

/-- Entries in the order of insertion, no key twice. -/
structure OrderedMap (κ : Type u) (ν : Type v) where
  entries : List (κ × ν)
  nodup : (entries.map Prod.fst).Nodup

namespace OrderedMap

open List

variable {κ : Type u} {ν : Type v}

variable {m : OrderedMap κ ν} {k k' : κ} {w : ν} {es : List (κ × ν)}

@[ext]
theorem ext {m' : OrderedMap κ ν} (h : m.entries = m'.entries) : m = m' := by
  cases m
  cases m'
  cases h
  rfl

/-- The map without entries. -/
def empty : OrderedMap κ ν := ⟨[], nodup_nil⟩

/-- The keys, in their order. -/
def keys (m : OrderedMap κ ν) : List κ := m.entries.map Prod.fst

/-- The values, in the order of their keys. -/
def values (m : OrderedMap κ ν) : List ν := m.entries.map Prod.snd

/-- The number of entries. -/
def length (m : OrderedMap κ ν) : Nat := m.entries.length

@[simp]
theorem entries_empty : (empty : OrderedMap κ ν).entries = [] := rfl

theorem mem_keys : k ∈ m.keys ↔ ∃ v, (k, v) ∈ m.entries := by
  simp [keys]

theorem unique (m : OrderedMap κ ν) {v : ν} (hv : (k, v) ∈ m.entries) (hw : (k, w) ∈ m.entries) :
    v = w := by
  have h := inj_on_of_nodup_map m.nodup hv hw rfl
  exact congrArg Prod.snd h

variable [DecidableEq κ]

/-! ## Lookups -/

/-- The value under a key. -/
def get? (m : OrderedMap κ ν) (k : κ) : Option ν :=
  (m.entries.find? fun e => e.1 = k).map Prod.snd

theorem get?_eq_some {v : ν} : m.get? k = some v ↔ (k, v) ∈ m.entries := by
  constructor
  · intro h
    obtain ⟨⟨k', v'⟩, he, hv⟩ := Option.map_eq_some_iff.mp h
    have hk : k' = k := by simpa using find?_some he
    cases hk
    cases hv
    exact mem_of_find?_eq_some he
  · intro h
    cases hf : m.entries.find? fun e => e.1 = k with
    | none =>
      have := find?_eq_none.mp hf _ h
      simp at this
    | some e =>
      have hk : e.1 = k := by simpa using find?_some hf
      have he : (k, e.2) ∈ m.entries := by
        rw [← hk]
        exact mem_of_find?_eq_some hf
      simp [get?, hf, m.unique he h]

theorem get?_eq_none : m.get? k = none ↔ k ∉ m.keys := by
  rw [Option.eq_none_iff_forall_ne_some, mem_keys, not_exists]
  simp only [ne_eq, get?_eq_some]

@[simp]
theorem get?_empty (k : κ) : (empty : OrderedMap κ ν).get? k = none := rfl

theorem eq_empty_of_get? (h : ∀ k, m.get? k = none) : m = empty := by
  apply ext
  rw [entries_empty, eq_nil_iff_forall_not_mem]
  rintro ⟨k, v⟩ he
  have hv := get?_eq_some.mpr he
  rw [h k] at hv
  cases hv

/-! ## Writing -/

/-- The entries with `v` under the key `k`. -/
def setEntry (k : κ) (v : ν) (es : List (κ × ν)) : List (κ × ν) :=
  es.map fun e => if e.1 = k then (k, v) else e

theorem map_fst_setEntry (k : κ) (v : ν) (es : List (κ × ν)) :
    (setEntry k v es).map Prod.fst = es.map Prod.fst := by
  rw [setEntry, map_map]
  apply map_congr_left
  intro e _
  by_cases he : e.1 = k <;> simp [he]

/-- A write: in place where the key is, at the end where it is not. -/
def insert (m : OrderedMap κ ν) (k : κ) (v : ν) : OrderedMap κ ν :=
  if h : k ∈ m.keys then
    ⟨setEntry k v m.entries, by rw [map_fst_setEntry]; exact m.nodup⟩
  else
    ⟨m.entries ++ [(k, v)], by
      rw [map_append, nodup_append]
      refine ⟨m.nodup, by simp, ?_⟩
      rintro a ha b hb rfl
      rw [map_singleton, mem_singleton] at hb
      subst hb
      exact h ha⟩

theorem entries_insert_of_mem (h : k ∈ m.keys) (v : ν) :
    (m.insert k v).entries = setEntry k v m.entries := by
  rw [insert, dif_pos h]

theorem entries_insert_of_notMem (h : k ∉ m.keys) (v : ν) :
    (m.insert k v).entries = m.entries ++ [(k, v)] := by
  rw [insert, dif_neg h]

theorem mem_entries_insert {v : ν} :
    (k', w) ∈ (m.insert k v).entries ↔
      if k' = k then w = v else (k', w) ∈ m.entries := by
  by_cases h : k ∈ m.keys
  · obtain ⟨u, hu⟩ := mem_keys.mp h
    rw [entries_insert_of_mem h, setEntry, mem_map]
    split_ifs with hk
    · subst hk
      constructor
      · rintro ⟨e, -, he⟩
        by_cases hek : e.1 = k'
        · rw [if_pos hek] at he
          exact (congrArg Prod.snd he).symm
        · rw [if_neg hek] at he
          exact absurd (congrArg Prod.fst he) hek
      · rintro rfl
        exact ⟨_, hu, if_pos rfl⟩
    · constructor
      · rintro ⟨e, he, hw⟩
        by_cases hek : e.1 = k
        · rw [if_pos hek] at hw
          exact absurd (congrArg Prod.fst hw).symm hk
        · rw [if_neg hek] at hw
          exact hw ▸ he
      · intro he
        exact ⟨_, he, if_neg hk⟩
  · rw [entries_insert_of_notMem h, mem_append, mem_singleton]
    split_ifs with hk
    · subst hk
      have : (k', w) ∉ m.entries := fun hw => h (mem_keys.mpr ⟨w, hw⟩)
      simp [this]
    · simp [hk]

theorem get?_insert (m : OrderedMap κ ν) (k k' : κ) (v : ν) :
    (m.insert k v).get? k' = if k' = k then some v else m.get? k' := by
  apply Option.ext
  intro w
  rw [get?_eq_some, mem_entries_insert]
  split_ifs with hk
  · simp [eq_comm]
  · rw [get?_eq_some]

@[simp]
theorem get?_insert_self (m : OrderedMap κ ν) (k : κ) (v : ν) : (m.insert k v).get? k = some v := by
  rw [get?_insert, if_pos rfl]

theorem get?_insert_of_ne (m : OrderedMap κ ν) (v : ν) (h : k' ≠ k) :
    (m.insert k v).get? k' = m.get? k' := by
  rw [get?_insert, if_neg h]

theorem mem_keys_insert {v : ν} : k' ∈ (m.insert k v).keys ↔ k' = k ∨ k' ∈ m.keys := by
  simp only [mem_keys, mem_entries_insert]
  by_cases hk : k' = k <;> simp [hk]

/-- The map of entries that are written one after the other. -/
def ofList (es : List (κ × ν)) : OrderedMap κ ν := es.foldl (fun m e => m.insert e.1 e.2) empty

/-- Each key where it is first, with its last value. -/
def lastWins (es : List (κ × ν)) : List (κ × ν) :=
  (es.map Prod.fst).eraseDups.filterMap fun k => es.reverse.find? fun e => e.1 = k

theorem find?_reverse_isSome (hk : k ∈ es.map Prod.fst) :
    ∃ v, es.reverse.find? (fun e => e.1 = k) = some (k, v) := by
  obtain ⟨e, he, rfl⟩ := mem_map.mp hk
  cases hf : es.reverse.find? fun e' => e'.1 = e.1 with
  | none =>
    have := find?_eq_none.mp hf e (mem_reverse.mpr he)
    simp at this
  | some e' =>
    have hk : e'.1 = e.1 := by simpa using find?_some hf
    exact ⟨e'.2, by rw [← hk]⟩

theorem map_fst_lastWins (es : List (κ × ν)) :
    (lastWins es).map Prod.fst = (es.map Prod.fst).eraseDups := by
  rw [lastWins, map_filterMap]
  have h : ∀ ks : List κ, (∀ k ∈ ks, k ∈ es.map Prod.fst) →
      (ks.filterMap fun k => (es.reverse.find? fun e => e.1 = k).map Prod.fst) = ks := by
    intro ks
    induction ks with
    | nil => intro _; rfl
    | cons k ks ih =>
      intro hks
      obtain ⟨v, hv⟩ := find?_reverse_isSome (hks k (mem_cons_self ..))
      rw [filterMap_cons, hv, ih fun k' hk' => hks k' (mem_cons_of_mem _ hk')]
      rfl
  exact h _ fun k hk => mem_eraseDups.mp hk

theorem lastWins_append (es : List (κ × ν)) (k : κ) (v : ν) :
    lastWins (es ++ [(k, v)]) =
      if k ∈ es.map Prod.fst then setEntry k v (lastWins es) else lastWins es ++ [(k, v)] := by
  have hmap : (es ++ [(k, v)]).map Prod.fst = es.map Prod.fst ++ [k] := by simp
  have hnew : ∀ k' : κ, ((es ++ [(k, v)]).reverse.find? fun e => e.1 = k') =
      if k = k' then some (k, v) else es.reverse.find? fun e => e.1 = k' := by
    intro k'
    rw [reverse_append]
    by_cases hk : k = k' <;> simp [hk]
  rw [lastWins, hmap, eraseDups_append]
  simp only [hnew]
  by_cases hk : k ∈ es.map Prod.fst
  · have hrem : ([k].removeAll (es.map Prod.fst)) = [] := by simp [List.removeAll, hk]
    rw [if_pos hk, hrem, eraseDups_nil, append_nil, setEntry, lastWins, map_filterMap]
    apply filterMap_congr
    intro k' hk'
    obtain ⟨w, hw⟩ := find?_reverse_isSome (mem_eraseDups.mp hk')
    rw [hw]
    by_cases h : k = k'
    · simp [h]
    · simp [h, Ne.symm h]
  · have hrem : ([k].removeAll (es.map Prod.fst)) = [k] := by simp [List.removeAll, hk]
    rw [if_neg hk, hrem, filterMap_append, lastWins]
    congr 1
    · apply filterMap_congr
      intro k' hk'
      have hne : k ≠ k' := by
        rintro rfl
        exact hk (mem_eraseDups.mp hk')
      rw [if_neg hne]
    · simp [eraseDups_cons]

theorem lastWins_of_nodup (h : (es.map Prod.fst).Nodup) : lastWins es = es := by
  induction es using List.reverseRecOn with
  | nil => rfl
  | append_singleton es e ih =>
    rw [map_append, nodup_append] at h
    have hk : e.1 ∉ es.map Prod.fst := fun hk => h.2.2 _ hk _ (by simp) rfl
    rw [lastWins_append, if_neg hk, ih h.1]

theorem entries_ofList (es : List (κ × ν)) : (ofList es).entries = lastWins es := by
  induction es using List.reverseRecOn with
  | nil => rfl
  | append_singleton es e ih =>
    have hkeys : e.1 ∈ (ofList es).keys ↔ e.1 ∈ es.map Prod.fst := by
      rw [keys, ih, map_fst_lastWins, mem_eraseDups]
    have hlast : ofList (es ++ [e]) = (ofList es).insert e.1 e.2 := by
      rw [ofList, foldl_append]
      rfl
    rw [hlast, lastWins_append]
    split_ifs with hk
    · rw [entries_insert_of_mem (hkeys.mpr hk), ih]
    · rw [entries_insert_of_notMem (mt hkeys.mp hk), ih]

/-! ## Removing -/

/-- The map without the key `k`, the others where they are. -/
def shiftRemove (m : OrderedMap κ ν) (k : κ) : OrderedMap κ ν :=
  ⟨m.entries.filter fun e => e.1 ≠ k, (filter_sublist.map _).nodup m.nodup⟩

theorem get?_shiftRemove (m : OrderedMap κ ν) (k k' : κ) :
    (m.shiftRemove k).get? k' = if k' = k then none else m.get? k' := by
  apply Option.ext
  intro w
  rw [get?_eq_some, shiftRemove, mem_filter]
  split_ifs with hk
  · simp [hk]
  · rw [get?_eq_some]
    simp [hk]

@[simp]
theorem get?_shiftRemove_self (m : OrderedMap κ ν) (k : κ) : (m.shiftRemove k).get? k = none := by
  rw [get?_shiftRemove, if_pos rfl]

theorem get?_shiftRemove_of_ne (m : OrderedMap κ ν) (h : k' ≠ k) :
    (m.shiftRemove k).get? k' = m.get? k' := by
  rw [get?_shiftRemove, if_neg h]

end OrderedMap
