import Mathlib.Data.List.Basic
import Mathlib.Data.List.Induction

/-!
# File trees

A tree of directories, files and symbolic links, and where a path leads in it: the links on the
way are followed, each from the directory it stands in or from the root.  A path may lead nowhere
(a name that does not exist, a broken link, a cycle of links) and leads to one place at most.
-/

namespace FileTree

open List Option

universe u v

/-- A step of a path. -/
inductive Step (ν : Type u) where
  | up
  | name (n : ν)

/-- What stands at a place of the tree. -/
inductive Entry (τ : Type v) where
  | dir
  | file
  | link (target : τ)

/-- A tree, by the places its entries stand at.  Only directories have something below them. -/
structure Tree (ν : Type u) (τ : Type v) where
  entry : List ν → Option (Entry τ)
  /-- Does a target start at the root, and the steps it takes. -/
  read : τ → Bool × List (Step ν)
  root : entry [] = some .dir
  closed : ∀ p n, entry (p ++ [n]) ≠ none → entry p = some .dir

variable {ν : Type u} {τ : Type v}

/-- The place the target of a link is read from, for a link in the directory `p`. -/
def Tree.start (t : Tree ν τ) (p : List ν) (target : τ) : List ν :=
  if (t.read target).1 then [] else p

/-- The steps from the place `p` lead to the place `q`. -/
inductive Leads (t : Tree ν τ) : List ν → List (Step ν) → List ν → Prop
  | here (p : List ν) : Leads t p [] p
  | up {p q : List ν} {rest : List (Step ν)} (hp : t.entry p = some .dir)
      (h : Leads t p.dropLast rest q) : Leads t p (.up :: rest) q
  | into {p q : List ν} {n : ν} {e : Entry τ} {rest : List (Step ν)}
      (hp : t.entry (p ++ [n]) = some e) (he : ∀ target, e ≠ .link target)
      (h : Leads t (p ++ [n]) rest q) : Leads t p (.name n :: rest) q
  | follow {p q : List ν} {n : ν} {target : τ} {rest : List (Step ν)}
      (hp : t.entry (p ++ [n]) = some (.link target))
      (h : Leads t (t.start p target) ((t.read target).2 ++ rest) q) :
      Leads t p (.name n :: rest) q

variable {t : Tree ν τ}

variable {p q r dir : List ν} {steps a b : List (Step ν)} {n : ν} {e : Entry τ}

theorem Leads.unique {q' : List ν} (h : Leads t p steps q) (h' : Leads t p steps q') : q = q' := by
  induction h with
  | here p =>
    cases h'
    rfl
  | up hp _ ih =>
    cases h' with
    | up _ h' => exact ih h'
  | into hp he _ ih =>
    cases h' with
    | into _ _ h' => exact ih h'
    | follow hp' h' =>
      rw [hp] at hp'
      exact absurd (Option.some.inj hp') (he _)
  | follow hp _ ih =>
    cases h' with
    | into hp' he' h' =>
      rw [hp] at hp'
      exact absurd (Option.some.inj hp').symm (he' _)
    | follow hp' h' =>
      rw [hp] at hp'
      cases hp'
      exact ih h'

theorem Leads.trans (h : Leads t p a q) (h' : Leads t q b r) : Leads t p (a ++ b) r := by
  induction h with
  | here p => exact h'
  | up hp _ ih => exact .up hp (ih h')
  | into hp he _ ih => exact .into hp he (ih h')
  | follow hp _ ih =>
    refine .follow hp ?_
    have h := ih h'
    rwa [append_assoc] at h

theorem leads_append :
    Leads t p (a ++ b) r ↔ ∃ q, Leads t p a q ∧ Leads t q b r := by
  refine ⟨fun h => ?_, fun ⟨q, h, h'⟩ => h.trans h'⟩
  generalize hs : a ++ b = steps at h
  induction h generalizing a with
  | here p =>
    obtain ⟨rfl, rfl⟩ := append_eq_nil_iff.mp hs
    exact ⟨p, .here p, .here p⟩
  | @up p q rest hp h ih =>
    cases a with
    | nil =>
      rw [nil_append] at hs
      exact ⟨p, .here p, hs ▸ .up hp h⟩
    | cons s a =>
      rw [cons_append] at hs
      obtain ⟨rfl, htail⟩ := cons.inj hs
      obtain ⟨q', hq, hr⟩ := ih htail
      exact ⟨q', .up hp hq, hr⟩
  | @into p q n e rest hp he h ih =>
    cases a with
    | nil =>
      rw [nil_append] at hs
      exact ⟨p, .here p, hs ▸ .into hp he h⟩
    | cons s a =>
      rw [cons_append] at hs
      obtain ⟨rfl, htail⟩ := cons.inj hs
      obtain ⟨q', hq, hr⟩ := ih htail
      exact ⟨q', .into hp he hq, hr⟩
  | @follow p q n target rest hp h ih =>
    cases a with
    | nil =>
      rw [nil_append] at hs
      exact ⟨p, .here p, hs ▸ .follow hp h⟩
    | cons s a =>
      rw [cons_append] at hs
      obtain ⟨rfl, rfl⟩ := cons.inj hs
      obtain ⟨q', hq, hr⟩ := ih (append_assoc _ a b)
      exact ⟨q', .follow hp hq, hr⟩

/-! ## Names -/

/-- The steps through some names. -/
def names (p : List ν) : List (Step ν) := p.map .name

@[simp] theorem names_append (p q : List ν) : names (p ++ q) = names p ++ names q :=
  map_append

theorem leads_names_self (h : t.entry p = some .dir) : Leads t [] (names p) p := by
  induction p using List.reverseRecOn with
  | nil => exact .here []
  | append_singleton p n ih =>
    have hp : t.entry p = some .dir := t.closed p n (by rw [h]; exact some_ne_none _)
    rw [names_append]
    exact (ih hp).trans (.into h nofun (.here _))

theorem Leads.entry_ne_none (h : Leads t p steps q) (hp : t.entry p ≠ none) : t.entry q ≠ none := by
  induction h with
  | here p => exact hp
  | @up p q rest hdir _ ih =>
    refine ih ?_
    cases p using List.reverseRecOn with
    | nil => exact hp
    | append_singleton p n =>
      rw [dropLast_concat, t.closed p n hp]
      exact some_ne_none _
  | into hp' _ _ ih => exact ih (by rw [hp']; exact some_ne_none _)
  | @follow p q n target rest hp' _ ih =>
    refine ih ?_
    unfold Tree.start
    split
    · rw [t.root]
      exact some_ne_none _
    · exact hp

theorem Tree.entry_dropLast (h : t.entry p = some .dir) : t.entry p.dropLast = some .dir := by
  cases p using List.reverseRecOn with
  | nil => exact h
  | append_singleton p n =>
    rw [dropLast_concat]
    exact t.closed p n (by rw [h]; exact some_ne_none _)

theorem leads_ups (h : t.entry p = some .dir) (k : Nat) :
    Leads t p (replicate k .up) (p.reverse.drop k).reverse ∧
      t.entry (p.reverse.drop k).reverse = some .dir := by
  induction k generalizing p with
  | zero =>
    rw [drop_zero, reverse_reverse]
    exact ⟨.here p, h⟩
  | succ k ih =>
    obtain ⟨hleads, hentry⟩ := ih (Tree.entry_dropLast h)
    rw [← tail_reverse, drop_tail] at hleads hentry
    exact ⟨.up h hleads, hentry⟩

theorem leads_name_iff :
    Leads t p [.name n] q ↔
      ((∃ e, t.entry (p ++ [n]) = some e ∧ (∀ target, e ≠ .link target)) ∧ q = p ++ [n]) ∨
        ∃ target, t.entry (p ++ [n]) = some (.link target) ∧
          Leads t (t.start p target) (t.read target).2 q := by
  constructor
  · intro h
    cases h with
    | into hp he h =>
      cases h
      exact .inl ⟨⟨_, hp, he⟩, rfl⟩
    | follow hp h =>
      rw [append_nil] at h
      exact .inr ⟨_, hp, h⟩
  · rintro (⟨⟨e, hp, he⟩, rfl⟩ | ⟨target, hp, h⟩)
    · exact .into hp he (.here _)
    · refine .follow hp ?_
      rwa [append_nil]

/-! ## Resolution -/

open Classical in
/-- The place that steps from `p` lead to. -/
noncomputable def Tree.resolve (t : Tree ν τ) (p : List ν) (steps : List (Step ν)) :
    Option (List ν) :=
  if h : ∃ q, Leads t p steps q then some h.choose else none

theorem Tree.resolve_eq_some :
    t.resolve p steps = some q ↔ Leads t p steps q := by
  unfold Tree.resolve
  split
  · rename_i h
    rw [Option.some.injEq]
    refine ⟨fun heq => heq ▸ h.choose_spec, fun hq => h.choose_spec.unique hq⟩
  · rename_i h
    refine ⟨nofun, fun hq => absurd ⟨q, hq⟩ h⟩

theorem Tree.resolve_eq_none :
    t.resolve p steps = none ↔ ∀ q, ¬ Leads t p steps q := by
  rw [eq_none_iff_forall_ne_some]
  exact forall_congr' fun q => not_congr Tree.resolve_eq_some

theorem Tree.resolve_append (p : List ν) (a b : List (Step ν)) :
    t.resolve p (a ++ b) = (t.resolve p a).bind fun q => t.resolve q b := by
  refine Option.ext fun r => ?_
  rw [Tree.resolve_eq_some, leads_append, bind_eq_some_iff]
  exact exists_congr fun q => and_congr Tree.resolve_eq_some.symm Tree.resolve_eq_some.symm

/-- What stands at a path, a link not followed. -/
noncomputable def Tree.lookup (t : Tree ν τ) (dir : List ν) (n : ν) : Option (Entry τ) :=
  (t.resolve [] (names dir)).bind fun q => t.entry (q ++ [n])

theorem Tree.lookup_eq_some :
    t.lookup dir n = some e ↔ ∃ q, Leads t [] (names dir) q ∧ t.entry (q ++ [n]) = some e := by
  rw [Tree.lookup, bind_eq_some_iff]
  exact exists_congr fun q => and_congr_left' Tree.resolve_eq_some

theorem resolve_of_lookup (h : t.lookup dir n = some e) (he : ∀ target, e ≠ .link target)
    (hq : t.resolve [] (names dir) = some q) :
    t.resolve [] (names (dir ++ [n])) = some (q ++ [n]) := by
  obtain ⟨q', hq', hentry⟩ := Tree.lookup_eq_some.mp h
  rw [Tree.resolve_eq_some] at hq ⊢
  cases hq.unique hq'
  rw [names_append]
  exact hq.trans (.into hentry he (.here _))

theorem resolve_of_lookup_none (h : t.lookup dir n = none) :
    t.resolve [] (names (dir ++ [n])) = none := by
  rw [names_append, Tree.resolve_append]
  cases hq : t.resolve [] (names dir) with
  | none => rfl
  | some q =>
    rw [Tree.lookup, hq, bind_some] at h
    rw [bind_some, Tree.resolve_eq_none]
    intro r hr
    rcases leads_name_iff.mp hr with ⟨⟨e, he, -⟩, -⟩ | ⟨target, he, -⟩
    · rw [h] at he
      cases he
    · rw [h] at he
      cases he

theorem lookup_of_resolve_none (h : t.resolve [] (names dir) = none) (n : ν) :
    t.lookup dir n = none := by
  rw [Tree.lookup, h]
  rfl

end FileTree
