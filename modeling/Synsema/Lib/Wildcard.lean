import Mathlib.Data.List.Infix
import Mathlib.Data.Nat.Find

/-!
# Wildcard patterns and their containment

A *wildcard pattern* is a list of symbols: a literal letter, `one` (any single
letter) or `many` (any word, possibly empty).  This file defines the words a
pattern accepts and decides *containment* of patterns: whether every word of `q`
is a word of `p`.

Comparing a pattern with the *text* of another pattern is not containment: `one`
of `p` then consumes the symbol `many` of `q` although `many` stands for words of
any length.  `contains` lines the symbols of `p` up with those of `q` and lets
`one` consume only a symbol that stands for exactly one letter.

## Why the alignment is complete

`contains` is exact as soon as one letter occurs in neither pattern.  A failed
alignment is turned into a word of `q` that `p` rejects: the stars of `q` that
`p` could still spend on its `one`s become empty, every other star becomes a
block of the unused letter longer than any chunk of `p`, so that a chunk of `p`
(a stretch without stars, delimited by literals) can be placed only where `q`
has a matching stretch without stars.  `exists_placement` is that last step.
-/

universe u

namespace Wildcard

open List

/-- One symbol of a wildcard pattern. -/
inductive Sym (α : Type u) where
  /-- The letter itself. -/
  | lit (a : α)
  /-- Any single letter. -/
  | one
  /-- Any word. -/
  | many
deriving DecidableEq, Repr

/-- A wildcard pattern. -/
abbrev Pattern (α : Type u) := List (Sym α)

variable {α : Type u}

open Wildcard.Sym

/-- `Accepts p w`: the word `w` matches the pattern `p`. -/
inductive Accepts : Pattern α → List α → Prop
  | nil : Accepts [] []
  | lit {a : α} {p : Pattern α} {w : List α} : Accepts p w → Accepts (lit a :: p) (a :: w)
  | one {a : α} {p : Pattern α} {w : List α} : Accepts p w → Accepts (one :: p) (a :: w)
  | stop {p : Pattern α} {w : List α} : Accepts p w → Accepts (many :: p) w
  | skip {a : α} {p : Pattern α} {w : List α} :
      Accepts (many :: p) w → Accepts (many :: p) (a :: w)

/-! ## Accepted words -/

variable {w v : List α} {a : α} {p q x : Pattern α} {s : Sym α}

theorem accepts_nil_iff : Accepts [] w ↔ w = [] := by
  constructor
  · intro h
    cases h
    rfl
  · rintro rfl
    exact .nil

theorem accepts_lit_iff :
    Accepts (lit a :: p) w ↔ ∃ w', w = a :: w' ∧ Accepts p w' := by
  constructor
  · intro h
    cases h with
    | lit h' => exact ⟨_, rfl, h'⟩
  · rintro ⟨w', rfl, h⟩
    exact .lit h

theorem accepts_one_iff :
    Accepts (one :: p) w ↔ ∃ a w', w = a :: w' ∧ Accepts p w' := by
  constructor
  · intro h
    cases h with
    | one h' => exact ⟨_, _, rfl, h'⟩
  · rintro ⟨a, w', rfl, h⟩
    exact .one h

theorem Accepts.absorb (h : Accepts (many :: p) v) (u : List α) : Accepts (many :: p) (u ++ v) := by
  induction u with
  | nil => exact h
  | cons a u ih => exact .skip ih

theorem accepts_many_iff :
    Accepts (many :: p) w ↔ ∃ u v, w = u ++ v ∧ Accepts p v := by
  constructor
  · intro h
    generalize hq : (many :: p : Pattern α) = q at h
    induction h with
    | nil | lit | one => cases hq
    | stop h' =>
      cases hq
      exact ⟨[], _, rfl, h'⟩
    | @skip a _ _ _ ih =>
      obtain ⟨u, v, rfl, hv⟩ := ih hq
      exact ⟨a :: u, v, rfl, hv⟩
  · rintro ⟨u, v, rfl, hv⟩
    exact (Accepts.stop hv).absorb u

theorem accepts_many_one_iff :
    Accepts (many :: one :: p) (a :: w) ↔ Accepts (many :: p) w := by
  constructor
  · intro h
    obtain ⟨u, v, hw, hv⟩ := accepts_many_iff.mp h
    obtain ⟨b, v', rfl, hv'⟩ := accepts_one_iff.mp hv
    cases u with
    | nil =>
      obtain ⟨-, rfl⟩ := cons.inj hw
      exact .stop hv'
    | cons c u =>
      obtain ⟨-, rfl⟩ := cons.inj hw
      simpa using (Accepts.stop hv').absorb (u ++ [b])
  · intro h
    obtain ⟨u, v, rfl, hv⟩ := accepts_many_iff.mp h
    induction u generalizing a with
    | nil => exact .stop (.one hv)
    | cons b u ih => exact .skip (ih ((Accepts.stop hv).absorb u))

theorem accepts_append_iff :
    Accepts (p ++ q) w ↔ ∃ u v, w = u ++ v ∧ Accepts p u ∧ Accepts q v := by
  induction p generalizing w with
  | nil =>
    constructor
    · exact fun h => ⟨[], w, rfl, .nil, h⟩
    · rintro ⟨u, v, rfl, hu, hv⟩
      rw [accepts_nil_iff.mp hu]
      exact hv
  | cons s p ih =>
    cases s with
    | lit a =>
      rw [cons_append, accepts_lit_iff]
      constructor
      · rintro ⟨w', rfl, h⟩
        obtain ⟨u, v, rfl, hu, hv⟩ := ih.mp h
        exact ⟨a :: u, v, rfl, .lit hu, hv⟩
      · rintro ⟨u, v, rfl, hu, hv⟩
        obtain ⟨u', rfl, hu'⟩ := accepts_lit_iff.mp hu
        exact ⟨u' ++ v, rfl, ih.mpr ⟨u', v, rfl, hu', hv⟩⟩
    | one =>
      rw [cons_append, accepts_one_iff]
      constructor
      · rintro ⟨a, w', rfl, h⟩
        obtain ⟨u, v, rfl, hu, hv⟩ := ih.mp h
        exact ⟨a :: u, v, rfl, .one hu, hv⟩
      · rintro ⟨u, v, rfl, hu, hv⟩
        obtain ⟨a, u', rfl, hu'⟩ := accepts_one_iff.mp hu
        exact ⟨a, u' ++ v, rfl, ih.mpr ⟨u', v, rfl, hu', hv⟩⟩
    | many =>
      rw [cons_append, accepts_many_iff]
      constructor
      · rintro ⟨x, y, rfl, h⟩
        obtain ⟨u, v, rfl, hu, hv⟩ := ih.mp h
        exact ⟨x ++ u, v, by simp, (Accepts.stop hu).absorb x, hv⟩
      · rintro ⟨u, v, rfl, hu, hv⟩
        obtain ⟨x, y, rfl, hy⟩ := accepts_many_iff.mp hu
        exact ⟨x, y ++ v, by simp, ih.mpr ⟨y, v, rfl, hy, hv⟩⟩

/-! ## Containment -/

/-- A pattern whose leading run of wildcards has a star: it absorbs any prefix. -/
def runFree : Pattern α → Bool
  | many :: _ => true
  | one :: p => runFree p
  | _ => false

/-- Is the symbol a star? -/
def isMany : Sym α → Bool
  | many => true
  | _ => false

section Decide

variable [DecidableEq α]

/-- `covers p free q`: the symbols of `p` line up with those of `q`.  `free` holds
while `p` is inside a run of wildcards that has a star, where symbols of `q` may
be skipped; `one` never consumes a star. -/
def covers : Pattern α → Bool → Pattern α → Bool
  | [], free, q => free || q.isEmpty
  | many :: p, _, q => covers p true q
  | one :: p, true, q =>
    match q.dropWhile isMany with
    | [] => false
    | _ :: q' => covers p true q'
  | one :: p, false, q =>
    match q with
    | [] => false
    | s :: q' => !isMany s && covers p false q'
  | lit a :: p, true, q => q.tails.any fun
      | lit b :: q' => decide (a = b) && covers p (runFree p) q'
      | _ => false
  | lit a :: p, false, q =>
    match q with
    | lit b :: q' => decide (a = b) && covers p (runFree p) q'
    | _ => false

/-- `contains p q`: every word of the pattern `q` is a word of `p`. -/
def contains (p q : Pattern α) : Bool := covers p (runFree p) q

end Decide

/-- `p` behind a star, when the alignment is inside a run that has one. -/
def behind (free : Bool) (p : Pattern α) : Pattern α := if free then many :: p else p

@[simp] theorem behind_true (p : Pattern α) : behind true p = many :: p := rfl
@[simp] theorem behind_false (p : Pattern α) : behind false p = p := rfl

theorem accepts_behind {free : Bool} (h : Accepts p w) : Accepts (behind free p) w := by
  cases free with
  | false => exact h
  | true => exact .stop h

theorem accepts_of_runFree (hp : runFree p) (h : Accepts (many :: p) w) : Accepts p w := by
  induction p generalizing w with
  | nil => cases hp
  | cons s p ih =>
    obtain ⟨u, v, rfl, hv⟩ := accepts_many_iff.mp h
    cases s with
    | lit a => cases hp
    | many => exact hv.absorb u
    | one =>
      obtain ⟨a, v', rfl, hv'⟩ := accepts_one_iff.mp hv
      cases u with
      | nil => exact hv
      | cons b u =>
        have hp' : runFree p := hp
        have hrest : Accepts p ((u ++ [a]) ++ v') := ih hp' ((Accepts.stop hv').absorb _)
        exact .one (by simpa using hrest)

theorem accepts_behind_runFree :
    Accepts (behind (runFree p) p) w ↔ Accepts p w := by
  constructor
  · intro h
    cases hp : runFree p with
    | false => rwa [hp] at h
    | true =>
      rw [hp] at h
      exact accepts_of_runFree hp h
  · exact accepts_behind

/-! ## Soundness -/

theorem accepts_dropWhile (h : Accepts q w) :
    ∃ u v, w = u ++ v ∧ Accepts (q.dropWhile isMany) v := by
  induction q generalizing w with
  | nil => exact ⟨[], w, rfl, h⟩
  | cons s q ih =>
    cases s with
    | many =>
      obtain ⟨u, v, rfl, hv⟩ := accepts_many_iff.mp h
      obtain ⟨u', v', rfl, hv'⟩ := ih hv
      exact ⟨u ++ u', v', by simp, hv'⟩
    | lit a | one => exact ⟨[], w, rfl, h⟩

theorem accepts_cons_single (hs : isMany s = false) (h : Accepts (s :: q) w) :
    ∃ a w', w = a :: w' ∧ Accepts q w' := by
  cases s with
  | many => cases hs
  | one => exact accepts_one_iff.mp h
  | lit a =>
    obtain ⟨w', rfl, h'⟩ := accepts_lit_iff.mp h
    exact ⟨a, w', rfl, h'⟩

theorem isMany_head_dropWhile {q' : Pattern α} (h : q.dropWhile isMany = s :: q') :
    isMany s = false := by
  have hne : q.dropWhile isMany ≠ [] := by simp [h]
  have hhead := head_dropWhile_not isMany hne
  simpa [h] using hhead

section Decide

variable [DecidableEq α]

variable {p q : Pattern α} {w : List α}

theorem accepts_of_covers {free : Bool} (hc : covers p free q) (hw : Accepts q w) :
    Accepts (behind free p) w := by
  induction p generalizing free q w with
  | nil =>
    cases free with
    | true => exact accepts_many_iff.mpr ⟨w, [], by simp, .nil⟩
    | false =>
      have hq : q = [] := by simpa [covers] using hc
      subst hq
      exact hw
  | cons s p ih =>
    cases s with
    | many =>
      have hc' : covers p true q := by simpa [covers] using hc
      have h : Accepts (many :: p) w := ih hc' hw
      exact accepts_behind h
    | one =>
      cases free with
      | true =>
        simp only [covers] at hc
        obtain ⟨u, v, rfl, hv⟩ := accepts_dropWhile hw
        cases hq : q.dropWhile isMany with
        | nil => simp [hq] at hc
        | cons s q' =>
          rw [hq] at hc hv
          obtain ⟨a, v', rfl, hv'⟩ := accepts_cons_single (isMany_head_dropWhile hq) hv
          exact (accepts_many_one_iff.mpr (ih hc hv')).absorb u
      | false =>
        cases q with
        | nil => simp [covers] at hc
        | cons s q' =>
          simp only [covers, Bool.and_eq_true, Bool.not_eq_true'] at hc
          obtain ⟨a, w', rfl, hw'⟩ := accepts_cons_single hc.1 hw
          exact .one (ih hc.2 hw')
    | lit a =>
      cases free with
      | true =>
        simp only [covers, any_eq_true, mem_tails] at hc
        obtain ⟨t, ⟨q₀, rfl⟩, ht⟩ := hc
        obtain ⟨u, v, rfl, -, hv⟩ := accepts_append_iff.mp hw
        match t, ht with
        | lit b :: q', ht =>
          simp only [Bool.and_eq_true, decide_eq_true_eq] at ht
          obtain ⟨rfl, ht⟩ := ht
          obtain ⟨v', rfl, hv'⟩ := accepts_lit_iff.mp hv
          have h : Accepts p v' := accepts_behind_runFree.mp (ih ht hv')
          exact (Accepts.stop (Accepts.lit h)).absorb u
      | false =>
        match q, hc with
        | lit b :: q', hc =>
          simp only [covers, Bool.and_eq_true, decide_eq_true_eq] at hc
          obtain ⟨rfl, hc⟩ := hc
          obtain ⟨v', rfl, hv'⟩ := accepts_lit_iff.mp hw
          exact .lit (accepts_behind_runFree.mp (ih hc hv'))

theorem accepts_of_contains (hc : contains p q) (hw : Accepts q w) : Accepts p w :=
  accepts_behind_runFree.mp (accepts_of_covers hc hw)

end Decide

/-! ## Completeness -/

/-- The word of `q` with the letter `z` for every `one` and a block of `n` letters
`z` for every star. -/
def inst (n : Nat) (z : α) : Pattern α → List α
  | [] => []
  | lit a :: q => a :: inst n z q
  | one :: q => z :: inst n z q
  | many :: q => replicate n z ++ inst n z q

theorem accepts_inst (n : Nat) (z : α) (q : Pattern α) : Accepts q (inst n z q) := by
  induction q with
  | nil => exact .nil
  | cons s q ih =>
    cases s with
    | lit a => exact .lit ih
    | one => exact .one ih
    | many => exact (Accepts.stop ih).absorb _

theorem inst_append (n : Nat) (z : α) (p q : Pattern α) :
    inst n z (p ++ q) = inst n z p ++ inst n z q := by
  induction p with
  | nil => rfl
  | cons s p ih => cases s <;> simp [inst, ih]

theorem inst_takeWhile (z : α) (q : Pattern α) : inst 0 z (q.takeWhile isMany) = [] := by
  induction q with
  | nil => rfl
  | cons s q ih =>
    cases s with
    | many => simpa [takeWhile_cons, isMany, inst] using ih
    | lit a | one => rfl

theorem mem_inst {n : Nat} {z c : α} (h : c ∈ inst n z q) : c = z ∨ lit c ∈ q := by
  induction q with
  | nil => cases h
  | cons s q ih =>
    cases s with
    | lit a =>
      rcases List.mem_cons.mp h with rfl | h
      · exact .inr (by simp)
      · exact (ih h).imp_right (mem_cons_of_mem _)
    | one =>
      rcases List.mem_cons.mp h with rfl | h
      · exact .inl rfl
      · exact (ih h).imp_right (mem_cons_of_mem _)
    | many =>
      rcases mem_append.mp h with h | h
      · exact .inl (eq_of_mem_replicate h)
      · exact (ih h).imp_right (mem_cons_of_mem _)

/-- Every symbol of `q` reads one letter, and the symbol of `p` above it reads
that letter too. -/
inductive Aligned : Pattern α → Pattern α → Prop
  | nil : Aligned [] []
  | lit {a : α} {p q : Pattern α} : Aligned p q → Aligned (lit a :: p) (lit a :: q)
  | one {s : Sym α} {p q : Pattern α} :
      isMany s = false → Aligned p q → Aligned (one :: p) (s :: q)

theorem Aligned.length_inst (h : Aligned p q) (n : Nat) (z : α) :
    (inst n z q).length = p.length := by
  induction h with
  | nil => rfl
  | lit _ ih => simp [inst, ih]
  | @one s p q hs _ ih =>
    cases s with
    | many => cases hs
    | lit a | one => simp [inst, ih]

/-- A *chunk*: no stars. -/
def Bounded (x : Pattern α) : Prop := ∀ s ∈ x, isMany s = false

/-- The last symbol is a literal. -/
def EndsLit (x : Pattern α) : Prop := ∃ y b, x = y ++ [lit b]

theorem Bounded.length_eq (hx : Bounded x) (h : Accepts x v) : v.length = x.length := by
  induction x generalizing v with
  | nil => simp [accepts_nil_iff.mp h]
  | cons s x ih =>
    obtain ⟨a, v', rfl, hv'⟩ := accepts_cons_single (hx s (by simp)) h
    simp [ih (fun t ht => hx t (mem_cons_of_mem _ ht)) hv']

theorem EndsLit.tail (h : EndsLit (s :: x)) (hx : x ≠ []) : EndsLit x := by
  obtain ⟨y, b, hy⟩ := h
  cases y with
  | nil => exact absurd (cons.inj hy).2 hx
  | cons t y => exact ⟨y, b, (cons.inj hy).2⟩

theorem EndsLit.last (h : EndsLit x) (hv : Accepts x v) : ∃ u b, v = u ++ [b] ∧ lit b ∈ x := by
  obtain ⟨y, b, rfl⟩ := h
  obtain ⟨u, t, rfl, -, ht⟩ := accepts_append_iff.mp hv
  obtain ⟨t', rfl, ht'⟩ := accepts_lit_iff.mp ht
  rw [accepts_nil_iff.mp ht']
  exact ⟨u, b, rfl, by simp⟩

section Fresh

variable {z : α} {n : Nat}

variable {q x : Pattern α} {t v : List α}

/-- A chunk read at the front of an instance is aligned with symbols of the
pattern: a block of `z` is too long for it to cross and cannot hold its end. -/
theorem exists_aligned_prefix (hx : Bounded x) (hz : lit z ∉ x) (hn : x.length < n)
    (hw : inst n z q = v ++ t) (hv : Accepts x v) (hend : EndsLit x ∨ t = []) :
    ∃ s r, q = s ++ r ∧ Aligned x s ∧ inst n z r = t := by
  induction x generalizing q v with
  | nil =>
    rw [accepts_nil_iff.mp hv] at hw
    exact ⟨[], q, rfl, .nil, hw⟩
  | cons a x ih =>
    have hxb : Bounded x := fun b hb => hx b (mem_cons_of_mem _ hb)
    have hxz : lit z ∉ x := fun hb => hz (mem_cons_of_mem _ hb)
    have hxn : x.length < n := Nat.lt_of_succ_lt (by simpa using hn)
    obtain ⟨c, v', rfl, hv'⟩ := accepts_cons_single (hx a (by simp)) hv
    have hend' : x = [] ∨ EndsLit x ∨ t = [] := by
      by_cases hnil : x = []
      · exact .inl hnil
      · exact .inr (hend.imp_left fun h => h.tail hnil)
    -- the rest of the chunk is read after the first symbol of `q`
    have key : ∀ {q' : Pattern α}, inst n z q' = v' ++ t →
        ∃ s r, q' = s ++ r ∧ Aligned x s ∧ inst n z r = t := by
      intro q' hq'
      rcases hend' with rfl | hend'
      · rw [accepts_nil_iff.mp hv'] at hq'
        exact ⟨[], q', rfl, .nil, hq'⟩
      · exact ih hxb hxz hxn hq' hv' hend'
    cases q with
    | nil => simp [inst] at hw
    | cons b q =>
      cases b with
      | lit b =>
        obtain ⟨rfl, hq⟩ := cons.inj hw
        obtain ⟨s, r, rfl, hs, hr⟩ := key hq
        refine ⟨lit b :: s, r, rfl, ?_, hr⟩
        cases a with
        | many => exact absurd (hx many (by simp)) (by simp [isMany])
        | one => exact .one rfl hs
        | lit a =>
          obtain ⟨w', hw', -⟩ := accepts_lit_iff.mp hv
          obtain ⟨rfl, -⟩ := cons.inj hw'
          exact .lit hs
      | one =>
        obtain ⟨rfl, hq⟩ := cons.inj hw
        obtain ⟨s, r, rfl, hs, hr⟩ := key hq
        refine ⟨one :: s, r, rfl, ?_, hr⟩
        cases a with
        | many => exact absurd (hx many (by simp)) (by simp [isMany])
        | one => exact .one rfl hs
        | lit a =>
          obtain ⟨w', hw', -⟩ := accepts_lit_iff.mp hv
          obtain ⟨rfl, -⟩ := cons.inj hw'
          exact absurd (mem_cons_self) hz
      | many =>
        -- the chunk lies inside the block of `z`
        have hlen : (c :: v').length = (a :: x).length := hx.length_eq hv
        have hpre : (c :: v') <+: replicate n z := by
          have h₁ : (c :: v') <+: replicate n z ++ inst n z q := ⟨t, hw.symm⟩
          exact prefix_of_prefix_length_le h₁ (prefix_append _ _)
            (by simpa [hlen] using Nat.le_of_lt hn)
        have hall : ∀ d ∈ c :: v', d = z := fun d hd =>
          eq_of_mem_replicate (hpre.subset hd)
        rcases hend with hend | rfl
        · obtain ⟨u, b, hu, hb⟩ := hend.last hv
          have hbz : b = z := hall b (by simp [hu])
          exact absurd (hbz ▸ hb) hz
        · have := congrArg List.length hw
          simp only [inst, length_append, length_replicate, length_nil] at this
          omega

theorem exists_placement {a : α} (hx : Bounded (lit a :: x)) (hz : lit z ∉ lit a :: x)
    (hn : (lit a :: x).length < n) {u : List α} (hw : inst n z q = u ++ v ++ t)
    (hv : Accepts (lit a :: x) v) (hend : EndsLit (lit a :: x) ∨ t = []) :
    ∃ q₀ s r, q = q₀ ++ s ++ r ∧ inst n z q₀ = u ∧ Aligned (lit a :: x) s ∧ inst n z r = t := by
  have here : ∀ {q : Pattern α}, inst n z q = v ++ t →
      ∃ q₀ s r, q = q₀ ++ s ++ r ∧ inst n z q₀ = [] ∧ Aligned (lit a :: x) s ∧
        inst n z r = t := by
    intro q hq
    obtain ⟨s, r, rfl, hs, hr⟩ := exists_aligned_prefix hx hz hn hq hv hend
    exact ⟨[], s, r, rfl, rfl, hs, hr⟩
  have later : ∀ {b : Sym α} {q : Pattern α} {u' : List α},
      (∃ q₀ s r, q = q₀ ++ s ++ r ∧ inst n z q₀ = u' ∧ Aligned (lit a :: x) s ∧
        inst n z r = t) →
      ∃ q₀ s r, b :: q = q₀ ++ s ++ r ∧ inst n z q₀ = inst n z [b] ++ u' ∧
        Aligned (lit a :: x) s ∧ inst n z r = t := by
    rintro b q u' ⟨q₀, s, r, rfl, rfl, hs, hr⟩
    exact ⟨b :: q₀, s, r, rfl, inst_append n z [b] q₀, hs, hr⟩
  obtain ⟨v', rfl, -⟩ := accepts_lit_iff.mp hv
  induction q generalizing u with
  | nil => simp [inst] at hw
  | cons b q ih =>
    cases b with
    | lit b | one =>
      cases u with
      | nil => exact here hw
      | cons c u =>
        obtain ⟨rfl, hq⟩ := cons.inj hw
        exact later (ih (by simpa using hq))
    | many =>
      by_cases hu : n ≤ u.length
      · have hpre : replicate n z <+: u := by
          have h₁ : u <+: inst n z (many :: q) := ⟨a :: v' ++ t, by simp [hw]⟩
          exact prefix_of_prefix_length_le (prefix_append _ _) h₁ (by simpa using hu)
        obtain ⟨u', rfl⟩ := hpre
        have hq : inst n z q = u' ++ (a :: v') ++ t := by simpa [inst] using hw
        simpa [inst] using later (b := many) (ih hq)
      · -- the literal that starts the chunk would be a letter of the block
        have hget := congrArg (fun l => l[u.length]?) hw
        have hlt : u.length < n := Nat.lt_of_not_le hu
        simp [inst, getElem?_append, hlt] at hget
        exact absurd (by simp [hget]) hz

end Fresh

/-! ### The chunk at the head of a pattern -/

/-- The chunk at the head of a pattern and the rest, which starts inside a run that
has a star. -/
def splitFree : Pattern α → Pattern α × Pattern α
  | [] => ([], [])
  | s :: p => if runFree (s :: p) then ([], s :: p) else (s :: (splitFree p).1, (splitFree p).2)

theorem splitFree_append (p : Pattern α) : (splitFree p).1 ++ (splitFree p).2 = p := by
  induction p with
  | nil => rfl
  | cons s p ih =>
    unfold splitFree
    split
    · rfl
    · simp [ih]

theorem splitFree_bounded (p : Pattern α) : Bounded (splitFree p).1 := by
  induction p with
  | nil => simp [splitFree, Bounded]
  | cons s p ih =>
    unfold splitFree
    split
    · simp [Bounded]
    · rename_i h
      intro t ht
      rcases List.mem_cons.mp ht with rfl | ht
      · cases t with
        | many => exact absurd rfl h
        | lit a | one => rfl
      · exact ih t ht

theorem splitFree_rest (p : Pattern α) : (splitFree p).2 = [] ∨ runFree (splitFree p).2 = true := by
  induction p with
  | nil => exact .inl rfl
  | cons s p ih =>
    unfold splitFree
    split
    · rename_i h
      exact .inr h
    · exact ih

theorem splitFree_endsLit (hp : (splitFree p).1 ≠ []) (hrest : (splitFree p).2 ≠ []) :
    EndsLit (splitFree p).1 := by
  induction p with
  | nil => exact absurd rfl hp
  | cons s p ih =>
    unfold splitFree at hp hrest ⊢
    split at hp
    · exact absurd rfl hp
    · rename_i h
      rw [if_neg h] at hrest ⊢
      by_cases hnil : (splitFree p).1 = []
      · have happ := splitFree_append p
        rw [hnil, nil_append] at happ
        have hfree : runFree p := by
          rcases splitFree_rest p with h' | h'
          · exact absurd h' hrest
          · rwa [happ] at h'
        cases s with
        | many => exact absurd rfl h
        | one => exact absurd hfree h
        | lit a => exact ⟨[], a, by simp [hnil]⟩
      · obtain ⟨y, b, hy⟩ := ih hnil hrest
        exact ⟨s :: y, b, by simp [hy]⟩

section Decide

variable [DecidableEq α]

theorem covers_append {p : Pattern α} (hfree : runFree p = false) {s r : Pattern α}
    (h : Aligned (splitFree p).1 s) :
    covers p false (s ++ r) = covers (splitFree p).2 (runFree (splitFree p).2) r := by
  induction p generalizing s with
  | nil =>
    cases h
    rfl
  | cons a p ih =>
    have hsplit : splitFree (a :: p) = (a :: (splitFree p).1, (splitFree p).2) := by
      simp [splitFree, hfree]
    rw [hsplit] at h ⊢
    have next : ∀ {s : Pattern α}, Aligned (splitFree p).1 s →
        covers p (runFree p) (s ++ r)
          = covers (splitFree p).2 (runFree (splitFree p).2) r := by
      intro s hs
      cases hp : runFree p with
      | false => exact ih hp hs
      | true =>
        have hnil : splitFree p = ([], p) := by
          cases p with
          | nil => cases hp
          | cons b p => simp [splitFree, hp]
        rw [hnil] at hs ⊢
        cases hs
        simp [hp]
    cases a with
    | many => cases hfree
    | lit a =>
      cases h with
      | lit hs => simpa [covers] using next hs
    | one =>
      cases h with
      | one hm hs =>
        have hp : runFree p = false := hfree
        have := next hs
        rw [hp] at this
        simpa [covers, hm] using this

end Decide

/-! ### A rejected word for a failed alignment -/

theorem inst_ne_nil {n : Nat} (hn : 0 < n) {z : α} : inst n z (s :: q) ≠ [] := by
  cases s with
  | lit a | one => simp [inst]
  | many => simp [inst, Nat.ne_of_gt hn]

theorem not_accepts_aligned {s : Pattern α} (h : Aligned (splitFree p).1 s) {n : Nat} {z : α}
    (hw : ¬ Accepts (behind (runFree (splitFree p).2) (splitFree p).2) w) :
    ¬ Accepts p (inst n z s ++ w) := by
  intro hp
  rw [← splitFree_append p] at hp
  obtain ⟨u, v, huv, hu, hv⟩ := accepts_append_iff.mp hp
  have hlen : (inst n z s).length = u.length := by
    rw [h.length_inst, (splitFree_bounded p).length_eq hu]
  obtain ⟨-, rfl⟩ := append_inj huv hlen
  exact hw (accepts_behind hv)

theorem endsLit_or_nil (hp : (splitFree p).1 ≠ []) {t : List α} (ht : Accepts (splitFree p).2 t) :
    EndsLit (splitFree p).1 ∨ t = [] := by
  by_cases hrest : (splitFree p).2 = []
  · rw [hrest] at ht
    exact .inr (accepts_nil_iff.mp ht)
  · exact .inl (splitFree_endsLit hp hrest)

/-- A word of `q` over the literals of `q` and `z` that `p` rejects. -/
def Rejected (z : α) (p q : Pattern α) : Prop :=
  ∃ w, Accepts q w ∧ ¬ Accepts p w ∧ ∀ c ∈ w, c = z ∨ lit c ∈ q

theorem Rejected.inst {z : α} {n : Nat} (h : ¬ Accepts p (inst n z q)) : Rejected z p q :=
  ⟨Wildcard.inst n z q, accepts_inst n z q, h, fun _ hc => mem_inst hc⟩

theorem Rejected.prepend {z : α} {n : Nat} {r a : Pattern α} (h : Rejected z r q)
    (hp : ∀ w, ¬ Accepts r w → ¬ Accepts p (Wildcard.inst n z a ++ w)) : Rejected z p (a ++ q) := by
  obtain ⟨w, hw, hrej, hmem⟩ := h
  refine ⟨Wildcard.inst n z a ++ w,
    accepts_append_iff.mpr ⟨_, w, rfl, accepts_inst n z a, hw⟩, hp w hrej, fun c hc => ?_⟩
  rcases mem_append.mp hc with hc | hc
  · exact (mem_inst hc).imp_right (mem_append_left _)
  · exact (hmem c hc).imp_right (mem_append_right _)

theorem length_splitFree_lt (hp : p ≠ []) (hfree : runFree p = false) :
    (splitFree p).2.length < p.length := by
  cases p with
  | nil => exact absurd rfl hp
  | cons s p =>
    have happ := congrArg List.length (splitFree_append p)
    simp only [length_append] at happ
    simp only [splitFree, hfree, Bool.false_eq_true, if_false, length_cons]
    omega

theorem splitFree_ne_nil (hp : p ≠ []) (hfree : runFree p = false) : (splitFree p).1 ≠ [] := by
  cases p with
  | nil => exact absurd rfl hp
  | cons s p => simp [splitFree, hfree]

section Decide

variable [DecidableEq α]

theorem covers_lit_true (a : α) (p q : Pattern α) :
    covers (lit a :: p) true q = q.tails.any (covers (lit a :: p) false) := rfl

variable {p q : Pattern α}

theorem rejected_chunk {z : α} (hp : p ≠ []) (hfree : runFree p = false)
    (hz : lit z ∉ p) (hc : covers p false q = false)
    (ih : ∀ r, covers (splitFree p).2 (runFree (splitFree p).2) r = false →
      Rejected z (behind (runFree (splitFree p).2) (splitFree p).2) r) :
    Rejected z p q := by
  by_cases h : ∃ s r, q = s ++ r ∧ Aligned (splitFree p).1 s
  · obtain ⟨s, r, rfl, hs⟩ := h
    rw [covers_append hfree hs] at hc
    exact (ih r hc).prepend (n := 0) fun w hw => not_accepts_aligned hs hw
  · refine Rejected.inst (n := (splitFree p).1.length + 1) fun hacc => h ?_
    have hzx : lit z ∉ (splitFree p).1 := fun hm =>
      hz (splitFree_append p ▸ mem_append_left _ hm)
    generalize hn : (splitFree p).1.length + 1 = n at hacc
    rw [← splitFree_append p] at hacc
    obtain ⟨v, t, hw, hv, ht⟩ := accepts_append_iff.mp hacc
    obtain ⟨s, r, hq, hs, -⟩ := exists_aligned_prefix (splitFree_bounded p) hzx
      (hn ▸ Nat.lt_succ_self _) hw hv (endsLit_or_nil (splitFree_ne_nil hp hfree) ht)
    exact ⟨s, r, hq, hs⟩

/-- Inside a run that has a star, before a literal: the head chunk must be aligned
somewhere in `q`.  The leftmost place leaves the most for the rest; a word of `q`
whose stars before it are long blocks allows no earlier place. -/
theorem rejected_literal {z a : α} (hz : lit z ∉ lit a :: p)
    (hc : covers (lit a :: p) true q = false)
    (ih : ∀ r, covers (splitFree (lit a :: p)).2 (runFree (splitFree (lit a :: p)).2) r = false →
      Rejected z (behind (runFree (splitFree (lit a :: p)).2) (splitFree (lit a :: p)).2) r) :
    Rejected z (many :: lit a :: p) q := by
  have hsplit : splitFree (lit a :: p) = (lit a :: (splitFree p).1, (splitFree p).2) := by
    simp [splitFree, runFree]
  have hbd := splitFree_bounded (lit a :: p)
  have happ := splitFree_append (lit a :: p)
  have hcov : ∀ q₀ s r, q = q₀ ++ (s ++ r) → Aligned (splitFree (lit a :: p)).1 s →
      covers (splitFree (lit a :: p)).2 (runFree (splitFree (lit a :: p)).2) r = false := by
    intro q₀ s r hq hs
    rw [covers_lit_true, any_eq_false] at hc
    have := hc (s ++ r) ((mem_tails _ _).mpr ⟨q₀, hq.symm⟩)
    rwa [covers_append rfl hs, Bool.not_eq_true] at this
  have hends := fun t => endsLit_or_nil (p := lit a :: p) (t := t) (by simp [hsplit])
  rw [hsplit] at hbd happ hcov hends ih
  simp only at hbd happ hcov hends ih
  have hzx : lit z ∉ lit a :: (splitFree p).1 := fun hm =>
    hz (happ ▸ mem_append_left _ hm)
  set x := (splitFree p).1 with hx
  set rest := (splitFree p).2 with hrest
  -- where a word of `q` can place the head chunk
  have place : ∀ {n : Nat} {q' : Pattern α} {u v t : List α}, (lit a :: x).length < n →
      inst n z q' = u ++ v ++ t → Accepts (lit a :: x) v →
      (EndsLit (lit a :: x) ∨ t = []) →
      ∃ q₀ s r, q' = q₀ ++ s ++ r ∧ inst n z q₀ = u ∧ Aligned (lit a :: x) s ∧
        inst n z r = t := fun hn hw hv hend => exists_placement hbd hzx hn hw hv hend
  let n := (lit a :: x).length + 1
  have hn : (lit a :: x).length < n := Nat.lt_succ_self _
  have read : ∀ {w : List α}, Accepts (many :: lit a :: p) w → ∃ u v t, w = u ++ v ++ t ∧
      Accepts (lit a :: x) v ∧ Accepts rest t := by
    intro w hw
    obtain ⟨u, y, rfl, hy⟩ := accepts_many_iff.mp hw
    rw [← happ] at hy
    obtain ⟨v, t, rfl, hv, ht⟩ := accepts_append_iff.mp hy
    exact ⟨u, v, t, by simp, hv, ht⟩
  by_cases hnil : rest = []
  · -- the chunk is the end of the pattern: it has to be the end of `q`
    refine Rejected.inst (n := n) fun hacc => ?_
    obtain ⟨u, v, t, hw, hv, ht⟩ := read hacc
    have ht' : t = [] := by
      rw [hnil] at ht
      exact accepts_nil_iff.mp ht
    obtain ⟨q₀, s, r, hq, -, hs, hr⟩ := place hn hw hv (.inr ht')
    have hrnil : r = [] := by
      cases r with
      | nil => rfl
      | cons b r => exact absurd (hr.trans ht') (inst_ne_nil (Nat.succ_pos _))
    have := hcov q₀ s r (by simpa using hq) hs
    simp [hnil, hrnil, covers] at this
  · have hfree : runFree rest := (splitFree_rest p).resolve_left hnil
    have hlit : ∀ {t}, Accepts rest t → EndsLit (lit a :: x) ∨ t = [] := fun ht => hends _ ht
    have hend : EndsLit (lit a :: x) := by
      have := splitFree_endsLit (p := lit a :: p) (by simp [hsplit]) (by rw [hsplit]; exact hnil)
      rwa [hsplit] at this
    by_cases h : ∃ k q₀ s r, q = q₀ ++ (s ++ r) ∧ Aligned (lit a :: x) s ∧ q₀.length = k
    · -- the leftmost place
      classical
      obtain ⟨q₀, s, r, hq, hs, hk⟩ := Nat.find_spec h
      have hmin : ∀ q₁ s₁ r₁, q = q₁ ++ (s₁ ++ r₁) → Aligned (lit a :: x) s₁ →
          q₀.length ≤ q₁.length := by
        intro q₁ s₁ r₁ hq₁ hs₁
        rw [hk]
        exact Nat.find_min' h ⟨q₁, s₁, r₁, hq₁, hs₁, rfl⟩
      have hrej := ih r (hcov q₀ s r hq hs)
      rw [hfree, behind_true] at hrej
      rw [hq, ← append_assoc]
      refine hrej.prepend (n := n) fun w hw hacc => ?_
      obtain ⟨u, v, t, huvt, hv, ht⟩ := read hacc
      rw [inst_append] at huvt
      have hvlen : v.length = (inst n z s).length := by
        rw [hs.length_inst, hbd.length_eq hv]
      rcases Nat.lt_trichotomy u.length (inst n z q₀).length with hlt | heq | hgt
      · -- an earlier place: the leftmost one would not be leftmost
        have hpre : u ++ v <+: inst n z (q₀ ++ s) := by
          rw [inst_append]
          refine prefix_of_prefix_length_le ⟨t, huvt.symm⟩ (prefix_append _ w) ?_
          simp only [length_append]
          omega
        obtain ⟨t₁, ht₁⟩ := hpre
        obtain ⟨q₁, s₁, r₁, hq₁, hu, hs₁, -⟩ := place hn ht₁.symm hv (.inl hend)
        have hle := hmin q₁ s₁ (r₁ ++ r) (by rw [hq, ← append_assoc, hq₁]; simp) hs₁
        have hpre₁ : q₀ <+: q₁ := by
          have h₁ : q₁ <+: q₀ ++ s := ⟨s₁ ++ r₁, by rw [hq₁]; simp⟩
          exact prefix_of_prefix_length_le (prefix_append _ _) h₁ hle
        obtain ⟨y, rfl⟩ := hpre₁
        rw [inst_append] at hu
        have := congrArg List.length hu
        simp only [length_append] at this
        omega
      · -- the same place: the rest would accept `w`
        have h₁ := append_inj (by simpa using huvt) heq.symm
        have h₂ := append_inj h₁.2 hvlen.symm
        exact hw (.stop (h₂.2 ▸ ht))
      · -- a later place: the rest absorbs what it skips
        have hsuf : t <:+ w := by
          have ht' : t <:+ inst n z q₀ ++ inst n z s ++ w := ⟨u ++ v, huvt.symm⟩
          refine suffix_of_suffix_length_le ht' (suffix_append _ _) ?_
          have := congrArg List.length huvt
          simp only [length_append] at this
          omega
        obtain ⟨y, rfl⟩ := hsuf
        exact hw ((Accepts.stop ht).absorb y)
    · refine Rejected.inst (n := n) fun hacc => h ?_
      obtain ⟨u, v, t, hw, hv, ht⟩ := read hacc
      obtain ⟨q₀, s, r, hq, -, hs, -⟩ := place hn hw hv (hlit ht)
      exact ⟨q₀.length, q₀, s, r, by simpa using hq, hs, rfl⟩

/-- **Completeness of the alignment.**  A failed alignment leaves a word of `q` that
`p` rejects, over the literals of `q` and any letter that `p` does not use. -/
theorem rejected_of_covers {z : α} {free : Bool} (hz : lit z ∉ p) (hfree : free ∨ runFree p = false)
    (hc : covers p free q = false) : Rejected z (behind free p) q := by
  induction hm : p.length using Nat.strong_induction_on generalizing p free q with
  | _ m ih =>
    subst hm
    -- what is left of `p` after its head chunk is shorter
    have chunk : p ≠ [] → runFree p = false → ∀ r,
        covers (splitFree p).2 (runFree (splitFree p).2) r = false →
        Rejected z (behind (runFree (splitFree p).2) (splitFree p).2) r := by
      intro hp hpf r hr
      refine ih _ (length_splitFree_lt hp hpf) (fun hm => ?_) (Bool.eq_false_or_eq_true _) hr rfl
      exact hz (splitFree_append p ▸ mem_append_right _ hm)
    cases p with
    | nil =>
      cases free with
      | true => simp [covers] at hc
      | false =>
        cases q with
        | nil => simp [covers] at hc
        | cons s q =>
          refine Rejected.inst (n := 1) fun h => ?_
          exact inst_ne_nil Nat.one_pos (accepts_nil_iff.mp h)
    | cons s p =>
      have hzp : lit z ∉ p := fun h => hz (mem_cons_of_mem _ h)
      cases free with
      | false =>
        have hpf := hfree.resolve_left Bool.false_ne_true
        exact rejected_chunk (by simp) hpf hz hc (chunk (by simp) hpf)
      | true =>
        cases s with
        | lit a => exact rejected_literal hz hc (chunk (by simp) rfl)
        | many =>
          obtain ⟨w, hw, hrej, hmem⟩ :=
            ih p.length (by simp) hzp (.inl rfl) (by simpa [covers] using hc) rfl
          refine ⟨w, hw, fun h => hrej ?_, hmem⟩
          obtain ⟨u, v, rfl, hv⟩ := accepts_many_iff.mp h
          exact hv.absorb u
        | one =>
          simp only [covers] at hc
          rw [← takeWhile_append_dropWhile (p := isMany) (l := q)]
          refine Rejected.prepend (n := 0) (r := many :: one :: p) ?_ fun w hw => ?_
          · cases hq : q.dropWhile isMany with
            | nil =>
              refine ⟨[], .nil, fun h => ?_, by simp⟩
              obtain ⟨u, v, huv, hv⟩ := accepts_many_iff.mp h
              obtain ⟨a, v', rfl, -⟩ := accepts_one_iff.mp hv
              simp at huv
            | cons t q' =>
              rw [hq] at hc
              have ht := isMany_head_dropWhile hq
              have hlen : (inst 0 z [t]).length = 1 := by cases t <;> simp_all [inst, isMany]
              obtain ⟨b, hb⟩ := length_eq_one_iff.mp hlen
              have hrec : Rejected z (many :: p) q' :=
                ih p.length (by simp) hzp (.inl rfl) hc rfl
              refine hrec.prepend (n := 0) (a := [t]) fun w hw => ?_
              rw [hb]
              exact fun h => hw (accepts_many_one_iff.mp h)
          · -- the leading stars of `q` are spent as the empty word
            rw [inst_takeWhile]
            exact hw

theorem rejected_of_contains {z : α} (hz : lit z ∉ p) (hc : contains p q = false) :
    Rejected z p q := by
  obtain ⟨w, hw, hrej, hmem⟩ := rejected_of_covers hz (Bool.eq_false_or_eq_true _) hc
  exact ⟨w, hw, fun h => hrej (accepts_behind h), hmem⟩

end Decide

end Wildcard
