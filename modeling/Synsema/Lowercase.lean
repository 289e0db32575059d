import Synsema.Text

/-!
# Small letters

What is relied on of `str::to_lowercase`: it maps a text character by character, keeps blanks and the
ASCII characters that are no letters, and makes neither of anything else.  A sigma is mapped by what
stands around it, up to the next character that is no part of a word.
-/

namespace Synsema.Text

open List

/-- A blank, or an ASCII character that is no letter. -/
def isCaseless (c : Char) : Bool := isWhitespace c || (decide (c.val < 128) && !c.isAlpha)

/-- A text in which each character is replaced by itself, if it has no case, or else by one or more
that have none of those. -/
inductive MapsCase : Text → Text → Prop where
  | nil : MapsCase [] []
  | keep {c : Char} {s t : Text} (hc : isCaseless c = true) (h : MapsCase s t) :
      MapsCase (c :: s) (c :: t)
  | letter {c : Char} {u s t : Text} (hc : isCaseless c = false) (hne : u ≠ [])
      (hu : ∀ d ∈ u, isCaseless d = false) (h : MapsCase s t) : MapsCase (c :: s) (u ++ t)

/-- The mapping to small letters. -/
structure Lowercases (lower : Text → Text) : Prop where
  maps : ∀ s, MapsCase s (lower s)
  idem : ∀ s, lower (lower s) = lower s
  /-- A closing bracket is no part of a word. -/
  bracket : ∀ s t, lower (s ++ ']' :: t) = lower s ++ ']' :: lower t

namespace MapsCase

variable {s t sep : Text} {c : Char}

theorem append {s' t' : Text} (h : MapsCase s t) (h' : MapsCase s' t') :
    MapsCase (s ++ s') (t ++ t') := by
  induction h with
  | nil => exact h'
  | keep hc _ ih => exact .keep hc ih
  | letter hc hne hu _ ih =>
    rw [append_assoc]
    exact .letter hc hne hu ih

theorem refl_of_caseless (h : ∀ c ∈ s, isCaseless c) : MapsCase s s := by
  induction s with
  | nil => exact .nil
  | cons c s ih =>
    exact .keep (h c mem_cons_self) (ih fun d hd => h d (mem_cons_of_mem c hd))

theorem count_eq (h : MapsCase s t) (hc : isCaseless c) : t.count c = s.count c := by
  induction h with
  | nil => rfl
  | keep _ _ ih => rw [count_cons, count_cons, ih]
  | @letter d u _ _ hd _ hu _ ih =>
    have hcd : d ≠ c := by
      rintro rfl
      exact absurd hc (Bool.eq_false_iff.mp hd)
    have hcu : c ∉ u := fun hmem => absurd hc (Bool.eq_false_iff.mp (hu c hmem))
    rw [count_append, count_eq_zero_of_not_mem hcu, ih, count_cons_of_ne hcd, Nat.zero_add]

theorem mem_iff (h : MapsCase s t) (hc : isCaseless c) : c ∈ t ↔ c ∈ s := by
  rw [← count_pos_iff, ← count_pos_iff, h.count_eq hc]

theorem eq_nil_iff (h : MapsCase s t) : t = [] ↔ s = [] := by
  cases h with
  | nil => rfl
  | keep => simp
  | letter _ hne => simp [hne]

theorem head?_eq_iff (h : MapsCase s t) (hc : isCaseless c) :
    t.head? = some c ↔ s.head? = some c := by
  cases h with
  | nil | keep => rfl
  | @letter d u _ _ hd hne hu _ =>
    obtain ⟨e, u, rfl⟩ := exists_cons_of_ne_nil hne
    have hed : ∀ d, isCaseless d = false → d ≠ c := by
      rintro d hd rfl
      exact absurd hc (Bool.eq_false_iff.mp hd)
    rw [cons_append, head?_cons, head?_cons, Option.some.injEq, Option.some.injEq]
    exact iff_of_false (hed e (hu e mem_cons_self)) (hed d hd)

theorem concat (hc : isCaseless c) (h : MapsCase (s ++ [c]) t) : ∃ w, t = w ++ [c] := by
  induction s generalizing t with
  | nil =>
    cases h with
    | keep _ h =>
      rw [h.eq_nil_iff.mpr rfl]
      exact ⟨[], rfl⟩
    | letter hc' => exact absurd hc (Bool.eq_false_iff.mp hc')
  | cons d s ih =>
    cases h with
    | keep _ h =>
      obtain ⟨w, rfl⟩ := ih h
      exact ⟨d :: w, rfl⟩
    | letter _ _ _ h =>
      obtain ⟨w, rfl⟩ := ih h
      exact ⟨_ ++ w, (append_assoc _ _ _).symm⟩

theorem stripPrefix_eq (hsep : ∀ c ∈ sep, isCaseless c) (h : MapsCase s t) :
    (stripPrefix sep s = none ∧ stripPrefix sep t = none) ∨
      ∃ r r', stripPrefix sep s = some r ∧ stripPrefix sep t = some r' ∧ MapsCase r r' := by
  induction sep generalizing s t with
  | nil => exact .inr ⟨s, t, by simp [stripPrefix], by simp [stripPrefix], h⟩
  | cons c sep ih =>
    have hc := hsep c mem_cons_self
    cases h with
    | nil => exact .inl ⟨rfl, rfl⟩
    | @keep d _ _ _ h =>
      by_cases hd : c = d
      · subst hd
        simpa [stripPrefix, List.isPrefixOf?] using
          ih (fun e he => hsep e (mem_cons_of_mem c he)) h
      · exact .inl (by simp [stripPrefix, List.isPrefixOf?, hd])
    | @letter d u _ _ hd hne hu _ =>
      obtain ⟨e, u, rfl⟩ := exists_cons_of_ne_nil hne
      have hne' : ∀ d, isCaseless d = false → c ≠ d := by
        rintro d hd rfl
        exact absurd hc (Bool.eq_false_iff.mp hd)
      exact .inl (by simp [stripPrefix, List.isPrefixOf?, hne' d hd, hne' e (hu e mem_cons_self)])

theorem splitOnceStr_letters {u : Text} (hne : sep ≠ []) (hsep : ∀ c ∈ sep, isCaseless c)
    (hu : ∀ d ∈ u, isCaseless d = false) (t : Text) :
    splitOnceStr sep (u ++ t) = (splitOnceStr sep t).map fun p => (u ++ p.1, p.2) := by
  induction u with
  | nil => simp
  | cons d u ih =>
    obtain ⟨c, sep, rfl⟩ := exists_cons_of_ne_nil hne
    have hcd : c ≠ d := by
      rintro rfl
      exact absurd (hsep c mem_cons_self) (Bool.eq_false_iff.mp (hu c mem_cons_self))
    have hnone : stripPrefix (c :: sep) (d :: (u ++ t)) = none := by
      simp [stripPrefix, List.isPrefixOf?, hcd]
    rw [cons_append, splitOnceStr, hnone, ih fun e he => hu e (mem_cons_of_mem d he)]
    exact Option.map_map _ _ _

theorem splitOnceStr_eq (hne : sep ≠ []) (hsep : ∀ c ∈ sep, isCaseless c) (h : MapsCase s t) :
    (splitOnceStr sep s = none ∧ splitOnceStr sep t = none) ∨
      ∃ l r l' r', splitOnceStr sep s = some (l, r) ∧ splitOnceStr sep t = some (l', r') ∧
        MapsCase r r' := by
  have hnil : stripPrefix sep [] = none := by
    obtain ⟨c, sep, rfl⟩ := exists_cons_of_ne_nil hne
    rfl
  induction h with
  | nil => exact .inl (by simp [splitOnceStr, hnil])
  | @keep c s t hc h ih =>
    rcases stripPrefix_eq hsep (.keep hc h) with ⟨hs, ht⟩ | ⟨r, r', hs, ht, hr⟩
    · rw [splitOnceStr, splitOnceStr, hs, ht]
      rcases ih with ⟨hs, ht⟩ | ⟨l, r, l', r', hs, ht, hr⟩
      · exact .inl (by simp [hs, ht])
      · exact .inr ⟨c :: l, r, c :: l', r', by simp [hs], by simp [ht], hr⟩
    · exact .inr ⟨[], r, [], r', by rw [splitOnceStr, hs], by rw [splitOnceStr, ht], hr⟩
  | @letter c u s t hc hune hu h ih =>
    have hnone : stripPrefix sep (c :: s) = none := by
      obtain ⟨d, sep, rfl⟩ := exists_cons_of_ne_nil hne
      have hdc : d ≠ c := by
        rintro rfl
        exact absurd (hsep d mem_cons_self) (Bool.eq_false_iff.mp hc)
      simp [stripPrefix, List.isPrefixOf?, hdc]
    rw [splitOnceStr_letters hne hsep hu, splitOnceStr, hnone]
    rcases ih with ⟨hs, ht⟩ | ⟨l, r, l', r', hs, ht, hr⟩
    · exact .inl (by simp [hs, ht])
    · exact .inr ⟨c :: l, r, u ++ l', r', by simp [hs], by simp [ht], hr⟩

end MapsCase

namespace Lowercases

variable {lower : Text → Text} (h : Lowercases lower)

include h

variable {c : Char} {s : Text}

theorem mem_iff (hc : isCaseless c) (s : Text) : c ∈ lower s ↔ c ∈ s :=
  (h.maps s).mem_iff hc

theorem count_eq (hc : isCaseless c) (s : Text) :
    (lower s).count c = s.count c := (h.maps s).count_eq hc

theorem head?_eq_iff (hc : isCaseless c) (s : Text) :
    (lower s).head? = some c ↔ s.head? = some c := (h.maps s).head?_eq_iff hc

theorem trimStart_eq (hs : trimStart s = s) (t : Text) (ht : trimStart t = t) :
    trimStart (lower s ++ t) = lower s ++ t := by
  cases hl : lower s with
  | nil => exact ht
  | cons c w =>
    rw [cons_append, trimStart, dropWhile_cons_of_neg]
    intro hc
    have hcase : isCaseless c := by rw [isCaseless, hc, Bool.true_or]
    have hhead := (h.head?_eq_iff hcase s).mp (by rw [hl]; rfl)
    cases s with
    | nil => cases hhead
    | cons d s =>
      obtain rfl : d = c := by simpa using hhead
      rw [trimStart, dropWhile_cons_of_pos hc] at hs
      have hlen := congrArg List.length hs
      have hle := (dropWhile_suffix (p := isWhitespace) (l := s)).length_le
      rw [length_cons] at hlen
      omega

theorem splitOnceStr_eq {sep r : Text} (hne : sep ≠ []) (hsep : ∀ c ∈ sep, isCaseless c)
    {l : Text} (hs : splitOnceStr sep s = some (l, r)) (t : Text) :
    splitOnceStr sep (lower l ++ (sep ++ t)) = some (lower l, t) := by
  have hmaps : MapsCase (l ++ sep) (lower l ++ sep) :=
    (h.maps l).append (MapsCase.refl_of_caseless hsep)
  have hself := splitOnceStr_self hs
  rcases MapsCase.splitOnceStr_eq hne hsep hmaps with ⟨hnone, -⟩ | ⟨l₁, r₁, l', r', h₁, h', hr⟩
  · rw [hself] at hnone
    cases hnone
  · rw [hself, Option.some.injEq, Prod.mk.injEq] at h₁
    obtain rfl : r' = [] := hr.eq_nil_iff.mpr h₁.2.symm
    have heq := eq_of_splitOnceStr h'
    rw [append_nil, append_left_inj] at heq
    rw [← heq] at h'
    rw [← append_assoc]
    exact splitOnceStr_extend h' t

theorem splitOnceStr_eq_none {sep : Text} (hne : sep ≠ []) (hsep : ∀ c ∈ sep, isCaseless c)
    (hs : splitOnceStr sep s = none) : splitOnceStr sep (lower s) = none := by
  rcases MapsCase.splitOnceStr_eq hne hsep (h.maps s) with ⟨-, hnone⟩ | ⟨l, r, l', r', hsome, -⟩
  · exact hnone
  · rw [hs] at hsome
    cases hsome

end Lowercases

/-! ## ASCII -/

variable {c : Char}

theorem isCaseless_of_isAlpha (h : c.isAlpha) : isCaseless c = false := by
  have hblank : isWhitespace c = false := by
    unfold Char.isAlpha Char.isUpper Char.isLower at h
    simp only [Bool.or_eq_true, Bool.and_eq_true, decide_eq_true_eq, UInt32.le_iff_toNat_le] at h
    simp only [isWhitespace, Char.toNat, Bool.or_eq_false_iff, Bool.and_eq_false_iff,
      decide_eq_false_iff_not, List.mem_cons, not_mem_nil, or_false, not_or, seval] at h ⊢
    omega
  rw [isCaseless, hblank, h]
  simp

theorem isAlpha_toLower (h : c.toLower ≠ c) : c.isAlpha ∧ c.toLower.isAlpha = true := by
  unfold Char.toLower at h ⊢
  split at h
  · rename_i hupper
    rw [dif_pos hupper]
    unfold Char.isAlpha Char.isUpper Char.isLower
    simp only [ge_iff_le, UInt32.le_iff_toNat_le,
      UInt32.toNat_add, Bool.or_eq_true, Bool.and_eq_true, decide_eq_true_eq, seval] at hupper ⊢
    omega
  · exact absurd rfl h

theorem toLower_of_isCaseless (h : isCaseless c) : c.toLower = c := by
  by_contra hne
  rw [isCaseless_of_isAlpha (isAlpha_toLower hne).1] at h
  cases h

theorem isCaseless_toLower (c : Char) : isCaseless c.toLower = isCaseless c := by
  by_cases h : c.toLower = c
  · rw [h]
  · obtain ⟨hc, hlower⟩ := isAlpha_toLower h
    rw [isCaseless_of_isAlpha hc, isCaseless_of_isAlpha hlower]

theorem toLower_eq_iff {d : Char} (hd : isCaseless d) : c.toLower = d ↔ c = d := by
  constructor
  · rintro rfl
    rw [isCaseless_toLower] at hd
    exact (toLower_of_isCaseless hd).symm
  · rintro rfl
    exact toLower_of_isCaseless hd

theorem lowercases_toAsciiLowercase : Lowercases toAsciiLowercase where
  maps s := by
    induction s with
    | nil => exact .nil
    | cons c s ih =>
      cases hc : isCaseless c with
      | true =>
        rw [toAsciiLowercase, map_cons, toLower_of_isCaseless hc]
        exact .keep hc ih
      | false =>
        refine .letter (u := [c.toLower]) hc (cons_ne_nil _ _) (fun d hd => ?_) ih
        rw [mem_singleton.mp hd, isCaseless_toLower, hc]
  idem := toAsciiLowercase_idem
  bracket s t := by
    rw [toAsciiLowercase, map_append, map_cons]
    rfl

end Synsema.Text
