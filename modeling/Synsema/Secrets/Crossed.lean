import Synsema.Secrets.Inner

/-!
# Where two bindings meet

`intersect_bound` keeps the hosts of one list that a host of the other covers.  What a host of each
list covers is covered by what is kept as long as one of the two hosts covers the other.

The hosts that cover one destination are always comparable, and so are the ports.  They may be
comparable the other way round: of `*.x.com:443` and `api.x.com` neither covers the other, and yet both
cover `api.x.com:443`.  These are the only pairs that are lost (`intersectBound_covers_iff`).
-/

namespace Synsema.Secrets

open Text Capscope List

/-! ## Hosts that cover one destination -/

variable {p q dest : Text}

theorem boundHostOk_total {h : Text} (hp : boundHostOk p h) (hq : boundHostOk q h) :
    boundHostOk p q ∨ boundHostOk q p = true := by
  have hp' := boundHostOk_iff.mp hp
  have hq' := boundHostOk_iff.mp hq
  rcases hp' with rfl | ⟨s, rfl, u, hu, rfl⟩
  · exact .inr hq
  rcases hq' with rfl | ⟨t, rfl, v, hv, heq⟩
  · exact .inl hp
  -- two wildcards, whose suffixes are suffixes of one host
  rcases append_eq_append_iff.mp heq with ⟨w, -, hw⟩ | ⟨w, -, hw⟩
  · refine .inr (boundHostOk_iff.mpr (.inr ⟨t, rfl, '*' :: w, cons_ne_nil _ _, ?_⟩))
    rw [hw, cons_append]
  · refine .inl (boundHostOk_iff.mpr (.inr ⟨s, rfl, '*' :: w, cons_ne_nil _ _, ?_⟩))
    rw [hw, cons_append]

theorem boundHostOk_antisymm (hpq : boundHostOk p q) (hqp : boundHostOk q p) : p = q := by
  rcases boundHostOk_iff.mp hpq with rfl | ⟨s, rfl, u, hu, rfl⟩
  · rfl
  rcases boundHostOk_iff.mp hqp with heq | ⟨t, hq, v, hv, hp⟩
  · exact heq.symm
  -- neither has more than the other before its suffix
  have hlen := congrArg List.length hp
  have hlen' := congrArg List.length hq
  have hupos := length_pos_iff.mpr hu
  have hvpos := length_pos_iff.mpr hv
  simp only [length_cons, length_append] at hlen hlen'
  obtain ⟨c, rfl⟩ := length_eq_one_iff.mp (show u.length = 1 by omega)
  rw [singleton_append, List.cons.injEq] at hq
  rw [singleton_append, hq.1]

theorem portOk_total {p q r : Option Text} (hp : portOk p r) (hq : portOk q r) :
    portOk p q ∨ portOk q p = true := by
  cases p with
  | none => exact .inl rfl
  | some p =>
    cases q with
    | none => exact .inr rfl
    | some q =>
      rw [portOk, Option.isNone_some, Bool.false_or, beq_iff_eq] at hp hq
      exact .inl (by simp [portOk, hp, hq])

/-! ## Hosts that cross -/

/-- A wildcard with a port, and a host under it without one. -/
structure CrossesOver (p q : Text) : Prop where
  port : (splitHostPort p).2.isSome = true
  noPort : (splitHostPort q).2 = none
  under : boundHostOk (splitHostPort p).1 (splitHostPort q).1 = true
  ne : (splitHostPort p).1 ≠ (splitHostPort q).1

/-- The hosts of two bindings cross: one of them is the wider by its host, the other by its port. -/
def Crossed (p q : Text) : Prop := CrossesOver p q ∨ CrossesOver q p

theorem boundHostCovers_iff {d : Text} : boundHostCovers p d ↔
    boundHostOk (splitHostPort p).1 (splitHostPort d).1 ∧
      portOk (splitHostPort p).2 (splitHostPort d).2 = true := by
  rw [boundHostCovers, Bool.and_eq_true, portOk]

theorem CrossesOver.not_covers (h : CrossesOver p q) :
    boundHostCovers p q ≠ true ∧ boundHostCovers q p ≠ true := by
  constructor
  · intro hcov
    have hport := (boundHostCovers_iff.mp hcov).2
    rw [h.noPort, portOk, Bool.or_eq_true, Option.isNone_iff_eq_none, beq_iff_eq, or_self] at hport
    have hsome := h.port
    rw [hport] at hsome
    cases hsome
  · exact fun hcov => h.ne (boundHostOk_antisymm h.under (boundHostCovers_iff.mp hcov).1)

theorem covers_or_crossesOver
    (hhost : boundHostOk (splitHostPort p).1 (splitHostPort q).1)
    (hport : portOk (splitHostPort p).2 (splitHostPort q).2 ∨
      portOk (splitHostPort q).2 (splitHostPort p).2) :
    boundHostCovers p q ∨ boundHostCovers q p ∨ CrossesOver p q := by
  rcases hport with hport | hport
  · exact .inl (boundHostCovers_iff.mpr ⟨hhost, hport⟩)
  by_cases heq : (splitHostPort p).1 = (splitHostPort q).1
  · refine .inr (.inl (boundHostCovers_iff.mpr ⟨?_, hport⟩))
    exact boundHostOk_iff.mpr (.inl heq.symm)
  cases hp : (splitHostPort p).2 with
  | none => exact .inl (boundHostCovers_iff.mpr ⟨hhost, by rw [hp]; rfl⟩)
  | some s =>
    cases hq : (splitHostPort q).2 with
    | none => exact .inr (.inr ⟨by rw [hp]; rfl, hq, hhost, heq⟩)
    | some t =>
      -- two ports, of which one admits the other, are one
      rw [hp, hq, portOk, Option.isNone_some, Bool.false_or, beq_iff_eq] at hport
      exact .inl (boundHostCovers_iff.mpr ⟨hhost, by simp [hp, hq, portOk, hport]⟩)

theorem covers_or_covers_iff (hp : boundHostCovers p dest) (hq : boundHostCovers q dest) :
    boundHostCovers p q ∨ boundHostCovers q p ↔ ¬Crossed p q := by
  constructor
  · rintro hcov (hcross | hcross)
    · exact hcov.elim hcross.not_covers.1 hcross.not_covers.2
    · exact hcov.elim hcross.not_covers.2 hcross.not_covers.1
  · intro hcross
    obtain ⟨hph, hpp⟩ := boundHostCovers_iff.mp hp
    obtain ⟨hqh, hqp⟩ := boundHostCovers_iff.mp hq
    have hport := portOk_total hpp hqp
    rcases boundHostOk_total hph hqh with hhost | hhost
    · rcases covers_or_crossesOver hhost hport with h | h | h
      · exact .inl h
      · exact .inr h
      · exact absurd (.inl h) hcross
    · rcases covers_or_crossesOver hhost hport.symm with h | h | h
      · exact .inr h
      · exact .inl h
      · exact absurd (.inr h) hcross

/-! ## The intersection -/

/-- A destination that hosts of both lists cover, but only hosts that cross. -/
def OnlyCrossed (a b : List Text) (dest : Text) : Prop :=
  CoveredIn a dest ∧ CoveredIn b dest ∧
    ∀ p ∈ a, ∀ q ∈ b, boundHostCovers p dest = true → boundHostCovers q dest = true → Crossed p q

theorem intersectBound_covers_iff {a b : List Text} :
    CoveredIn (intersectBound a b) dest ↔
      ∃ p ∈ a, ∃ q ∈ b, boundHostCovers p dest ∧ boundHostCovers q dest ∧
        ¬Crossed p q := by
  constructor
  · rintro ⟨h, hmem, hdest⟩
    rcases mem_intersectBound.mp hmem with ⟨ha, q, hq, hcov⟩ | ⟨hb, p, hp, hcov⟩
    · have hqd := boundHostCovers_trans hcov hdest
      exact ⟨h, ha, q, hq, hdest, hqd, (covers_or_covers_iff hdest hqd).mp (.inr hcov)⟩
    · have hpd := boundHostCovers_trans hcov hdest
      exact ⟨p, hp, h, hb, hpd, hdest, (covers_or_covers_iff hpd hdest).mp (.inl hcov)⟩
  · rintro ⟨p, hp, q, hq, hpd, hqd, hcross⟩
    rcases (covers_or_covers_iff hpd hqd).mpr hcross with hcov | hcov
    · exact ⟨q, mem_intersectBound.mpr (.inr ⟨hq, p, hp, hcov⟩), hqd⟩
    · exact ⟨p, mem_intersectBound.mpr (.inl ⟨hp, q, hq, hcov⟩), hpd⟩

/-- **When the intersection is exact**: at every destination but those that only hosts that cross
cover. -/
theorem intersectBound_exact_iff (a b : List Text) (dest : Text) :
    (CoveredIn (intersectBound a b) dest ↔ CoveredIn a dest ∧ CoveredIn b dest) ↔
      ¬OnlyCrossed a b dest := by
  constructor
  · rintro hexact ⟨ha, hb, hcross⟩
    obtain ⟨p, hp, q, hq, hpd, hqd, hn⟩ := intersectBound_covers_iff.mp (hexact.mpr ⟨ha, hb⟩)
    exact hn (hcross p hp q hq hpd hqd)
  · intro hcross
    refine ⟨fun h => ⟨h.left, h.right⟩, fun ⟨ha, hb⟩ => ?_⟩
    by_contra hn
    refine hcross ⟨ha, hb, fun p hp q hq hpd hqd => ?_⟩
    by_contra hpq
    exact hn (intersectBound_covers_iff.mpr ⟨p, hp, q, hq, hpd, hqd, hpq⟩)

/-- Of a wildcard with a port and an exact name nothing is kept, though both cover that name at that
port. -/
theorem intersectBound_crossed :
    (∀ debug, boundHostError debug "*.x.com:443" = none ∧
      boundHostError debug "api.x.com" = none) ∧
    intersectBound ["*.x.com:443"] ["api.x.com"] = [] ∧
    ¬(CoveredIn (intersectBound ["*.x.com:443"] ["api.x.com"])
        "api.x.com:443" ↔
      CoveredIn ["*.x.com:443"] "api.x.com:443" ∧
        CoveredIn ["api.x.com"] "api.x.com:443") := by
  have hempty : intersectBound ["*.x.com:443"] ["api.x.com"] = [] := by decide
  refine ⟨fun _ => ⟨rfl, rfl⟩, hempty, fun hexact => ?_⟩
  obtain ⟨h, hmem, -⟩ := hexact.mpr
    ⟨⟨_, mem_singleton_self _, by decide⟩, ⟨_, mem_singleton_self _, by decide⟩⟩
  rw [hempty] at hmem
  cases hmem

end Synsema.Secrets
