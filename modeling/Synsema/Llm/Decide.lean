import Synsema.Lowercase

/-!
# The option that a model decides for

How an answer is read as one of the options of `decide` (`normalize_decide_token`,
`normalize_decide` and `contains_whole` of `synsema-runtime/src/llm_providers.rs`).  The search for
an option goes on behind an occurrence that it rejects and misses one that overlaps it, and the
marks around an answer are taken off once (`readsLaw_iff`).

Small letters and `char::is_alphanumeric` are parameters.
-/

namespace Synsema.Llm.Decide

open Text List

/-- ASCII punctuation, and the marks of other languages. -/
def isMark (c : Char) : Bool :=
  (33 ≤ c.toNat && c.toNat ≤ 47) || (58 ≤ c.toNat && c.toNat ≤ 64) ||
    (91 ≤ c.toNat && c.toNat ≤ 96) || (123 ≤ c.toNat && c.toNat ≤ 126) ||
    "¿¡«»“”‘’".toList.contains c

def trimMatches (p : Char → Bool) (s : Text) : Text := trimEndMatches p (s.dropWhile p)

variable (lower : Text → Text) (isAlphanumeric : Char → Bool)

/-- The answer without what stands around it. -/
def bare (s : Text) : Text := trim (trimMatches isMark (trim s))

def normalizeDecideToken (s : Text) : Text := lower (bare s)

/-- The rounds of `contains_whole`, with what is behind them. -/
def search (needle : Text) : Nat → Text → Text → Bool
  -- Not reached: each round moves over the needle, which is not empty.
  | 0, _, _ => false
  | fuel + 1, behind, rest =>
    match splitOnceStr needle rest with
    | none => false
    | some (l, r) =>
      let beforeOk := (behind ++ l).getLast?.all fun c => !isAlphanumeric c
      let afterOk := r.head?.all fun c => !isAlphanumeric c
      if beforeOk && afterOk then true else search needle fuel (behind ++ l ++ needle) r

def containsWhole (haystack needle : Text) : Bool :=
  search isAlphanumeric needle (haystack.length + 1) [] haystack

/-- The option is found in the answer. -/
def found (rawNorm opt : Text) : Bool :=
  let o := normalizeDecideToken lower opt
  !o.isEmpty && containsWhole isAlphanumeric rawNorm o

def normalizeDecide (raw : Text) (options : List Text) : Option Text :=
  let rawNorm := normalizeDecideToken lower raw
  if rawNorm.isEmpty then none
  else
    match options.find? fun opt => normalizeDecideToken lower opt = rawNorm with
    | some opt => some opt
    | none =>
      match options.filter (found lower isAlphanumeric rawNorm) with
      | [only] => some only
      | _ => none

/-! ## The reference -/

/-- No letter or digit stands next to what is between the two. -/
def Free (l r : Text) : Prop :=
  (∀ c ∈ l.getLast?, isAlphanumeric c = false) ∧ ∀ c ∈ r.head?, isAlphanumeric c = false

def Occurs (rawNorm opt : Text) : Prop :=
  normalizeDecideToken lower opt ≠ [] ∧ ∃ l r,
    rawNorm = l ++ normalizeDecideToken lower opt ++ r ∧ Free isAlphanumeric l r

/-- It is the only entry of the list of which this holds. -/
def Only (P : Text → Prop) (options : List Text) (o : Text) : Prop :=
  ∃ l r, options = l ++ o :: r ∧ P o ∧ ∀ o' ∈ l ++ r, ¬P o'

/-- The answer is read as the option. -/
def Reads (raw : Text) (options : List Text) (o : Text) : Prop :=
  let rawNorm := normalizeDecideToken lower raw
  rawNorm ≠ [] ∧ (options.find? (fun opt => normalizeDecideToken lower opt = rawNorm) = some o ∨
    (∀ opt ∈ options, normalizeDecideToken lower opt ≠ rawNorm) ∧
      Only (Occurs lower isAlphanumeric rawNorm) options o)

structure ReadsLaw (raw : Text) (options : List Text) : Prop where
  reads : ∀ o, normalizeDecide lower isAlphanumeric raw options = some o ↔
    Reads lower isAlphanumeric raw options o
  given : ∀ o, normalizeDecide lower isAlphanumeric raw options = some o → o ∈ options
  normal : normalizeDecideToken lower (normalizeDecideToken lower raw) =
    normalizeDecideToken lower raw

/-- `r` stands behind one of the matches of `str::match_indices`, which do not overlap, and `l`
before it. -/
inductive Match (needle : Text) : Text → Text → Text → Prop where
  | first {s l r : Text} (h : splitOnceStr needle s = some (l, r)) : Match needle s l r
  | next {s l r l' r' : Text} (h : splitOnceStr needle s = some (l, r)) (hr : Match needle r l' r') :
    Match needle s (l ++ needle ++ l') r'

def Matched (rawNorm opt : Text) : Prop :=
  normalizeDecideToken lower opt ≠ [] ∧ ∃ l r,
    Match (normalizeDecideToken lower opt) rawNorm l r ∧ Free isAlphanumeric l r

/-- The option occurs, but only over the end of a match. -/
def Missed (rawNorm opt : Text) : Prop :=
  Occurs lower isAlphanumeric rawNorm opt ∧ ¬Matched lower isAlphanumeric rawNorm opt

/-- No mark is left at the ends, and where the answer is no option, the only option that occurs is
not missed, and none is missed beside the only one matched. -/
structure Plain (raw : Text) (options : List Text) : Prop where
  bare : ∀ c, c ∈ (bare raw).head? ∨ c ∈ (bare raw).getLast? → isMark c = false
  unmissed : let rawNorm := normalizeDecideToken lower raw
    rawNorm = [] ∨ (∃ opt ∈ options, normalizeDecideToken lower opt = rawNorm) ∨
      (∀ o, Only (Occurs lower isAlphanumeric rawNorm) options o →
        ¬Missed lower isAlphanumeric rawNorm o) ∧
      ∀ o, Only (Matched lower isAlphanumeric rawNorm) options o →
        ∀ opt ∈ options, ¬Missed lower isAlphanumeric rawNorm opt

/-- Small letters leave marks and blanks where they are. -/
structure KeepsMarks (lower : Text → Text) : Prop where
  idem : ∀ s, lower (lower s) = lower s
  count : ∀ c s, isMark c ∨ isWhitespace c → (lower s).count c = s.count c
  head : ∀ c s, isMark c ∨ isWhitespace c → (c ∈ (lower s).head? ↔ c ∈ s.head?)
  last : ∀ c s, isMark c ∨ isWhitespace c → (c ∈ (lower s).getLast? ↔ c ∈ s.getLast?)

/-! ## Trimming -/

variable {lower} {isAlphanumeric} {p : Char → Bool} {s raw rawNorm opt : Text} {options : List Text}
  {c : Char}

theorem trimMatches_isInfix (p : Char → Bool) (s : Text) : trimMatches p s <:+: s :=
  (List.rdropWhile_prefix p _).isInfix.trans (dropWhile_suffix p).isInfix

theorem ends_trimMatches (h : c ∈ (trimMatches p s).head? ∨ c ∈ (trimMatches p s).getLast?) :
    p c = false := by
  rcases h with h | h
  · obtain ⟨r, hr⟩ := List.rdropWhile_prefix p (s.dropWhile p)
    have hhead := head?_dropWhile_not p s
    rw [← hr, head?_append, show (rdropWhile p (s.dropWhile p)).head? = some c from h] at hhead
    exact hhead
  · obtain ⟨hne, rfl⟩ := mem_getLast?_eq_getLast h
    exact Bool.eq_false_iff.mpr (rdropWhile_last_not p _ hne)

theorem trimMatches_eq_self (h : ∀ c, c ∈ s.head? ∨ c ∈ s.getLast? → p c = false) :
    trimMatches p s = s := by
  have hdrop : s.dropWhile p = s := by
    cases s with
    | nil => rfl
    | cons c s => exact dropWhile_cons_of_neg (by simp [h c (.inl rfl)])
  rw [trimMatches, hdrop, trimEndMatches, rdropWhile_eq_self_iff]
  intro hne
  simp [h _ (.inr (getLast?_eq_some_getLast hne))]

theorem count_trimMatches_lt (hp : p c) (h : c ∈ s.head? ∨ c ∈ s.getLast?) :
    (trimMatches p s).count c < s.count c := by
  suffices hless : ∃ t, s.count c = t.count c + 1 ∧ (trimMatches p s).Sublist t by
    obtain ⟨t, hs, hsub⟩ := hless
    exact hs ▸ Nat.lt_succ_of_le (hsub.count_le c)
  rcases h with h | h
  · obtain ⟨t, rfl⟩ := head?_eq_some_iff.mp h
    refine ⟨t, count_cons_self, ?_⟩
    rw [trimMatches, dropWhile_cons_of_pos hp]
    exact (trimMatches_isInfix p t).sublist
  · obtain ⟨t, rfl⟩ := getLast?_eq_some_iff.mp h
    refine ⟨t, by simp, ?_⟩
    rw [trimMatches, dropWhile_append]
    split
    · simp [hp, trimEndMatches]
    · rw [trimEndMatches, rdropWhile_concat_pos _ _ _ hp]
      exact (trimMatches_isInfix p t).sublist

/-- A second pass changes nothing exactly where no mark is left at the ends. -/
theorem normal_iff (hl : KeepsMarks lower) :
    normalizeDecideToken lower (normalizeDecideToken lower raw) = normalizeDecideToken lower raw ↔
      ∀ c, c ∈ (bare raw).head? ∨ c ∈ (bare raw).getLast? → isMark c = false := by
  have hblank : ∀ c, c ∈ (lower (bare raw)).head? ∨ c ∈ (lower (bare raw)).getLast? →
      isWhitespace c = false := by
    intro c hc
    by_contra hblank
    have hw : isWhitespace c := by simpa using hblank
    rw [hl.head c _ (.inr hw), hl.last c _ (.inr hw)] at hc
    exact hblank (ends_trimMatches hc)
  have htrim : trim (lower (bare raw)) = lower (bare raw) :=
    trimMatches_eq_self hblank
  constructor
  · intro h c hc
    by_contra hmark
    have hmark : isMark c := by simpa using hmark
    have hc' : c ∈ (lower (bare raw)).head? ∨ c ∈ (lower (bare raw)).getLast? := by
      rwa [hl.head c _ (.inl hmark), hl.last c _ (.inl hmark)]
    -- the mark is taken off, and nothing brings it back
    have hlt := count_trimMatches_lt hmark hc'
    have hle := (trimMatches_isInfix isWhitespace
      (trimMatches isMark (lower (bare raw)))).sublist.count_le c
    have hsame := congrArg (count c) h
    rw [normalizeDecideToken, hl.count c _ (.inl hmark), bare, normalizeDecideToken, htrim] at hsame
    exact absurd (hsame ▸ hle) (Nat.not_le.mpr hlt)
  · intro h
    have hmarks : trimMatches isMark (lower (bare raw)) = lower (bare raw) := by
      refine trimMatches_eq_self fun c hc => ?_
      by_contra hmark
      have hmark : isMark c := by simpa using hmark
      rw [hl.head c _ (.inl hmark), hl.last c _ (.inl hmark)] at hc
      rw [h c hc] at hmark
      cases hmark
    rw [normalizeDecideToken, normalizeDecideToken, bare, htrim, hmarks, htrim, hl.idem]

/-! ## The search -/

theorem Match.eq_append {needle l r : Text} (h : Match needle s l r) : s = l ++ needle ++ r := by
  induction h with
  | first h => rw [eq_of_splitOnceStr h, append_assoc]
  | next h _ ih => rw [eq_of_splitOnceStr h, ih]; simp

theorem search_iff {needle behind : Text} {fuel : Nat} (hfuel : s.length < fuel) (hne : needle ≠ []) :
    search isAlphanumeric needle fuel behind s ↔
      ∃ l r, Match needle s l r ∧ Free isAlphanumeric (behind ++ l) r := by
  induction fuel generalizing behind s with
  | zero => cases hfuel
  | succ fuel ih =>
    rw [search]
    split
    next hsplit =>
      refine iff_of_false nofun ?_
      rintro ⟨l, r, hmatch, -⟩
      cases hmatch with
      | first h | next h => rw [hsplit] at h; cases h
    next l r hsplit =>
      have hs := congrArg length (eq_of_splitOnceStr hsplit)
      have hpos := length_pos_iff.mpr hne
      have hfree : (((behind ++ l).getLast?.all fun c => !isAlphanumeric c) &&
          r.head?.all fun c => !isAlphanumeric c) ↔ Free isAlphanumeric (behind ++ l) r := by
        simp [Free, Option.all_eq_true]
      dsimp only
      split
      next hok => exact iff_of_true rfl ⟨l, r, .first hsplit, hfree.mp hok⟩
      next hok =>
        rw [ih (by simp only [length_append] at hs; omega)]
        constructor
        · rintro ⟨l', r', hmatch, hends⟩
          exact ⟨_, r', .next hsplit hmatch, by simpa using hends⟩
        · rintro ⟨_, r', hmatch, hends⟩
          cases hmatch with
          | first h =>
            cases hsplit.symm.trans h
            exact absurd (hfree.mpr hends) hok
          | next h hmatch =>
            cases hsplit.symm.trans h
            exact ⟨_, r', hmatch, by simpa using hends⟩

theorem found_iff :
    found lower isAlphanumeric rawNorm opt ↔ Matched lower isAlphanumeric rawNorm opt := by
  rw [found, Bool.and_eq_true, Bool.not_eq_true', isEmpty_eq_false_iff]
  exact and_congr_right fun hne => search_iff (Nat.lt_succ_self _) hne

theorem Matched.occurs (h : Matched lower isAlphanumeric rawNorm opt) :
    Occurs lower isAlphanumeric rawNorm opt := by
  obtain ⟨hne, l, r, hmatch, hends⟩ := h
  exact ⟨hne, l, r, hmatch.eq_append, hends⟩

theorem filter_found {o : Text} : options.filter (found lower isAlphanumeric rawNorm) = [o] ↔
    Only (Matched lower isAlphanumeric rawNorm) options o := by
  constructor
  · intro h
    obtain ⟨l, r, rfl, hl, ho, hr⟩ := filter_eq_cons_iff.mp h
    refine ⟨l, r, rfl, found_iff.mp ho, fun o' ho' hmatched => ?_⟩
    rcases mem_append.mp ho' with ho' | ho'
    · exact hl o' ho' (found_iff.mpr hmatched)
    · exact filter_eq_nil_iff.mp hr o' ho' (found_iff.mpr hmatched)
  · rintro ⟨l, r, rfl, ho, hno⟩
    have hnone : ∀ o' ∈ l ++ r, ¬found lower isAlphanumeric rawNorm o' :=
      fun o' h => mt found_iff.mp (hno o' h)
    rw [filter_append, filter_eq_nil_iff.mpr fun o' h => hnone o' (mem_append_left _ h),
      filter_cons_of_pos (found_iff.mpr ho),
      filter_eq_nil_iff.mpr fun o' h => hnone o' (mem_append_right _ h)]
    rfl

/-! ## The law -/

theorem normalizeDecide_eq_some {o : Text} :
    normalizeDecide lower isAlphanumeric raw options = some o ↔
      normalizeDecideToken lower raw ≠ [] ∧ (options.find? (fun opt =>
        normalizeDecideToken lower opt = normalizeDecideToken lower raw) = some o ∨
        (∀ opt ∈ options, normalizeDecideToken lower opt ≠ normalizeDecideToken lower raw) ∧
          Only (Matched lower isAlphanumeric (normalizeDecideToken lower raw)) options o) := by
  rw [normalizeDecide, ← filter_found]
  split
  next hempty => exact iff_of_false nofun fun h => h.1 (isEmpty_iff.mp hempty)
  next hne =>
    rw [and_iff_right fun hnil => hne (isEmpty_iff.mpr hnil)]
    split
    next opt hfind =>
      rw [hfind]
      have hin : opt ∈ options ∧ _ := ⟨mem_of_find?_eq_some hfind, find?_some hfind⟩
      refine (or_iff_left fun h => h.1 opt hin.1 (by simpa using hin.2)).symm
    next hfind =>
      have hnone : ∀ opt ∈ options,
          normalizeDecideToken lower opt ≠ normalizeDecideToken lower raw :=
        fun opt hopt heq => find?_eq_none.mp hfind opt hopt (by simpa using heq)
      rw [hfind, and_iff_right hnone, or_iff_right nofun]
      split
      next only honly => rw [honly, Option.some.injEq, cons.injEq, and_iff_left rfl]
      next hmany => exact iff_of_false nofun fun h => hmany o h

theorem only_iff {F O : Text → Prop} (hFO : ∀ o, F o → O o) :
    (∀ o, Only F options o ↔ Only O options o) ↔ (∀ o, Only O options o → ¬(O o ∧ ¬F o)) ∧
      ∀ o, Only F options o → ∀ opt ∈ options, ¬(O opt ∧ ¬F opt) := by
  constructor
  · refine fun h => ⟨fun o ho hmiss => ?_, fun o ho opt hopt hmiss => ?_⟩
    · obtain ⟨_, _, -, hF, -⟩ := (h o).mpr ho
      exact hmiss.2 hF
    · obtain ⟨l, r, heq, -, hno⟩ := (h o).mp ho
      obtain ⟨_, _, -, hF, -⟩ := ho
      rw [heq, mem_append, mem_cons] at hopt
      rcases hopt with hl | rfl | hr
      · exact hno opt (mem_append_left _ hl) hmiss.1
      · exact hmiss.2 hF
      · exact hno opt (mem_append_right _ hr) hmiss.1
  · rintro ⟨hone, hbeside⟩ o
    constructor
    · intro ho
      have hnone := hbeside o ho
      obtain ⟨l, r, rfl, hF, hno⟩ := ho
      refine ⟨l, r, rfl, hFO o hF, fun o' ho' hO => hnone o' ?_ ⟨hO, hno o' ho'⟩⟩
      exact mem_append.mpr ((mem_append.mp ho').imp_right (mem_cons_of_mem o))
    · intro ho
      have hfound := hone o ho
      obtain ⟨l, r, heq, hO, hno⟩ := ho
      exact ⟨l, r, heq, by_contra fun hF => hfound ⟨hO, hF⟩, fun o' ho' hF => hno o' ho' (hFO o' hF)⟩

theorem reads_iff : (∀ o, normalizeDecide lower isAlphanumeric raw options = some o ↔
      Reads lower isAlphanumeric raw options o) ↔
    normalizeDecideToken lower raw = [] ∨
      (∃ opt ∈ options, normalizeDecideToken lower opt = normalizeDecideToken lower raw) ∨
      ∀ o, Only (Matched lower isAlphanumeric (normalizeDecideToken lower raw)) options o ↔
        Only (Occurs lower isAlphanumeric (normalizeDecideToken lower raw)) options o := by
  simp only [normalizeDecide_eq_some, Reads]
  constructor
  · intro h
    by_cases hnil : normalizeDecideToken lower raw = []
    · exact .inl hnil
    by_cases hsame : ∃ opt ∈ options, normalizeDecideToken lower opt = normalizeDecideToken lower raw
    · exact .inr (.inl hsame)
    have hno : ∀ opt ∈ options, normalizeDecideToken lower opt ≠ normalizeDecideToken lower raw :=
      fun opt hopt heq => hsame ⟨opt, hopt, heq⟩
    have hfind : options.find? (fun opt =>
        normalizeDecideToken lower opt = normalizeDecideToken lower raw) = none :=
      find?_eq_none.mpr fun opt hopt => by simpa using hno opt hopt
    refine .inr (.inr fun o => ?_)
    have ho := h o
    rwa [and_iff_right hnil, hfind, or_iff_right nofun, and_iff_right hno, or_iff_right nofun,
      and_iff_right hno, and_iff_right hnil] at ho
  · rintro (hnil | ⟨opt, hopt, heq⟩ | h) o
    · exact iff_of_false (fun ho => ho.1 hnil) fun ho => ho.1 hnil
    · refine and_congr_right fun _ => or_congr_right ?_
      exact iff_of_false (fun ho => ho.1 opt hopt heq) fun ho => ho.1 opt hopt heq
    · exact and_congr_right fun _ => or_congr_right (and_congr_right fun _ => h o)

/-- The answer is read as the reference reads it, and a second pass changes nothing, exactly where
no mark is left and no option is missed that makes a difference. -/
theorem readsLaw_iff (hl : KeepsMarks lower) (isAlphanumeric : Char → Bool) (raw : Text)
    (options : List Text) :
    ReadsLaw lower isAlphanumeric raw options ↔ Plain lower isAlphanumeric raw options := by
  have hgiven : ∀ o, normalizeDecide lower isAlphanumeric raw options = some o → o ∈ options := by
    intro o h
    rcases (normalizeDecide_eq_some.mp h).2 with hfind | ⟨-, l, r, rfl, -⟩
    · exact mem_of_find?_eq_some hfind
    · exact mem_append_right _ mem_cons_self
  have honly := @only_iff options (Matched lower isAlphanumeric (normalizeDecideToken lower raw))
    (Occurs lower isAlphanumeric (normalizeDecideToken lower raw)) fun _ => Matched.occurs
  constructor
  · intro h
    exact ⟨(normal_iff hl).mp h.normal, (reads_iff.mp h.reads).imp_right
      (Or.imp_right honly.mp)⟩
  · intro h
    exact ⟨reads_iff.mpr (h.unmissed.imp_right (Or.imp_right honly.mpr)), hgiven,
      (normal_iff hl).mpr h.bare⟩

/-! ## Answers that are read otherwise -/

theorem not_isAlpha (h : isMark c ∨ isWhitespace c) : c.isAlpha = false := by
  rcases h with h | h
  · by_contra halpha
    unfold Char.isAlpha Char.isUpper Char.isLower at halpha
    simp only [Bool.or_eq_true, Bool.and_eq_true, decide_eq_true_eq, UInt32.le_iff_toNat_le, Bool.not_eq_false, ge_iff_le] at halpha
    simp only [isMark, Bool.or_eq_true, Bool.and_eq_true, decide_eq_true_eq, contains_iff_mem,
      Char.toNat] at h
    have hwide : ∀ d ∈ "¿¡«»“”‘’".toList, 128 ≤ d.val.toNat := by decide
    simp only [seval] at halpha
    rcases h with h | h
    · omega
    · have := hwide c h
      omega
  · by_contra halpha
    have := isCaseless_of_isAlpha (Bool.not_eq_false _ ▸ halpha : c.isAlpha = true)
    simp [isCaseless, h] at this

theorem toLower_eq_iff_of_mark (h : isMark c ∨ isWhitespace c) (d : Char) : d.toLower = c ↔ d = c := by
  by_cases hd : d.toLower = d
  · rw [hd]
  · obtain ⟨halpha, hlower⟩ := isAlpha_toLower hd
    constructor
    · rintro rfl
      exact absurd hlower (by simp [not_isAlpha h])
    · rintro rfl
      exact absurd halpha (by simp [not_isAlpha h])

theorem keepsMarks_toAsciiLowercase : KeepsMarks toAsciiLowercase where
  idem := toAsciiLowercase_idem
  count c s h := by
    rw [toAsciiLowercase, count_eq_countP, countP_map, count_eq_countP]
    exact countP_congr fun d _ => by simp [toLower_eq_iff_of_mark h]
  head c s h := by simp [toAsciiLowercase, toLower_eq_iff_of_mark h]
  last c s h := by simp [toAsciiLowercase, toLower_eq_iff_of_mark h]

/-- The occurrence behind the `x` is rejected, and the search goes on behind it.  The bracket behind
the blank is left. -/
theorem not_readsLaw :
    ¬ReadsLaw toAsciiLowercase Char.isAlphanum "xa a a" ["a a"] ∧
      ¬ReadsLaw toAsciiLowercase Char.isAlphanum "( (a" [] := by
  refine ⟨fun h => ?_, fun h => absurd h.normal (by decide)⟩
  have hoccurs : Occurs toAsciiLowercase Char.isAlphanum
      (normalizeDecideToken toAsciiLowercase "xa a a") "a a" :=
    ⟨by decide, "xa ", [], by decide, by decide, by decide⟩
  have hreads := (h.reads "a a").mpr
    ⟨by decide, .inr ⟨by decide, [], [], rfl, hoccurs, nofun⟩⟩
  exact absurd hreads (by decide)

theorem readsLaw_yes :
    ReadsLaw toAsciiLowercase Char.isAlphanum "Yes!" ["no", "yes"] := by
  refine (readsLaw_iff keepsMarks_toAsciiLowercase _ _ _).mpr
    ⟨fun c hc => ?_, .inr (.inl ⟨_, mem_cons_of_mem _ mem_cons_self, by decide⟩)⟩
  rw [show bare "Yes!" = "Yes".toList by decide] at hc
  rcases hc with h | h
  · cases h
    decide
  · cases h
    decide

end Synsema.Llm.Decide
