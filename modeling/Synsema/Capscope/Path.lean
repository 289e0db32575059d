import Synsema.Text
import Synsema.Lib.Wildcard

/-!
# Path scopes

The scopes of a capability that are paths: the lexical normalisation of a path and
the segment-wise glob that decides whether a grant covers a requested path
(`synsema-core/src/capscope.rs`).  The same matcher compares a scope with a scope,
when a host ceiling or a parent token decides what may be granted below it.

What the code reads from the machine (the environment, the current directory) is a
field of `Platform`.  The Windows and macOS branches (drive letters of the current
directory, comparison without case) are not modelled.
-/

namespace Synsema

open List

/-- What the scope functions read from the machine and from Unicode's tables. -/
structure Platform where
  /-- `std::env::var`. -/
  envVar : Text → Option Text
  /-- `std::env::current_dir`. -/
  currentDir : Option Text
  /-- `str::to_lowercase`. -/
  toLowercase : Text → Text

namespace Capscope

open Text

/-! ## `fnmatch` -/

/-- The glob of `fnmatch`: `*` is any word, `?` any character. -/
def glob (name : Text) : Text → Bool
  | [] => name.isEmpty
  | '*' :: rest => (List.range (name.length + 1)).any fun k => glob (name.drop k) rest
  | '?' :: rest =>
    match name with
    | [] => false
    | _ :: name => glob name rest
  | c :: rest =>
    match name with
    | [] => false
    | x :: name => x == c && glob name rest

/-- Unix `fnmatch`, case-sensitive: `*` and `?` only. -/
def fnmatch (name pattern : Text) : Bool := glob name pattern

/-! ## Normalisation -/

/-- `~`, `~/…` and `~\…` are the user's home; without one they stay literal. -/
def expandHome (m : Platform) (p : Text) : Text :=
  let isTilde := p == "~" || startsWith "~/" p || startsWith "~\\" p
  if !isTilde then p
  else
    let home := ((m.envVar "HOME").filter fun h => !(trim h).isEmpty).or
      ((m.envVar "USERPROFILE").filter fun h => !(trim h).isEmpty)
    match home with
    | some h => trimEndMatches (fun c => c == '/' || c == '\\') h ++ p.drop 1
    | none => p

/-- One segment of the path on the stack of the segments kept, the last on top. -/
def pushSegment (rooted : Bool) (out : List Text) (seg : Text) : List Text :=
  if seg == [] || seg == "." then out
  else if seg == ".." then
    match out with
    | s :: below => if s ≠ ".." then below else if !rooted then seg :: out else out
    | [] => if !rooted then [seg] else []
  else seg :: out

/-- The root of a path (`C:/`, `/` or nothing) and the rest. -/
def splitRoot (p : Text) : Text × Text :=
  match p with
  | '/' :: rest => (['/'], rest)
  | c :: ':' :: '/' :: rest => if c.isAlpha then ([c, ':', '/'], rest) else ([], p)
  | _ => ([], p)

/-- The lexical normalisation of a path: `/` for every separator, `.` and `..`
collapsed, no link followed. -/
def normalizePath (m : Platform) (p : Text) : Text :=
  let p := replaceChar '\\' '/' (expandHome m p)
  let (pre, rest) := splitRoot p
  let rooted := !pre.isEmpty
  let joined := join "/" ((split '/' rest).foldl (pushSegment rooted) []).reverse
  if rooted then pre ++ joined
  else if joined.isEmpty then "."
  else joined

/-- Does a normalised path start at a root? -/
def isRooted (norm : Text) : Bool :=
  match norm with
  | '/' :: _ => true
  | c :: ':' :: _ => c.isAlpha
  | _ => false

/-- Without the verbatim prefix of Windows, and with `/`. -/
def cleanVerbatim (s : Text) : Text :=
  let s := match stripPrefix "\\\\?\\UNC\\" s with
    | some unc => "\\\\" ++ unc
    | none => (stripPrefix "\\\\?\\" s).getD s
  replaceChar '\\' '/' s

/-- `C:` alone is the root of the drive. -/
def driveRoot (s : Text) : Text :=
  match s with
  | [c, ':'] => if c.isAlpha then [c, ':', '/'] else s
  | _ => s

/-- A path scope in absolute form: the current directory and the normalised scope. -/
def absoluteScope (m : Platform) (scope : Text) : Text :=
  let norm := normalizePath m (cleanVerbatim scope)
  if isRooted norm then driveRoot norm
  else
    match m.currentDir with
    | none => norm
    | some cwd =>
      let base := cleanVerbatim cwd
      if norm == "." then normalizePath m base
      else normalizePath m (base ++ "/" ++ norm)

/-- The two paths normalised and in one form: a relative path compared with an
absolute one becomes absolute. -/
def sameForm (m : Platform) (a b : Text) : Text × Text :=
  let na := normalizePath m a
  let nb := normalizePath m b
  match isRooted na, isRooted nb with
  | true, false => (na, absoluteScope m nb)
  | false, true => (absoluteScope m na, nb)
  | _, _ => (na, nb)

/-! ## The glob of a path scope -/

/-- Has the segment a wildcard? -/
def wild (s : Text) : Bool := containsAny ['*', '?'] s

theorem wild_eq_false_iff {w : Text} : wild w = false ↔ '*' ∉ w ∧ '?' ∉ w := by
  simp only [wild, containsAny, any_eq_false, contains_eq_mem, List.mem_cons, not_mem_nil, or_false,
    decide_eq_true_eq, not_or]
  constructor
  · intro h
    exact ⟨fun hs => (h _ hs).1 rfl, fun hq => (h _ hq).2 rfl⟩
  · rintro ⟨hs, hq⟩ c hc
    exact ⟨fun h => hs (h ▸ hc), fun h => hq (h ▸ hc)⟩

/-- Does the segment `ps` of a pattern cover the segment `rs` of a request?  A
requested segment with wildcards is covered only by itself or by `*`. -/
def segmentCovers (ps rs : Text) : Bool :=
  if rs == "**" || (rs == ".." && ps ≠ "..") then false
  else if wild rs then ps == rs || ps == "*"
  else if wild ps then fnmatch rs ps
  else rs == ps

/-- `**` reads zero or more segments of the request, never a `..`, and leaves the
rest to `next`. -/
def doubleStar (next : List Text → Bool) : List Text → Bool
  | [] => next []
  | s :: r => next (s :: r) || (s ≠ ".." && doubleStar next r)

/-- Do the segments of a pattern match those of a request? -/
def segsMatch : List Text → List Text → Bool
  | [], r => r.isEmpty
  | ps :: rest, r =>
    if ps == "**" then doubleStar (segsMatch rest) r
    else
      match r with
      | rs :: rrest => segmentCovers ps rs && segsMatch rest rrest
      | [] => false

/-- The root and the segments of a normalised path. -/
def splitPath (p : Text) : Text × List Text :=
  let (root, rest) := splitRoot p
  (root, (split '/' rest).filter fun s => !s.isEmpty && s ≠ ".")

/-- The glob of a path scope, segment by segment. -/
def pathGlob (path pattern : Text) : Bool :=
  let (pr, ps) := splitPath pattern
  let (rr, rs) := splitPath path
  pr == rr && segsMatch ps rs

/-- Does a path grant cover the requested path? -/
def pathCovers (m : Platform) (grant req : Text) : Bool :=
  let (g, r) := sameForm m grant req
  g == r || pathGlob r g

/-! ## `fnmatch` is a wildcard pattern -/

open Wildcard

/-- The wildcard pattern that a text denotes. -/
def patternOf (p : Text) : Pattern Char :=
  p.map fun c => if c = '*' then .many else if c = '?' then .one else .lit c

theorem any_drop {α : Type} (f : List α → Bool) (l : List α) :
    ((List.range (l.length + 1)).any fun k => f (l.drop k)) = true ↔
      ∃ u v, l = u ++ v ∧ f v = true := by
  simp only [any_eq_true, List.mem_range]
  constructor
  · rintro ⟨k, -, h⟩
    exact ⟨l.take k, l.drop k, (take_append_drop k l).symm, h⟩
  · rintro ⟨u, v, rfl, h⟩
    refine ⟨u.length, ?_, by simpa using h⟩
    rw [length_append]
    omega

theorem fnmatch_iff {name pattern : Text} :
    fnmatch name pattern ↔ Accepts (patternOf pattern) name := by
  unfold fnmatch
  induction pattern generalizing name with
  | nil => simp [glob, patternOf, accepts_nil_iff]
  | cons c rest ih =>
    by_cases hstar : c = '*'
    · subst hstar
      rw [glob, any_drop (fun n => glob n rest)]
      simp only [ih]
      exact accepts_many_iff.symm
    · by_cases hone : c = '?'
      · subst hone
        cases name with
        | nil => simp [glob, patternOf, accepts_one_iff]
        | cons x name => simpa [glob, patternOf, accepts_one_iff] using ih
      · cases name with
        | nil => simp [glob, patternOf, hstar, hone, accepts_lit_iff]
        | cons x name =>
          simp only [glob, Bool.and_eq_true, beq_iff_eq, ih]
          simp [patternOf, hstar, hone, accepts_lit_iff]

theorem fnmatch_star (name : Text) : fnmatch name "*" = true :=
  fnmatch_iff.mpr (accepts_many_iff.mpr ⟨name, [], by simp, .nil⟩)

/-! ## Containment of segments -/

theorem segsMatch_star (rest r : List Text) :
    segsMatch ("**" :: rest) r = doubleStar (segsMatch rest) r := by
  simp [segsMatch]

variable {ps rs c a b : Text} {m : Platform}

theorem segsMatch_cons (hps : ps ≠ "**") (rest r : List Text) :
    segsMatch (ps :: rest) r ↔
      ∃ rs rrest, r = rs :: rrest ∧ segmentCovers ps rs ∧ segsMatch rest rrest = true := by
  have hps' : (ps == "**") = false := beq_eq_false_iff_ne.mpr hps
  cases r with
  | nil | cons rs rrest => simp only [segsMatch, hps']; simp

theorem doubleStar_iff {next : List Text → Bool} {r : List Text} :
    doubleStar next r ↔
      ∃ u v, r = u ++ v ∧ (∀ s ∈ u, s ≠ "..") ∧ next v = true := by
  induction r with
  | nil => simp [doubleStar]
  | cons s r ih =>
    simp only [doubleStar, Bool.or_eq_true, Bool.and_eq_true, decide_eq_true_eq, ih]
    constructor
    · rintro (h | ⟨hs, u, v, rfl, hu, hv⟩)
      · exact ⟨[], s :: r, rfl, by simp, h⟩
      · exact ⟨s :: u, v, rfl, by simpa using ⟨hs, hu⟩, hv⟩
    · rintro ⟨u, v, huv, hu, hv⟩
      cases u with
      | nil => exact .inl (huv ▸ hv)
      | cons t u =>
        obtain ⟨rfl, rfl⟩ := cons.inj huv
        exact .inr ⟨hu _ (by simp), u, v, rfl, fun s hs => hu s (by simp [hs]), hv⟩

theorem segmentCovers_iff :
    segmentCovers ps rs ↔
      (rs ≠ "**" ∧ (rs = ".." → ps = "..")) ∧
        (if wild rs = true then ps = rs ∨ ps = "*"
          else if wild ps = true then fnmatch rs ps = true else rs = ps) := by
  unfold segmentCovers
  by_cases hc : rs ≠ "**" ∧ (rs = ".." → ps = "..")
  · have hc' : (rs == "**" || (rs == ".." && decide (ps ≠ ".."))) = false := by
      simp only [Bool.or_eq_false_iff, beq_eq_false_iff_ne, Bool.and_eq_false_iff,
        decide_eq_false_iff_not, not_not]
      exact ⟨hc.1, or_iff_not_imp_left.mpr fun h => hc.2 (not_not.mp h)⟩
    rw [hc', if_neg Bool.false_ne_true, and_iff_right hc]
    split
    · rw [Bool.or_eq_true, beq_iff_eq, beq_iff_eq]
    · split
      · rfl
      · rw [beq_iff_eq]
  · have hc' : (rs == "**" || (rs == ".." && decide (ps ≠ ".."))) := by
      simp only [Bool.or_eq_true, beq_iff_eq, Bool.and_eq_true, decide_eq_true_eq]
      rw [not_and_or, not_not, Classical.not_imp] at hc
      exact hc
    rw [hc']
    simp only [hc, if_true, false_and, Bool.false_eq_true]

theorem segmentCovers_ne (h : segmentCovers ps rs) :
    rs ≠ "**" ∧ (rs = ".." → ps = "..") :=
  (segmentCovers_iff.mp h).1

theorem segmentCovers_trans {qs : Text} (h₁ : segmentCovers ps qs)
    (h₂ : segmentCovers qs rs) : segmentCovers ps rs = true := by
  have hstar : wild "*" := by decide
  obtain ⟨hq, h₁'⟩ := segmentCovers_iff.mp h₁
  obtain ⟨hr, h₂'⟩ := segmentCovers_iff.mp h₂
  refine segmentCovers_iff.mpr ⟨⟨hr.1, fun h => hq.2 (hr.2 h)⟩, ?_⟩
  by_cases hwr : wild rs = true
  · -- a requested segment with wildcards: the middle one is it, or `*`
    rw [if_pos hwr] at h₂' ⊢
    rcases h₂' with rfl | rfl
    · rwa [if_pos hwr] at h₁'
    · rw [if_pos hstar, or_self] at h₁'
      exact .inr h₁'
  · rw [if_neg hwr] at h₂' ⊢
    by_cases hwq : wild qs = true
    · -- a literal segment under a middle segment with wildcards
      rw [if_pos hwq] at h₁' h₂'
      rcases h₁' with rfl | rfl
      · rwa [if_pos hwq]
      · rw [if_pos hstar]
        exact fnmatch_star rs
    · rw [if_neg hwq] at h₁' h₂'
      rwa [h₂']

theorem segsMatch_append {u v c : List Text} (h : segsMatch (u ++ v) c)
    (hu : ∀ s ∈ u, s ≠ "..") :
    ∃ x y, c = x ++ y ∧ (∀ s ∈ x, s ≠ "..") ∧ segsMatch v y = true := by
  induction u generalizing c with
  | nil => exact ⟨[], c, rfl, by simp, h⟩
  | cons s u ih =>
    have hu' : ∀ t ∈ u, t ≠ ".." := fun t ht => hu t (by simp [ht])
    by_cases hs : s = "**"
    · subst hs
      rw [cons_append, segsMatch_star, doubleStar_iff] at h
      obtain ⟨x, y, rfl, hx, hy⟩ := h
      obtain ⟨x', y', rfl, hx', hy'⟩ := ih hy hu'
      refine ⟨x ++ x', y', by simp, fun t ht => ?_, hy'⟩
      exact (mem_append.mp ht).elim (hx t) (hx' t)
    · rw [cons_append, segsMatch_cons hs] at h
      obtain ⟨t, c', rfl, ht, hc'⟩ := h
      obtain ⟨x, y, rfl, hx, hy⟩ := ih hc' hu'
      have htd : t ≠ ".." := fun hd => hu s (by simp) ((segmentCovers_ne ht).2 hd)
      exact ⟨t :: x, y, rfl, by simpa using ⟨htd, hx⟩, hy⟩

theorem segsMatch_trans {a b c : List Text} (hab : segsMatch a b)
    (hbc : segsMatch b c) : segsMatch a c = true := by
  induction a generalizing b c with
  | nil =>
    have hb : b = [] := by simpa [segsMatch] using hab
    subst hb
    exact hbc
  | cons ps rest ih =>
    by_cases hps : ps = "**"
    · subst hps
      rw [segsMatch_star, doubleStar_iff] at hab ⊢
      obtain ⟨u, v, rfl, hu, hv⟩ := hab
      obtain ⟨x, y, rfl, hx, hy⟩ := segsMatch_append hbc hu
      exact ⟨x, y, rfl, hx, ih hv hy⟩
    · obtain ⟨qs, b', rfl, hq, hb'⟩ := (segsMatch_cons hps rest b).mp hab
      obtain ⟨rs, c', rfl, hr, hc'⟩ :=
        (segsMatch_cons (segmentCovers_ne hq).1 b' c).mp hbc
      exact (segsMatch_cons hps rest _).mpr
        ⟨rs, c', rfl, segmentCovers_trans hq hr, ih hb' hc'⟩

/-! ## Containment of path scopes -/

theorem pathGlob_iff {path pattern : Text} :
    pathGlob path pattern ↔ (splitPath pattern).1 = (splitPath path).1 ∧
      segsMatch (splitPath pattern).2 (splitPath path).2 = true := by
  simp [pathGlob]

theorem pathGlob_trans (hab : pathGlob b a) (hbc : pathGlob c b) : pathGlob c a = true := by
  obtain ⟨hra, hsa⟩ := pathGlob_iff.mp hab
  obtain ⟨hrb, hsb⟩ := pathGlob_iff.mp hbc
  exact pathGlob_iff.mpr ⟨hra.trans hrb, segsMatch_trans hsa hsb⟩

theorem sameForm_of_rooted_eq (h : isRooted (normalizePath m a) = isRooted (normalizePath m b)) :
    sameForm m a b = (normalizePath m a, normalizePath m b) := by
  simp only [sameForm, h]
  cases isRooted (normalizePath m b) <;> rfl

theorem pathCovers_of_rooted_eq (h : isRooted (normalizePath m a) = isRooted (normalizePath m b)) :
    pathCovers m a b ↔ normalizePath m a = normalizePath m b ∨
      pathGlob (normalizePath m b) (normalizePath m a) = true := by
  simp [pathCovers, sameForm_of_rooted_eq h]

theorem pathCovers_iff :
    pathCovers m a b ↔ (sameForm m a b).1 = (sameForm m a b).2 ∨
      pathGlob (sameForm m a b).2 (sameForm m a b).1 = true := by
  simp [pathCovers]

/-- The scope `a` bounds the scope `b` in the form in which the request `c` is compared
with each: `c` has one form for both, and in it `a` covers `b`. -/
def PathNarrows (m : Platform) (a b c : Text) : Prop :=
  (sameForm m a c).2 = (sameForm m b c).2 ∧
    ((sameForm m a c).1 = (sameForm m b c).1 ∨
      pathGlob (sameForm m b c).1 (sameForm m a c).1 = true)

theorem pathCovers_of_narrows (h : PathNarrows m a b c) (hbc : pathCovers m b c) :
    pathCovers m a c = true := by
  rw [pathCovers_iff] at hbc ⊢
  obtain ⟨hform, hab⟩ := h
  rw [← hform] at hbc
  rcases hab with hab | hab
  · rwa [hab]
  · rcases hbc with hbc | hbc
    · exact .inr (hbc ▸ hab)
    · exact .inr (pathGlob_trans hab hbc)

theorem pathNarrows_of_covers (hab : isRooted (normalizePath m a) = isRooted (normalizePath m b))
    (hbc : isRooted (normalizePath m b) = isRooted (normalizePath m c))
    (h : pathCovers m a b) : PathNarrows m a b c := by
  rw [PathNarrows, sameForm_of_rooted_eq (hab.trans hbc), sameForm_of_rooted_eq hbc]
  exact ⟨rfl, (pathCovers_of_rooted_eq hab).mp h⟩

theorem pathCovers_trans (hab : isRooted (normalizePath m a) = isRooted (normalizePath m b))
    (hbc : isRooted (normalizePath m b) = isRooted (normalizePath m c))
    (h₁ : pathCovers m a b) (h₂ : pathCovers m b c) : pathCovers m a c = true :=
  pathCovers_of_narrows (pathNarrows_of_covers hab hbc h₁) h₂

end Capscope

end Synsema
