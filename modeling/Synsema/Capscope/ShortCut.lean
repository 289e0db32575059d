import Synsema.Capscope.Tree

/-!
# The short cut

`path_within_physically` asks the disk for two places, or for none: where no component below the
literal base of a scope is a link, it answers at once.  On a tree the place of the request is then
the place of the base with the same segments behind it (`physicalPath_below`), so that the slow
test would say what the pattern of the scope says of the names (`shortCut_physicalMatch`).  The
short cut does not look at the pattern.
-/

namespace Synsema.Capscope

open Text FileTree List

/-! ## The two halves -/

/-- Does the short cut answer? -/
def shortCut (m : Platform) (d : Disk) (scope req : Text) : Bool :=
  d.physicalOverride.isNone && linkBelowBase m d (splitScope m scope).1 req == some false

/-- The slow test: two places, and the pattern. -/
def withinSlowly (m : Platform) (d : Disk) (scope req : Text) : Bool :=
  match physicalScopeParts m d scope, physicalPath m d req with
  | .error .noFs, _ => true
  | _, .noFs => true
  | .ok (base, pattern), .path r => physicalMatch base pattern r
  | _, _ => false

theorem pathWithinPhysically_eq (m : Platform) (d : Disk) (scope req : Text) :
    pathWithinPhysically m d scope req = (shortCut m d scope req || withinSlowly m d scope req) := by
  unfold pathWithinPhysically shortCut
  split
  · rename_i h
    rw [h, Bool.true_or]
  · rename_i h
    rw [Bool.eq_false_iff.mpr h, Bool.false_or]
    rfl

/-! ## What is behind a base -/

variable {R : List Text} {m : Platform} {p : Text} {d : Disk}

variable {x abs req : Text} {a : List Text} {fs : FileSystem} {t : UnixTree}

theorem pushSegments_name {s : Text} (h : ∀ n ∈ s :: R, IsName n) :
    pushSegments (x ++ s) R = x ++ join "/" (s :: R) := by
  induction R generalizing x s with
  | nil => simp [pushSegments, join]
  | cons s' R ih =>
    have hs := h s mem_cons_self
    have hstep : pushSegments (x ++ s) (s' :: R) = pushSegments (x ++ s ++ "/" ++ s') R := by
      rw [pushSegments, foldl_cons, UnixTree.endsWith_slash_of_name hs.ne_nil hs.slash]
      rfl
    rw [hstep, ih fun n hn => h n (mem_cons_of_mem s hn)]
    simp [join, intercalate_cons_cons]

theorem join_head_ne_slash (h : ∀ n ∈ R, n ≠ [] ∧ '/' ∉ n) :
    (join "/" R).dropWhile (· == '/') = join "/" R := by
  cases R with
  | nil => rfl
  | cons s R =>
    obtain ⟨hne, hslash⟩ := h s mem_cons_self
    obtain ⟨c, s, rfl⟩ := exists_cons_of_ne_nil hne
    have hc : ¬ (c == '/') := fun hc => hslash (by simp [beq_iff_eq.mp hc])
    cases R with
    | nil => simp [join, hc]
    | cons s' R => simp [join, intercalate_cons_cons, hc]

theorem pushSegments_eq {B : Text} (h : ∀ n ∈ R, IsName n) :
    ∃ k, pushSegments B R =
        trimEndMatches (· == '/') B ++ replicate k '/' ++ join "/" R ∧
      (k = 0 → R = []) := by
  obtain ⟨k, hB⟩ : ∃ k, B = trimEndMatches (· == '/') B ++ replicate k '/' := by
    have hslashes : B.rtakeWhile (· == '/') = replicate (B.rtakeWhile (· == '/')).length '/' :=
      eq_replicate_of_mem fun c hc => by simpa using mem_rtakeWhile_imp hc
    exact ⟨_, rdropWhile_append_rtakeWhile.symm.trans (congrArg _ hslashes)⟩
  cases R with
  | nil =>
    refine ⟨k, ?_, fun _ => rfl⟩
    rw [← hB]
    exact (append_nil B).symm
  | cons s R =>
    rw [pushSegments, foldl_cons]
    split
    · rename_i hend
      refine ⟨k, ?_, ?_⟩
      · rw [← hB]
        exact pushSegments_name h
      · rintro rfl
        rw [replicate_zero, append_nil] at hB
        obtain ⟨y, hy⟩ := isSuffixOf_iff_suffix.mp hend
        have hne : B ≠ [] := by
          rw [← hy]
          exact append_ne_nil_of_right_ne_nil y (cons_ne_nil _ _)
        refine absurd ?_ (rdropWhile_eq_self_iff.mp hB.symm hne)
        subst hy
        exact beq_iff_eq.mpr (getLast_append_singleton y)
    · refine ⟨k + 1, ?_, fun h => absurd h k.succ_ne_zero⟩
      rw [replicate_succ', ← append_assoc, ← hB]
      exact pushSegments_name h

theorem physicalMatch_behind (B : Text) (pattern : Option Text) (h : ∀ n ∈ R, IsName n) :
    physicalMatch B pattern (pushSegments B R) =
      match pattern with
      | none => (join "/" R).isEmpty
      | some p => pathGlob (join "/" R) p := by
  obtain ⟨k, hpush, hk⟩ := pushSegments_eq (B := B) h
  have hbeneath : beneath (trimEndMatches (· == '/') B) (pushSegments B R) =
      some (replicate k '/' ++ join "/" R) := by
    rw [hpush, append_assoc, beneath]
    split
    · rename_i heq
      rw [self_eq_append_right.mp (beq_iff_eq.mp heq).symm]
    · rename_i hne
      rw [stripPrefix_eq_some.mpr rfl]
      cases k with
      | zero =>
        rw [hk rfl] at hne
        exact absurd (beq_iff_eq.mpr (by simp [join])) hne
      | succ k => rfl
  have hrest : (replicate k '/' ++ join "/" R).dropWhile (· == '/') =
      join "/" R := by
    rw [dropWhile_append_of_pos fun c hc => beq_iff_eq.mpr (eq_of_mem_replicate hc)]
    exact join_head_ne_slash fun n hn => ⟨(h n hn).ne_nil, (h n hn).slash⟩
  rw [physicalMatch, hbeneath]
  simp only [hrest] <;> rfl

/-! ## The paths of a disk of Unix -/

/-- The current directory is absolute. -/
def CwdAbsolute (m : Platform) : Prop :=
  ∀ cwd, m.currentDir = some cwd → startsWith "/" cwd = true

/-- The path names no drive: it is relative, or starts at `/`. -/
def NoDrive (m : Platform) (p : Text) : Prop :=
  isRooted (normalizePath m (cleanVerbatim p)) = true →
    startsWith "/" (normalizePath m (cleanVerbatim p)) = true

theorem splitRoot_or (text : Text) :
    (∃ rest, text = '/' :: rest) ∨
      (∃ c rest, c.isAlpha ∧ splitRoot text = ([c, ':', '/'], rest)) ∨
        splitRoot text = ([], text) := by
  unfold splitRoot
  split
  · exact .inl ⟨_, rfl⟩
  · split
    · rename_i hc
      exact .inr (.inl ⟨_, _, hc, rfl⟩)
    · exact .inr (.inr rfl)
  · exact .inr (.inr rfl)

theorem join_relative_not_slash {segs : List Text} (h : ∀ s ∈ segs, '/' ∉ s ∧ '\\' ∉ s) :
    startsWith "/" (join "/" (segs.foldl (pushSegment false) []).reverse) = false := by
  obtain ⟨names, k, hnames, hstack⟩ :=
    foldl_pushSegment_relative h (k := 0) (forall_mem_nil IsName)
  rw [replicate_zero, append_nil] at hstack
  rw [hstack, reverse_append, reverse_replicate]
  have hplain : ∀ s ∈ replicate k "..".toList ++ names.reverse,
      '/' ∉ s ∧ '\\' ∉ s ∧ s ≠ [] ∧ s ≠ "." :=
    dotdots_plain fun s hs => hnames s (mem_reverse.mp hs)
  have hdrop := join_head_ne_slash fun s hs => ⟨(hplain s hs).2.2.1, (hplain s hs).1⟩
  generalize join "/".toList (replicate k "..".toList ++ names.reverse) = text at hdrop
  refine Bool.eq_false_iff.mpr fun hstart => ?_
  obtain ⟨rest, rfl⟩ := isPrefixOf_iff_prefix.mp hstart
  have hlen := congrArg List.length hdrop
  have hle := length_dropWhile_le (· == '/') rest
  simp at hlen
  omega

theorem normalizePath_eq_absText (h : startsWith "/" (normalizePath m p)) :
    ∃ q, (∀ s ∈ q, IsName s) ∧ normalizePath m p = absText q := by
  have hplain : ∀ s ∈ split '/' (replaceChar '\\' '/' (expandHome m p)), '/' ∉ s ∧ '\\' ∉ s :=
    fun _ => mem_split_plain
  have htail : ∀ s ∈ normalSegs (split '/' (replaceChar '\\' '/' (expandHome m p)).tail),
      IsName s := by
    have hrepl : (replaceChar '\\' '/' (expandHome m p)).tail =
        replaceChar '\\' '/' (expandHome m p).tail := by
      cases expandHome m p <;> rfl
    rw [hrepl]
    exact normalSegs_names
  unfold normalizePath at h ⊢
  dsimp only at h ⊢
  generalize replaceChar '\\' '/' (expandHome m p) = text at h hplain htail ⊢
  rcases splitRoot_or text with ⟨rest, rfl⟩ | ⟨c, rest, hc, hroot⟩ | hroot
  · exact ⟨_, htail, rfl⟩
  · rw [hroot] at h
    obtain ⟨y, hy⟩ := isPrefixOf_iff_prefix.mp h
    obtain ⟨rfl, -⟩ := cons.inj hy
    cases hc
  · rw [hroot] at h
    have hrel := join_relative_not_slash hplain
    simp only [isEmpty_nil, Bool.not_true, Bool.false_eq_true, if_false] at h
    split at h
    · cases h
    · rw [hrel] at h
      cases h

theorem absoluteLexical_eq (hcwd : CwdAbsolute m) (hp : NoDrive m p)
    (h : absoluteLexical m p = some abs) : ∃ q, (∀ s ∈ q, IsName s) ∧ abs = absText q := by
  unfold absoluteLexical at h
  dsimp only at h
  split at h
  · rename_i hroot
    obtain ⟨q, hq, heq⟩ := normalizePath_eq_absText (hp hroot)
    refine ⟨q, hq, ?_⟩
    rw [← Option.some.inj h, heq, UnixTree.driveRoot_absText]
  · obtain ⟨cwd, hdir, rfl⟩ := Option.map_eq_some_iff.mp h
    obtain ⟨w, hw⟩ := isPrefixOf_iff_prefix.mp (hcwd cwd hdir)
    have hslash : cwd = '/' :: w := hw.symm
    subst hslash
    exact ⟨_, normalSegs_names, normalizePath_slash m _⟩

/-! ## The base of the short cut -/

theorem trimEnd_absText {p : List Text} (h : ∀ s ∈ p, IsName s) :
    trimEndMatches (· == '/') (absText p) = if p = [] then [] else absText p := by
  split
  · rename_i hp
    rw [hp]
    rfl
  · rename_i hp
    obtain ⟨d, n, rfl⟩ := eq_nil_or_concat' p |>.resolve_left hp
    have hn := h n (mem_append_right _ (mem_singleton_self n))
    obtain ⟨x, hx⟩ : ∃ x, absText (d ++ [n]) = x ++ n := by
      by_cases hd : d = []
      · exact ⟨['/'], by rw [hd, nil_append, UnixTree.absText_singleton]; rfl⟩
      · exact ⟨absText d ++ ['/'], by rw [UnixTree.absText_concat hd, append_cons]⟩
    rw [hx]
    refine rdropWhile_eq_self_iff.mpr fun hl hlast => hn.slash ?_
    rw [getLast_append_of_ne_nil _ hn.ne_nil] at hlast
    rw [← beq_iff_eq.mp hlast]
    exact getLast_mem hn.ne_nil

theorem split_below {y : Text} :
    (split '/' (x ++ '/' :: y)).filter (fun s => !s.isEmpty) =
      (split '/' x).filter (fun s => !s.isEmpty) ++
        (split '/' ('/' :: y)).filter (fun s => !s.isEmpty) := by
  have hcons : split '/' ('/' :: y) = [] :: split '/' y := by
    rw [split, splitOn_cons_eq_if_modifyHead]
    rfl
  rw [hcons, split, splitOn_append_cons_self, filter_append]
  rfl

theorem split_absText {p : List Text} (h : ∀ s ∈ p, IsName s) :
    (split '/' (absText p)).filter (fun s => !s.isEmpty) = p := by
  have hcons : split '/' (absText p) = [] :: split '/' (join "/" p) := by
    rw [absText, split, splitOn_cons_eq_if_modifyHead]
    rfl
  rw [hcons]
  cases p with
  | nil => rfl
  | cons s p =>
    rw [split_join (fun x hx => (h x hx).slash) (cons_ne_nil s p)]
    rw [filter_cons_of_neg (by simp)]
    refine filter_eq_self.mpr fun x hx => ?_
    rw [isEmpty_eq_false_iff.mpr (h x hx).ne_nil]
    rfl

theorem linkAmong_base (fs : FileSystem) {p : List Text} (h : ∀ s ∈ p, IsName s) (R : List Text) :
    linkAmong fs (trimEndMatches (· == '/') (absText p) ++ "/") R =
      linkAmong fs (absText p) R := by
  rw [trimEnd_absText h]
  split
  · rename_i hp
    rw [hp]
    rfl
  · rename_i hp
    cases R with
    | nil => rfl
    | cons s R =>
      have hend : endsWith "/" (absText p ++ "/") :=
        isSuffixOf_iff_suffix.mpr (suffix_append _ _)
      have hcur : endsWith "/" (absText p) = false := by
        refine Bool.eq_false_iff.mpr fun hslash => ?_
        obtain ⟨y, hy⟩ := isSuffixOf_iff_suffix.mp hslash
        have hself := trimEnd_absText h
        rw [if_neg hp, ← hy] at hself
        have hne : y ++ "/".toList ≠ [] := append_ne_nil_of_right_ne_nil y (by decide)
        refine absurd ?_ (rdropWhile_eq_self_iff.mp hself hne)
        exact beq_iff_eq.mpr (getLast_append_singleton y)
      rw [linkAmong, linkAmong, hend, hcur, if_pos rfl, if_neg Bool.false_ne_true]

theorem linkBelowBase_eq {base : Text} {p : List Text} (hfs : d.fs = some fs)
    (hp : ∀ s ∈ p, IsName s) (ha : ∀ s ∈ a, IsName s)
    (hbase : absoluteLexical m base = some (absText p))
    (hreq : absoluteLexical m req = some (absText a)) (h : linkBelowBase m d base req = some false)
    : ∃ R, a = p ++ R ∧ linkAmong fs (absText p) R = false := by
  have hfast {below : Text} (h : (if fastPathDepth <
      ((split '/' below).filter fun s => !s.isEmpty).length then none
      else some (linkAmong fs (trimEndMatches (· == '/') (absText p) ++ "/")
        ((split '/' below).filter fun s => !s.isEmpty))) = some false) :
      linkAmong fs (absText p) ((split '/' below).filter fun s => !s.isEmpty) = false := by
    split at h
    · cases h
    · rw [linkAmong_base fs hp] at h
      exact Option.some.inj h
  rw [linkBelowBase, hfs] at h
  simp only [hbase, hreq, Option.bind_eq_bind, Option.bind_some] at h
  split at h
  · -- the request is the base
    rename_i heq
    refine ⟨[], ?_, rfl⟩
    rw [beq_iff_eq, trimEnd_absText hp] at heq
    split at heq
    · cases heq
    · rw [append_nil, ← split_absText ha, heq, split_absText hp]
  · obtain ⟨below, hbelow, h⟩ := Option.bind_eq_some_iff.mp h
    refine ⟨_, ?_, hfast h⟩
    rw [Option.filter_eq_some_iff, stripPrefix_eq_some, trimEnd_absText hp] at hbelow
    obtain ⟨heq, hstart⟩ := hbelow
    obtain ⟨y, rfl⟩ := isPrefixOf_iff_prefix.mp hstart
    split at heq
    · rename_i hnil
      rw [hnil, nil_append, ← split_absText ha, heq]
      rfl
    · rw [← split_absText ha, heq]
      refine (split_below (x := absText p) (y := y)).trans ?_
      rw [split_absText hp]
      rfl

theorem physicalPath_eq (hfs : d.fs = some fs) (hover : d.physicalOverride = none)
    (habs : absoluteLexical m p = some abs) :
    physicalPath m d p = resolvePhysical m fs maxLinkHops abs := by
  have hnone : (overridden d abs).or (overriddenBase m d abs) = none := by
    simp [overridden, overriddenBase, hover]
    split <;> rfl
  rw [physicalPath, hfs]
  simp only [habs, hnone]

theorem physicalPath_of_resolve {q : List Text} (hfs : d.fs = some t.fileSystem)
    (hover : d.physicalOverride = none) (habs : absoluteLexical m p = some (absText a))
    (ha : ∀ s ∈ a, IsName s) (h : Leads t.tree [] (FileTree.names a) q) :
    physicalPath m d p = .path (absText q) := by
  have hq := Tree.resolve_eq_some.mpr h
  rw [physicalPath_eq hfs hover habs, maxLinkHops,
    UnixTree.resolvePhysical_of_real ha (UnixTree.ancestor_of_resolve ha hq),
    UnixTree.cleanVerbatim_absText (UnixTree.names_of_resolve hq)]
  rfl

theorem shortCut_physicalMatch {scope place : Text} (hfs : d.fs = some t.fileSystem)
    (hcwd : CwdAbsolute m) (hscope : NoDrive m (splitScope m scope).1) (hreq : NoDrive m req)
    (h : shortCut m d scope req) (hplace : physicalPath m d req = .path place) :
    ∃ base absBase absReq, physicalPath m d (splitScope m scope).1 = .path base ∧
      absoluteLexical m (splitScope m scope).1 = some absBase ∧
      absoluteLexical m req = some absReq ∧
      ∀ pattern, physicalMatch base pattern place = physicalMatch absBase pattern absReq := by
  rw [shortCut, Bool.and_eq_true, beq_iff_eq, Option.isNone_iff_eq_none] at h
  obtain ⟨hover, hlink⟩ := h
  obtain ⟨absBase, hbase⟩ : ∃ abs, absoluteLexical m (splitScope m scope).1 = some abs := by
    rw [linkBelowBase, hfs] at hlink
    obtain ⟨abs, habs, -⟩ := Option.bind_eq_some_iff.mp hlink
    exact ⟨abs, habs⟩
  obtain ⟨absReq, habs⟩ : ∃ abs, absoluteLexical m req = some abs := by
    rw [linkBelowBase, hfs] at hlink
    obtain ⟨_, -, hlink'⟩ := Option.bind_eq_some_iff.mp hlink
    obtain ⟨abs, habs, -⟩ := Option.bind_eq_some_iff.mp hlink'
    exact ⟨abs, habs⟩
  obtain ⟨p, hp, rfl⟩ := absoluteLexical_eq hcwd hscope hbase
  obtain ⟨a, ha, rfl⟩ := absoluteLexical_eq hcwd hreq habs
  obtain ⟨R, rfl, hlinks⟩ := linkBelowBase_eq hfs hp ha hbase habs hlink
  have hR : ∀ s ∈ R, IsName s := fun s hs => ha s (mem_append_right _ hs)
  rw [physicalPath_eq hfs hover habs, UnixTree.resolvePhysical_no_link m _ ha hlinks,
    ← physicalPath_eq hfs hover hbase] at hplace
  cases hphys : physicalPath m d (splitScope m scope).1 with
  | path base =>
    rw [hphys] at hplace
    cases hplace
    refine ⟨base, absText p, absText (p ++ R), rfl, hbase, habs, fun pattern => ?_⟩
    rw [← UnixTree.pushSegments_absText ha, physicalMatch_behind _ _ hR,
      physicalMatch_behind _ _ hR]
  | noFs | unresolved =>
    rw [hphys] at hplace
    cases hplace

end Synsema.Capscope
