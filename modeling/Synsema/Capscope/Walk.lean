import Synsema.Capscope.Reaches

/-!
# Walks along a path

A path is walked segment by segment, from its root or from the current directory.  `normalize_path`
keeps where the walk leads, as a text of its own: a root and names, or some `..` and names.

Read again the text is the same walk, but for two names that a relative path may leave in front: a
`~`, which the second reading takes for the home directory, and the name of a drive, which it takes
for a root (`normalizePath_iff`).
-/

namespace Synsema.Capscope

open Text List

/-! ## Places -/

/-- A place: a root and the names below it, the innermost first. -/
structure Place where
  root : Text
  names : List Text
deriving DecidableEq

/-- One segment of a walk: `.` stays, `..` goes up and never above the root. -/
def Place.step (pl : Place) (seg : Text) : Place :=
  if seg = [] ∨ seg = "." then pl
  else if seg = ".." then { pl with names := pl.names.tail }
  else { pl with names := seg :: pl.names }

/-- Where a path leads, from its root or else from a base, with either separator. -/
def walk (base : Place) (p : Text) : Place :=
  let (root, rest) := splitRoot (replaceChar '\\' '/' p)
  (split '/' rest).foldl Place.step (if root.isEmpty then base else ⟨root, []⟩)

/-! ## Spots -/

/-- Where a walk leads without its base: below a root, or some folders above where it began and then
into some names, the innermost first. -/
structure Spot where
  root : Text
  ups : Nat
  names : List Text
deriving DecidableEq

namespace Spot

/-- One segment of a walk. -/
def step (sp : Spot) (seg : Text) : Spot :=
  if seg = [] ∨ seg = "." then sp
  else if seg = ".." then
    match sp.names with
    | _ :: below => { sp with names := below }
    | [] => if sp.root.isEmpty then { sp with ups := sp.ups + 1 } else sp
  else { sp with names := seg :: sp.names }

/-- The place of a spot. -/
def behind (base : Place) (sp : Spot) : Place :=
  if sp.root.isEmpty then ⟨base.root, sp.names ++ base.names.drop sp.ups⟩ else ⟨sp.root, sp.names⟩

/-- The segments of a spot, in the order of a path. -/
def segs (sp : Spot) : List Text := replicate sp.ups "..".toList ++ sp.names.reverse

/-- The text of a spot. -/
def text (sp : Spot) : Text :=
  if sp.root.isEmpty then relText sp.segs else sp.root ++ join "/".toList sp.segs

/-- Does a relative spot begin with what is read as a drive? -/
def DriveFirst (sp : Spot) : Prop :=
  sp.root = [] ∧ ∃ c rest, c.isAlpha = true ∧ rest ≠ [] ∧ sp.segs = [c, ':'] :: rest

/-- Does a relative spot begin with what is read as the home directory? -/
def TildeFirst (sp : Spot) : Prop := sp.root = [] ∧ ∃ rest, sp.segs = "~".toList :: rest

end Spot

/-- Where the segments of a path lead. -/
def spot (p : Text) : Spot :=
  let (root, rest) := splitRoot (replaceChar '\\' '/' p)
  (split '/' rest).foldl Spot.step ⟨root, 0, []⟩

/-- What is left of a walk: names, and a root below which there are no `..`. -/
structure Spot.Normal (sp : Spot) : Prop where
  names : ∀ s ∈ sp.names, IsName s
  ups : sp.root = [] ∨ sp.ups = 0
  root : sp.root = [] ∨ sp.root = ['/'] ∨ ∃ c, c.isAlpha = true ∧ sp.root = [c, ':', '/']

/-! ## Steps -/

section Steps

variable {sp : Spot} {seg : Text}

theorem Spot.step_skip (h : seg = [] ∨ seg = ".".toList) : sp.step seg = sp := if_pos h

theorem Spot.step_name (h : IsName seg) : sp.step seg = { sp with names := seg :: sp.names } := by
  rw [step, if_neg (not_or.mpr ⟨h.ne_nil, h.ne_dot⟩), if_neg h.ne_dotdot]

theorem Spot.step_dotdot : sp.step "..".toList =
    match sp.names with
    | _ :: below => { sp with names := below }
    | [] => if sp.root.isEmpty then { sp with ups := sp.ups + 1 } else sp := by
  rw [step, if_neg (by decide), if_pos rfl]

theorem Place.step_skip {pl : Place} (h : seg = [] ∨ seg = ".".toList) : pl.step seg = pl := if_pos h

theorem Spot.behind_step (base : Place) (sp : Spot) (seg : Text) :
    (sp.step seg).behind base = (sp.behind base).step seg := by
  by_cases hskip : seg = [] ∨ seg = ".".toList
  · rw [step_skip hskip, Place.step_skip hskip]
  rw [step, Place.step, if_neg hskip, if_neg hskip]
  by_cases hdots : seg = "..".toList
  · rw [if_pos hdots, if_pos hdots]
    cases hnames : sp.names with
    | cons s below =>
      rw [behind, behind, hnames]
      split_ifs
      · rfl
      · rfl
    | nil =>
      by_cases hroot : sp.root.isEmpty = true
      · rw [if_pos hroot, behind, behind, if_pos hroot, hnames, if_pos hroot]
        simp [tail_drop]
      · rw [if_neg hroot, behind, if_neg hroot, hnames]
        rfl
  · rw [if_neg hdots, if_neg hdots, behind, behind]
    split_ifs
    · rfl
    · rfl

theorem Spot.Normal.step (h : sp.Normal) (hslash : '/' ∉ seg) (hback : '\\' ∉ seg) :
    (sp.step seg).Normal := by
  rcases isName_or hslash hback with hskip | rfl | hname
  · rwa [Spot.step_skip hskip]
  · rw [Spot.step_dotdot]
    split
    · rename_i s below hnames
      exact ⟨fun t ht => h.names t (by rw [hnames]; exact mem_cons_of_mem s ht), h.ups, h.root⟩
    · split_ifs with hroot
      · exact ⟨h.names, .inl (List.isEmpty_iff.mp hroot), h.root⟩
      · exact h
  · rw [Spot.step_name hname]
    exact ⟨forall_mem_cons.mpr ⟨hname, h.names⟩, h.ups, h.root⟩

theorem Spot.segs_reverse (sp : Spot) :
    sp.segs.reverse = sp.names ++ replicate sp.ups "..".toList := by
  rw [segs, reverse_append, reverse_reverse, reverse_replicate]

theorem pushSegment_stack (h : sp.Normal) (hslash : '/' ∉ seg) (hback : '\\' ∉ seg) :
    pushSegment (!sp.root.isEmpty) sp.segs.reverse seg = (sp.step seg).segs.reverse := by
  rcases isName_or hslash hback with hskip | rfl | hname
  · rw [pushSegment_skip hskip, Spot.step_skip hskip]
  · rw [Spot.step_dotdot]
    cases hnames : sp.names with
    | cons t below =>
      have ht : IsName t := h.names t (by rw [hnames]; exact mem_cons_self)
      rw [Spot.segs_reverse, hnames, cons_append, pushSegment_dotdot_cons ht, Spot.segs_reverse]
    | nil =>
      dsimp only
      rw [Spot.segs_reverse, hnames, nil_append]
      cases hroot : sp.root.isEmpty with
      | true =>
        rw [if_pos rfl, Spot.segs_reverse]
        exact pushSegment_dotdot_relative sp.ups
      | false =>
        have hups : sp.ups = 0 := h.ups.resolve_left (isEmpty_eq_false_iff.mp hroot)
        rw [if_neg Bool.false_ne_true, Spot.segs_reverse, hnames, hups]
        rfl
  · rw [pushSegment_name hname, Spot.step_name hname, Spot.segs_reverse, Spot.segs_reverse,
      cons_append]

end Steps

section Fold

variable {segs : List Text} {sp : Spot}

theorem foldl_behind (base : Place) (sp : Spot) (segs : List Text) :
    (segs.foldl Spot.step sp).behind base = segs.foldl Place.step (sp.behind base) := by
  induction segs generalizing sp with
  | nil => rfl
  | cons seg segs ih => rw [foldl_cons, foldl_cons, ih, Spot.behind_step]

theorem Spot.step_root (sp : Spot) (seg : Text) : (sp.step seg).root = sp.root := by
  rw [step]
  split
  · rfl
  · split
    · split
      · rfl
      · split
        · rfl
        · rfl
    · rfl

theorem root_foldl (sp : Spot) (segs : List Text) : (segs.foldl Spot.step sp).root = sp.root := by
  induction segs generalizing sp with
  | nil => rfl
  | cons seg segs ih =>
    rw [foldl_cons, ih, Spot.step_root]

theorem Spot.Normal.foldl (h : sp.Normal) (hsegs : ∀ s ∈ segs, '/' ∉ s ∧ '\\' ∉ s) :
    (segs.foldl Spot.step sp).Normal := by
  induction segs generalizing sp with
  | nil => exact h
  | cons seg segs ih =>
    obtain ⟨hslash, hback⟩ := hsegs seg mem_cons_self
    exact ih (h.step hslash hback) fun s hs => hsegs s (mem_cons_of_mem seg hs)

theorem foldl_pushSegment_stack (h : sp.Normal) (hsegs : ∀ s ∈ segs, '/' ∉ s ∧ '\\' ∉ s) :
    segs.foldl (pushSegment (!sp.root.isEmpty)) sp.segs.reverse =
      (segs.foldl Spot.step sp).segs.reverse := by
  induction segs generalizing sp with
  | nil => rfl
  | cons seg segs ih =>
    obtain ⟨hslash, hback⟩ := hsegs seg mem_cons_self
    have hroot := Spot.step_root sp seg
    rw [foldl_cons, foldl_cons, pushSegment_stack h hslash hback, ← hroot,
      ih (h.step hslash hback) fun s hs => hsegs s (mem_cons_of_mem seg hs)]

theorem foldl_step_names (h : ∀ s ∈ segs, IsName s) (sp : Spot) :
    segs.foldl Spot.step sp = { sp with names := segs.reverse ++ sp.names } := by
  induction segs generalizing sp with
  | nil => rfl
  | cons s segs ih =>
    rw [foldl_cons, Spot.step_name (h s mem_cons_self),
      ih fun t ht => h t (mem_cons_of_mem s ht), reverse_cons, append_assoc]
    rfl

theorem foldl_step_dotdots (j k : Nat) : (replicate k "..".toList).foldl Spot.step ⟨[], j, []⟩ =
    ⟨[], j + k, []⟩ := by
  induction k generalizing j with
  | zero => rfl
  | succ k ih =>
    have hstep : Spot.step ⟨[], j, []⟩ "..".toList = ⟨[], j + 1, []⟩ := rfl
    rw [replicate_succ, foldl_cons, hstep, ih, Nat.add_assoc, Nat.add_comm 1]

end Fold

/-! ## Paths -/

theorem splitRoot_fst (x : Text) :
    (splitRoot x).1 = [] ∨ (splitRoot x).1 = ['/'] ∨
      ∃ c, c.isAlpha ∧ (splitRoot x).1 = [c, ':', '/'] := by
  rcases splitRoot_or x with ⟨rest, rfl⟩ | ⟨c, rest, hc, hroot⟩ | hroot
  · exact .inr (.inl rfl)
  · exact .inr (.inr ⟨c, hc, by rw [hroot]⟩)
  · exact .inl (by rw [hroot])

variable {p : Text}

theorem mem_split_splitRoot {s : Text} (h : s ∈ split '/' (splitRoot (replaceChar '\\' '/' p)).2) :
    '/' ∉ s ∧ '\\' ∉ s := by
  refine ⟨not_mem_of_mem_split h, fun hback => ?_⟩
  have hmem := mem_of_mem_split h hback
  have happ := splitRoot_append (replaceChar '\\' '/' p)
  have hmem' : '\\' ∈ replaceChar '\\' '/' p := by
    rw [← happ]
    exact mem_append_right _ hmem
  rw [replaceChar, mem_map] at hmem'
  obtain ⟨c, -, hc⟩ := hmem'
  split at hc
  · cases hc
  · exact ‹c ≠ '\\'› hc

theorem spot_eq (p : Text) : spot p =
    (split '/' (splitRoot (replaceChar '\\' '/' p)).2).foldl Spot.step
      ⟨(splitRoot (replaceChar '\\' '/' p)).1, 0, []⟩ := rfl

theorem spot_root (p : Text) : (spot p).root = (splitRoot (replaceChar '\\' '/' p)).1 := by
  rw [spot_eq, root_foldl]

theorem spot_normal (p : Text) : (spot p).Normal :=
  Spot.Normal.foldl ⟨forall_mem_nil IsName, .inr rfl, splitRoot_fst _⟩
    fun _ => mem_split_splitRoot

theorem walk_eq (base : Place) (p : Text) : walk base p = (spot p).behind base := by
  rw [spot_eq, foldl_behind]
  rfl

theorem Spot.segs_ne_nil {sp : Spot} (h : sp.Normal) : ∀ s ∈ sp.segs, s ≠ [] := by
  intro s hs
  exact (dotdots_plain (fun t ht => h.names t (mem_reverse.mp ht)) s hs).2.2.1

theorem normalizePath_eq (m : Platform) (p : Text) :
    normalizePath m p = (spot (expandHome m p)).text := by
  have hempty := isEmpty_join (Spot.segs_ne_nil (spot_normal (expandHome m p)))
  have hsegs : ∀ s ∈ split '/' (splitRoot (replaceChar '\\' '/' (expandHome m p))).2,
      '/' ∉ s ∧ '\\' ∉ s := fun _ => mem_split_splitRoot
  rw [Spot.text, spot_root, relText, normalizePath]
  rw [spot_eq] at hempty ⊢
  have hroot := splitRoot_fst (replaceChar '\\' '/' (expandHome m p))
  generalize splitRoot (replaceChar '\\' '/' (expandHome m p)) = q at *
  have hnormal : Spot.Normal ⟨q.1, 0, []⟩ := ⟨forall_mem_nil IsName, .inr rfl, hroot⟩
  have hstack := foldl_pushSegment_stack hnormal hsegs
  have hnil : Spot.segs ⟨q.1, 0, []⟩ = [] := rfl
  rw [hnil, reverse_nil] at hstack
  dsimp only at hstack ⊢
  rw [hstack, reverse_reverse, hempty]
  cases q.1.isEmpty
  · rfl
  · rfl

/-! ## The text read again -/

section Reread

variable {sp : Spot}

theorem Spot.Normal.segs_plain (h : sp.Normal) :
    ∀ s ∈ sp.segs, '/' ∉ s ∧ '\\' ∉ s ∧ s ≠ [] ∧ s ≠ ".".toList :=
  dotdots_plain fun s hs => h.names s (mem_reverse.mp hs)

theorem Spot.Normal.segs_rooted (h : sp.Normal) (hroot : sp.root ≠ []) :
    sp.segs = sp.names.reverse := by
  rw [segs, h.ups.resolve_left hroot]
  rfl

theorem Spot.text_relative (hroot : sp.root = []) : sp.text = relText sp.segs := by
  rw [text, hroot]
  rfl

theorem Spot.text_rooted (hroot : sp.root ≠ []) : sp.text = sp.root ++ join "/".toList sp.segs :=
  if_neg (mt List.isEmpty_iff.mp hroot)

variable {rest : List Text} {c : Char}

theorem Spot.ups_of_first {s : Text} (hs : s ≠ "..".toList) (hsegs : sp.segs = s :: rest) :
    sp.ups = 0 ∧ sp.names = rest.reverse ++ [s] := by
  have hups : sp.ups = 0 := by
    rcases Nat.eq_zero_or_pos sp.ups with hups | hups
    · exact hups
    · obtain ⟨k, hk⟩ := Nat.exists_eq_succ_of_ne_zero hups.ne'
      rw [segs, hk, replicate_succ, cons_append] at hsegs
      exact absurd (cons.inj hsegs).1.symm hs
  rw [segs, hups, replicate_zero, nil_append] at hsegs
  refine ⟨hups, ?_⟩
  rw [← reverse_reverse sp.names, hsegs, reverse_cons]

theorem drive_ne_dotdot (c : Char) : [c, ':'] ≠ "..".toList := by
  intro h
  have hlast : [':'] = ['.'] := congrArg (List.drop 1) h
  exact absurd hlast (by decide)

theorem relText_drive (hne : rest ≠ []) :
    relText ([c, ':'] :: rest) = [c, ':', '/'] ++ join "/".toList rest := by
  obtain ⟨s, rest, rfl⟩ := exists_cons_of_ne_nil hne
  rw [relText, if_neg (by simp), join, join, intercalate_cons_cons]
  rfl

theorem foldl_step_join {segs : List Text} (h : ∀ s ∈ segs, '/' ∉ s) (sp : Spot) :
    (split '/' (join "/".toList segs)).foldl Spot.step sp = segs.foldl Spot.step sp := by
  cases segs with
  | nil => exact Spot.step_skip (.inl rfl)
  | cons s segs => rw [split_join h (cons_ne_nil s segs)]

theorem foldl_step_relText {segs : List Text} (h : ∀ s ∈ segs, '/' ∉ s) (sp : Spot) :
    (split '/' (relText segs)).foldl Spot.step sp = segs.foldl Spot.step sp := by
  cases segs with
  | nil => exact Spot.step_skip (.inr rfl)
  | cons s segs => rw [relText, if_neg (by simp), split_join h (cons_ne_nil s segs)]

theorem Spot.Normal.foldl_segs (h : sp.Normal) (hroot : sp.root = []) :
    sp.segs.foldl Spot.step ⟨[], 0, []⟩ = sp := by
  rw [segs, foldl_append, foldl_step_dotdots,
    foldl_step_names fun s hs => h.names s (mem_reverse.mp hs)]
  obtain ⟨root, ups, names⟩ := sp
  obtain rfl : root = [] := hroot
  simp

theorem Spot.Normal.backslash (h : sp.Normal) : '\\' ∉ sp.text := by
  have hsegs : ∀ s ∈ sp.segs, '\\' ∉ s := fun s hs => (h.segs_plain s hs).2.1
  rw [text]
  split_ifs
  · exact backslash_not_mem_relText hsegs
  · rw [mem_append, not_or]
    refine ⟨?_, backslash_not_mem_join hsegs⟩
    rcases h.root with hroot | hroot | ⟨c, hc, hroot⟩
    · simp [hroot]
    · simp [hroot]
    · rw [hroot]
      simp only [List.mem_cons, not_mem_nil, or_false, not_or]
      exact ⟨fun heq => by rw [← heq] at hc; exact absurd hc (by decide), by decide, by decide⟩

theorem Spot.Normal.spot_text_eq (h : sp.Normal) : spot sp.text =
    (split '/' (splitRoot sp.text).2).foldl Spot.step ⟨(splitRoot sp.text).1, 0, []⟩ := by
  rw [spot_eq, replaceChar_of_not_mem h.backslash]

theorem splitRoot_drive (hc : c.isAlpha) (rest : Text) :
    splitRoot ([c, ':', '/'] ++ rest) = ([c, ':', '/'], rest) := by
  have hslash : c ≠ '/' := by
    rintro rfl
    exact absurd hc (by decide)
  change splitRoot (c :: ':' :: '/' :: rest) = _
  rw [splitRoot]
  · exact if_pos hc
  · exact hslash

theorem Spot.Normal.spot_text_rooted (h : sp.Normal) (hroot : sp.root ≠ []) :
    spot sp.text = sp := by
  have hnames : ∀ s ∈ sp.names.reverse, IsName s := fun s hs => h.names s (mem_reverse.mp hs)
  have htext : sp.text = sp.root ++ join "/".toList sp.names.reverse := by
    rw [text_rooted hroot, h.segs_rooted hroot]
  have hsplit : splitRoot sp.text = (sp.root, join "/".toList sp.names.reverse) := by
    rw [htext]
    rcases h.root with hnil | hslash | ⟨c, hc, hdrive⟩
    · exact absurd hnil hroot
    · rw [hslash]
      rfl
    · rw [hdrive]
      exact splitRoot_drive hc _
  rw [h.spot_text_eq, hsplit, foldl_step_join fun s hs ↦ (hnames s hs).slash, foldl_step_names hnames,
    reverse_reverse, append_nil]
  have hups := h.ups.resolve_left hroot
  obtain ⟨root, ups, names⟩ := sp
  obtain rfl : ups = 0 := hups
  rfl

theorem Spot.Normal.spot_text_relative (h : sp.Normal) (hroot : sp.root = [])
    (hdrive : ¬sp.DriveFirst) : spot sp.text = sp := by
  have htext := text_relative hroot
  have hslash : ∀ s ∈ sp.segs, '/' ∉ s := fun s hs => (h.segs_plain s hs).1
  have hsplit : splitRoot sp.text = ([], sp.text) := by
    -- a root would be seen in the first segment
    have hne (hne : sp.text ≠ ".".toList) : split '/' sp.text = sp.segs := by
      rw [htext, relText] at hne ⊢
      split_ifs at hne ⊢ with hnil
      · exact absurd rfl hne
      · exact split_join hslash (mt List.isEmpty_iff.mpr hnil)
    rcases splitRoot_or sp.text with ⟨rest, hrest⟩ | ⟨c, rest, hc, hrest⟩ | hrest
    · have hsegs := hne (by rw [hrest]; simp)
      rw [hrest, split, splitOn_cons_eq_if_modifyHead, if_pos (beq_self_eq_true '/')] at hsegs
      have hmem : [] ∈ sp.segs := by
        rw [← hsegs]
        exact mem_cons_self
      exact absurd rfl (h.segs_plain [] hmem).2.2.1
    · have hsegs := hne (by rintro hdot; rw [hdot] at hrest; cases hrest)
      rw [split_of_drive hc hrest] at hsegs
      exact absurd ⟨hroot, c, _, hc, splitOn_ne_nil '/' rest, hsegs.symm⟩ hdrive
    · exact hrest
  rw [h.spot_text_eq, hsplit, htext, foldl_step_relText hslash, h.foldl_segs hroot]

theorem Spot.Normal.spot_text_drive (h : sp.Normal) (hroot : sp.root = []) (hc : c.isAlpha)
    (hne : rest ≠ []) (hsegs : sp.segs = [c, ':'] :: rest) :
    spot sp.text = ⟨[c, ':', '/'], 0, rest.reverse⟩ := by
  obtain ⟨-, hnames⟩ := ups_of_first (drive_ne_dotdot c) hsegs
  have hrest : ∀ s ∈ rest, IsName s := by
    intro s hs
    apply h.names
    rw [hnames]
    exact mem_append_left _ (mem_reverse.mpr hs)
  have htext : sp.text = [c, ':', '/'] ++ join "/".toList rest := by
    rw [text_relative hroot, hsegs, relText_drive hne]
  rw [h.spot_text_eq, htext, splitRoot_drive hc, foldl_step_join fun s hs => (hrest s hs).slash,
    foldl_step_names hrest, append_nil]

theorem Spot.Normal.text_spot_text (h : sp.Normal) : (spot sp.text).text = sp.text := by
  by_cases hroot : sp.root = []
  · by_cases hdrive : sp.DriveFirst
    · obtain ⟨-, c, rest, hc, hne, hsegs⟩ := hdrive
      rw [h.spot_text_drive hroot hc hne hsegs]
      rw [text_rooted (cons_ne_nil _ _), text_relative hroot, hsegs, relText_drive hne, segs,
        reverse_reverse]
      rfl
    · rw [h.spot_text_relative hroot hdrive]
  · rw [h.spot_text_rooted hroot]

end Reread

/-! ## Where the text leads -/

theorem walk_text_iff {sp : Spot} (h : sp.Normal) (base : Place) :
    walk base sp.text = sp.behind base ↔ ¬sp.DriveFirst := by
  rw [walk_eq]
  by_cases hdrive : sp.DriveFirst
  · refine iff_of_false (fun heq => ?_) (not_not_intro hdrive)
    obtain ⟨hroot, c, rest, hc, hne, hsegs⟩ := hdrive
    rw [h.spot_text_drive hroot hc hne hsegs] at heq
    -- the name of the drive is not there any more
    obtain ⟨hups, hnames⟩ := Spot.ups_of_first (drive_ne_dotdot c) hsegs
    have hlen := congrArg (fun pl => pl.names.length) heq
    rw [Spot.behind, Spot.behind, hroot, if_neg (by simp), if_pos isEmpty_nil, hups, hnames] at hlen
    simp only [length_append, length_reverse, length_singleton, drop_zero] at hlen
    omega
  · by_cases hroot : sp.root = []
    · rw [h.spot_text_relative hroot hdrive]
      exact iff_of_true rfl hdrive
    · rw [h.spot_text_rooted hroot]
      exact iff_of_true rfl hdrive

/-! ## The home directory -/

/-- The home directory, without separators behind. -/
def homeDir (m : Platform) : Option Text :=
  (((m.envVar "HOME".toList).filter fun h => !(trim h).isEmpty).or
    ((m.envVar "USERPROFILE".toList).filter fun h => !(trim h).isEmpty)).map
      (trimEndMatches fun c => c == '/' || c == '\\')

/-- Is the text one whose `~` is expanded? -/
def isTilde (p : Text) : Bool :=
  p == "~".toList || startsWith "~/".toList p || startsWith "~\\".toList p

theorem expandHome_eq (m : Platform) (p : Text) : expandHome m p =
    if isTilde p then (homeDir m).elim p fun h => h ++ p.drop 1 else p := by
  rw [expandHome, homeDir]
  change (if !isTilde p then _ else _) = _
  cases isTilde p with
  | false => rfl
  | true =>
    dsimp only
    rw [if_neg (by simp), if_pos rfl]
    cases ((m.envVar "HOME".toList).filter fun h => !(trim h).isEmpty).or
      ((m.envVar "USERPROFILE".toList).filter fun h => !(trim h).isEmpty) with
    | none => rfl
    | some h => rfl

theorem isTilde_cases (h : isTilde p) :
    p = "~".toList ∨ (∃ t, p = '~' :: '/' :: t) ∨ ∃ t, p = '~' :: '\\' :: t := by
  simp only [isTilde, startsWith, Bool.or_eq_true, beq_iff_eq, isPrefixOf_iff_prefix] at h
  rcases h with (h | ⟨t, h⟩) | ⟨t, h⟩
  · exact .inl h
  · exact .inr (.inl ⟨t, h.symm⟩)
  · exact .inr (.inr ⟨t, h.symm⟩)

theorem head?_of_isTilde (h : isTilde p) : p.head? = some '~' := by
  rcases isTilde_cases h with rfl | ⟨t, rfl⟩ | ⟨t, rfl⟩
  · rfl
  · rfl
  · rfl

theorem expandHome_of_head {m : Platform} (h : p.head? ≠ some '~') : expandHome m p = p := by
  rw [expandHome_eq, if_neg (mt head?_of_isTilde h)]

theorem relText_cons (s : Text) (rest : List Text) :
    relText (s :: rest) = s ++ if rest.isEmpty then [] else '/' :: join "/".toList rest := by
  rw [relText, if_neg (by simp)]
  cases rest with
  | nil => simp [join]
  | cons t rest =>
    rw [join, intercalate_cons_cons, if_neg (by simp)]
    simp [join]

section Tilde

variable {sp : Spot}

theorem Spot.Normal.split_text (h : sp.Normal) (hroot : sp.root = []) (hne : sp.text ≠ ".".toList) :
    split '/' sp.text = sp.segs := by
  rw [text_relative hroot, relText] at hne ⊢
  split_ifs at hne ⊢ with hnil
  · exact absurd rfl hne
  · exact split_join (fun s hs => (h.segs_plain s hs).1) (mt List.isEmpty_iff.mpr hnil)

theorem Spot.Normal.isTilde_text (h : sp.Normal) : isTilde sp.text ↔ sp.TildeFirst := by
  constructor
  · intro htilde
    have hhead := head?_of_isTilde htilde
    have hroot : sp.root = [] := by
      by_contra hroot
      rw [text_rooted hroot] at hhead
      rcases h.root with hnil | hslash | ⟨c, hc, hdrive⟩
      · exact hroot hnil
      · rw [hslash] at hhead
        cases hhead
      · rw [hdrive] at hhead
        obtain rfl : c = '~' := Option.some.inj hhead
        exact absurd hc (by decide)
    have hsplit := h.split_text hroot (by rintro hdot; rw [hdot] at hhead; exact absurd hhead (by decide))
    refine ⟨hroot, ?_⟩
    rcases isTilde_cases htilde with htext | ⟨t, htext⟩ | ⟨t, htext⟩
    · rw [htext] at hsplit
      exact ⟨[], hsplit.symm⟩
    · rw [htext] at hsplit
      exact ⟨split '/' t, hsplit.symm.trans
        (splitOn_append_cons_self_of_not_mem (by decide : '/' ∉ "~".toList) t)⟩
    · have hback := h.backslash
      rw [htext] at hback
      exact absurd (mem_cons_of_mem _ mem_cons_self) hback
  · rintro ⟨hroot, rest, hsegs⟩
    rw [text_relative hroot, hsegs, relText_cons]
    split_ifs
    · rfl
    · rfl

end Tilde

theorem splitRoot_append_slash (q r : Text) : q = [] ∨ (∃ c, c.isAlpha ∧ q = [c, ':']) ∨
    splitRoot (q ++ '/' :: r) = ((splitRoot q).1, (splitRoot q).2 ++ '/' :: r) := by
  rcases splitRoot_or q with ⟨rest, rfl⟩ | ⟨c, rest, hc, hroot⟩ | hroot
  · exact .inr (.inr rfl)
  · have happ := splitRoot_append q
    rw [hroot] at happ
    rw [hroot, ← happ, append_assoc]
    exact .inr (.inr (splitRoot_drive hc _))
  · rcases splitRoot_or (q ++ '/' :: r) with ⟨rest, hrest⟩ | ⟨c, rest, hc, hroot'⟩ | hroot'
    · cases q with
      | nil => exact .inl rfl
      | cons d q =>
        obtain ⟨rfl, -⟩ := cons.inj hrest
        cases hroot
    · -- the drive is seen with the separator only
      have happ := splitRoot_append (q ++ '/' :: r)
      rw [hroot'] at happ
      change c :: ':' :: '/' :: rest = q ++ '/' :: r at happ
      match q with
      | [] => exact .inl rfl
      | [x] =>
        have hcolon := (cons.inj (cons.inj happ).2).1
        exact absurd hcolon (by decide)
      | [x, y] =>
        obtain ⟨rfl, htail⟩ := cons.inj happ
        obtain ⟨rfl, -⟩ := cons.inj htail
        exact .inr (.inl ⟨c, hc, rfl⟩)
      | x :: y :: z :: q =>
        obtain ⟨rfl, htail⟩ := cons.inj happ
        obtain ⟨rfl, hlast⟩ := cons.inj htail
        obtain ⟨rfl, -⟩ := cons.inj hlast
        have hdrive := splitRoot_drive hc q
        change splitRoot (c :: ':' :: '/' :: q) = _ at hdrive
        rw [hdrive] at hroot
        cases hroot
    · rw [hroot, hroot']
      exact .inr (.inr rfl)

theorem spot_behind_iff (h : Text) {rest : List Text} (hrest : ∀ s ∈ rest, IsName s) :
    spot (h ++ if rest.isEmpty then [] else '/' :: join "/" rest) =
        ⟨[], 0, rest.reverse ++ ["~".toList]⟩ ↔ spot h = ⟨[], 0, ["~".toList]⟩ := by
  by_cases hempty : rest.isEmpty = true
  · rw [if_pos hempty, append_nil, List.isEmpty_iff.mp hempty]
    rfl
  rw [if_neg hempty]
  have hback : '\\' ∉ join "/" rest := backslash_not_mem_join fun s hs ↦ (hrest s hs).backslash
  have hrepl : replaceChar '\\' '/' (h ++ '/' :: join "/" rest) =
      replaceChar '\\' '/' h ++ '/' :: join "/" rest := by
    rw [replaceChar, map_append, map_cons, if_neg (by decide)]
    exact congrArg (fun t => _ ++ '/' :: t) (replaceChar_of_not_mem hback)
  rw [spot_eq h, spot_eq (h ++ _), hrepl]
  generalize replaceChar '\\' '/' h = q
  rcases splitRoot_append_slash q (join "/" rest) with rfl | ⟨c, hc, rfl⟩ | hroot
  · -- below the root
    refine iff_of_false (fun heq => ?_) (by decide)
    have hr := congrArg Spot.root heq
    rw [root_foldl] at hr
    cases hr
  · -- below a drive
    have hdrive : splitRoot ([c, ':'] ++ '/' :: join "/" rest) = ([c, ':', '/'], join "/" rest) :=
      splitRoot_drive hc _
    rw [hdrive]
    refine iff_of_false (fun heq => ?_) fun heq => ?_
    · have hr := congrArg Spot.root heq
      rw [root_foldl] at hr
      cases hr
    · -- its name is no `~`
      have hbare : splitRoot [c, ':'] = ([], [c, ':']) := by
        rcases splitRoot_or [c, ':'] with ⟨rest, hrest⟩ | ⟨d, rest, -, hroot⟩ | hroot
        · obtain ⟨rfl, -⟩ := cons.inj hrest
          exact absurd hc (by decide)
        · have happ := congrArg List.length (splitRoot_append [c, ':'])
          rw [hroot] at happ
          simp at happ
        · exact hroot
      have hsplit : split '/' [c, ':'] = [[c, ':']] := by
        have hslash : ∀ s ∈ [[c, ':']], '/' ∉ s :=
          forall_mem_singleton.mpr (not_mem_drive hc (by decide) (by decide))
        have hjoin := split_join hslash (cons_ne_nil _ _)
        rwa [join, intercalate_singleton] at hjoin
      have hname : IsName [c, ':'] := ⟨cons_ne_nil _ _, by simp, drive_ne_dotdot c,
        not_mem_drive hc (by decide) (by decide), not_mem_drive hc (by decide) (by decide)⟩
      rw [hbare, hsplit, foldl_cons, Spot.step_name hname, foldl_nil, Spot.mk.injEq] at heq
      have hlen := congrArg List.length (cons.inj heq.2.2).1
      cases hlen
  · rw [hroot, split, splitOn_append_cons_self]
    change List.foldl Spot.step _ (split '/' (splitRoot q).2 ++ split '/' (join "/" rest)) = _ ↔ _
    rw [foldl_append, foldl_step_join fun s hs => (hrest s hs).slash, foldl_step_names hrest]
    generalize List.foldl Spot.step _ (split '/' (splitRoot q).2) = sp
    obtain ⟨root, ups, names⟩ := sp
    rw [Spot.mk.injEq, Spot.mk.injEq, append_right_inj]

/-- Does the path lead to a `~` that is read again as another home directory? -/
def HomeAgain (m : Platform) (p : Text) : Prop :=
  (spot (expandHome m p)).TildeFirst ∧
    ∃ h, homeDir m = some h ∧ spot h ≠ ⟨[], 0, ["~"]⟩

theorem Spot.TildeFirst.eq_of_text {sp sp' : Spot} (hsp : sp.Normal) (hsp' : sp'.Normal)
    (h : sp.TildeFirst) (heq : sp'.text = sp.text) : sp' = sp := by
  have h' : sp'.TildeFirst := by rwa [← hsp'.isTilde_text, heq, hsp.isTilde_text]
  obtain ⟨hroot, rest, hsegs⟩ := h
  obtain ⟨hroot', rest', hsegs'⟩ := h'
  have hdot {sp : Spot} {rest : List Text} (hroot : sp.root = []) (hsegs : sp.segs = "~".toList :: rest) :
      sp.text ≠ "." := by
    rw [text_relative hroot, hsegs, relText_cons]
    intro hdot
    exact absurd (cons.inj hdot).1 (by decide)
  have hsplit := hsp.split_text hroot (hdot hroot hsegs)
  rw [← heq, hsp'.split_text hroot' (hdot hroot' hsegs')] at hsplit
  obtain ⟨hups, hnames⟩ := ups_of_first (by decide) hsegs
  obtain ⟨hups', hnames'⟩ := ups_of_first (by decide) (hsplit.trans hsegs)
  obtain ⟨root, ups, names⟩ := sp
  obtain ⟨root', ups', names'⟩ := sp'
  dsimp only at *
  rw [hroot, hroot', hups, hups', hnames, hnames']

theorem normalizePath_normalizePath_iff (m : Platform) (p : Text) :
    normalizePath m (normalizePath m p) = normalizePath m p ↔ ¬HomeAgain m p := by
  have hnormal := spot_normal (expandHome m p)
  rw [normalizePath_eq m (normalizePath m p), normalizePath_eq m p, HomeAgain]
  generalize spot (expandHome m p) = sp at *
  rw [expandHome_eq]
  by_cases htilde : sp.TildeFirst
  · rw [if_pos (hnormal.isTilde_text.mpr htilde)]
    cases hhome : homeDir m with
    | none =>
      refine iff_of_true hnormal.text_spot_text ?_
      rintro ⟨-, h, hh, -⟩
      cases hh
    | some h =>
      obtain ⟨hroot, rest, hsegs⟩ := htilde
      obtain ⟨hups, hnames⟩ := Spot.ups_of_first (by decide) hsegs
      have hrest : ∀ s ∈ rest, IsName s := by
        intro s hs
        apply hnormal.names
        rw [hnames]
        exact mem_append_left _ (mem_reverse.mpr hs)
      have htext : sp.text.drop 1 = if rest.isEmpty then [] else '/' :: join "/" rest := by
        rw [Spot.text_relative hroot, hsegs, relText_cons]
        rfl
      have hsp : sp = ⟨[], 0, rest.reverse ++ ["~".toList]⟩ := by
        obtain ⟨root, ups, names⟩ := sp
        dsimp only at hroot hups hnames
        rw [hroot, hups, hnames]
      have hiff := spot_behind_iff h hrest
      rw [← htext, ← hsp] at hiff
      change (spot (h ++ sp.text.drop 1)).text = sp.text ↔ _
      constructor
      · rintro heq ⟨-, h', hh', hne⟩
        obtain rfl := Option.some.inj hh'
        exact hne (hiff.mp (Spot.TildeFirst.eq_of_text hnormal (spot_normal _)
          ⟨hroot, rest, hsegs⟩ heq))
      · intro hnot
        have hspot : spot h = ⟨[], 0, ["~"]⟩ := by
          by_contra hne
          exact hnot ⟨⟨hroot, rest, hsegs⟩, h, rfl, hne⟩
        rw [hiff.mpr hspot]
  · rw [if_neg (mt hnormal.isTilde_text.mp htilde)]
    exact iff_of_true hnormal.text_spot_text fun h => htilde h.1

/-- **When the normal form is its own and leads where the path does**: unless it begins with a `~` that
is another directory, and, of a path without a `~` in front, with the name of a drive that the path
does not begin with. -/
theorem normalizePath_iff (m : Platform) (p : Text) :
    (normalizePath m (normalizePath m p) = normalizePath m p ∧
        (p.head? ≠ some '~' → ∀ base, walk base (normalizePath m p) = walk base p)) ↔
      ¬HomeAgain m p ∧ (p.head? ≠ some '~' → ¬(spot p).DriveFirst) := by
  refine and_congr (normalizePath_normalizePath_iff m p) (imp_congr_right fun hhead => ?_)
  rw [normalizePath_eq, expandHome_of_head hhead]
  simp only [walk_eq _ p, walk_text_iff (spot_normal p)]
  exact ⟨fun h => h ⟨[], []⟩, fun h _ => h⟩

/-- A platform with a home directory. -/
def homePlatform : Platform where
  envVar name := if name = "HOME" then some "/home/u".toList else none
  currentDir := some "/work".toList
  toLowercase := toAsciiLowercase

/-- A file that is named `~` in the current directory is another one when its path is read again, and
a folder that is named as a drive becomes one. -/
theorem normalizePath_reread :
    normalizePath homePlatform (normalizePath homePlatform "./~/x") ≠
        normalizePath homePlatform "./~/x" ∧
      walk ⟨['/'], ["work"]⟩ (normalizePath homePlatform "./C:/y") ≠
        walk ⟨['/'], ["work"]⟩ "./C:/y" := by
  decide

end Synsema.Capscope
