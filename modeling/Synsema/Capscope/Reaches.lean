import Synsema.Capscope.ShortCut

/-!
# What a denied scope reaches in a folder

`scope_reaches_inside` (`synsema-core/src/capscope.rs`): before a folder is opened to a child
program, whether a denied scope can name something in it, on disk.  It walks the segments of the
pattern and of the folder by `fnmatch`; a request is later judged by `physical_match`.

The two agree on a folder of ordinary names when the scope as it is written has the parts of the
scope made absolute (`agrees_iff`).
-/

namespace Synsema.Capscope

open Text Wildcard List

/-! ## The walk -/

/-- What `**` of a pattern reaches: it leaves the rest to `next`, or goes one segment on. -/
def reachStar (next : List Text → Bool) : List Text → Bool
  | [] => true
  | s :: r => next (s :: r) || reachStar next r

/-- Do the segments of a pattern name the folder, or something below it? -/
def reach : List Text → List Text → Bool
  | [], r => r.isEmpty
  | ps :: rest, r =>
    match r with
    | [] => true
    | rs :: rrest =>
      if ps == "**" then reachStar (reach rest) (rs :: rrest)
      else fnmatch rs ps && reach rest rrest

/-- Can the scope name, on disk, something in the folder (already a place on disk)?  What is not
resolved counts as reaching. -/
def scopeReachesInside (m : Platform) (d : Disk) (scope folder : Text) : Bool :=
  let (literal, pattern) := splitScope m (absoluteScope m scope)
  match physicalPath m d literal with
  | .path lit =>
    let l := trimEndMatches (· == '/') lit
    let f := trimEndMatches (· == '/') folder
    if (beneath f l).isSome then true
    else
      match beneath l f, pattern with
      | none, _ => false
      | some _, none => false
      | some below, some pattern =>
        reach ((split '/' pattern).filter fun s => !s.isEmpty)
          ((split '/' below).filter fun s => !s.isEmpty)
  | _ => true

/-! ## The walk and the glob -/

theorem fnmatch_self (s : Text) : fnmatch s s = true := by
  rw [fnmatch_iff]
  induction s with
  | nil => exact accepts_nil_iff.mpr rfl
  | cons c s ih =>
    rw [patternOf, map_cons]
    split
    · exact accepts_many_iff.mpr ⟨[c], s, rfl, ih⟩
    · split
      · exact accepts_one_iff.mpr ⟨c, s, rfl, ih⟩
      · exact accepts_lit_iff.mpr ⟨s, rfl, ih⟩

variable {rs base : Text} {rel q : List Text} {c : Char}

theorem fnmatch_of_segmentCovers {ps : Text} (h : segmentCovers ps rs) : fnmatch rs ps = true := by
  obtain ⟨-, h⟩ := segmentCovers_iff.mp h
  split at h
  · rcases h with rfl | rfl
    · exact fnmatch_self ps
    · exact fnmatch_star rs
  · split at h
    · exact h
    · exact h ▸ fnmatch_self rs

theorem reach_star (rest r : List Text) : reach ("**" :: rest) r = true := by
  have hstar (next : List Text → Bool) (r : List Text) : reachStar next r = true := by
    induction r with
    | nil => rfl
    | cons s r ih => rw [reachStar, ih, Bool.or_true]
  cases r with
  | nil => rfl
  | cons s r => exact hstar _ _

theorem reach_cons {ps : Text} (hps : ps ≠ "**") (rest : List Text) (rs : Text)
    (r : List Text) : reach (ps :: rest) (rs :: r) = (fnmatch rs ps && reach rest r) := by
  rw [reach]
  simp only [beq_eq_false_iff_ne.mpr hps, Bool.false_eq_true, if_false]

variable {ps bs R pre rest : List Text} {s x n : Text} {pattern : Option Text}

theorem reach_of_segsMatch {more : List Text} (h : segsMatch ps (rel ++ more)) :
    reach ps rel = true := by
  induction ps generalizing rel with
  | nil =>
    have hnil : rel ++ more = [] := by simpa [segsMatch] using h
    rw [(append_eq_nil_iff.mp hnil).1]
    rfl
  | cons ps rest ih =>
    cases rel with
    | nil => rfl
    | cons rs rel =>
      by_cases hps : ps = "**"
      · rw [hps]
        exact reach_star _ _
      · obtain ⟨rs', rrest, heq, hcov, hrest⟩ := (segsMatch_cons hps _ _).mp h
        obtain ⟨rfl, rfl⟩ := cons.inj heq
        rw [reach_cons hps, fnmatch_of_segmentCovers hcov, ih hrest]
        rfl

/-! ## Names that a pattern names -/

/-- A name that the segment matches: `_` for every wildcard. -/
def sample (s : Text) : Text := s.map fun c => if c = '*' ∨ c = '?' then '_' else c

theorem fnmatch_sample (s : Text) : fnmatch (sample s) s = true := by
  rw [fnmatch_iff]
  induction s with
  | nil => exact accepts_nil_iff.mpr rfl
  | cons c s ih =>
    rw [patternOf, map_cons]
    split
    · exact accepts_many_iff.mpr ⟨[_], sample s, rfl, ih⟩
    · split
      · exact accepts_one_iff.mpr ⟨_, sample s, rfl, ih⟩
      · rename_i hstar hone
        have hcons : sample (c :: s) = c :: sample s := by
          rw [sample, map_cons, if_neg (not_or.mpr ⟨hstar, hone⟩)]
          rfl
        exact accepts_lit_iff.mpr ⟨sample s, hcons, ih⟩

theorem sample_of_plain (h : wild s = false) : sample s = s := by
  obtain ⟨hstar, hone⟩ := wild_eq_false_iff.mp h
  refine (map_congr_left fun c hc => if_neg ?_).trans (map_id s)
  rintro (rfl | rfl)
  · exact hstar hc
  · exact hone hc

theorem wild_sample (s : Text) : wild (sample s) = false := by
  rw [wild_eq_false_iff]
  constructor
  · intro hm
    obtain ⟨c, -, hc⟩ := mem_map.mp hm
    split at hc
    next => exact absurd hc (by decide)
    next hne => exact hne (.inl hc)
  · intro hm
    obtain ⟨c, -, hc⟩ := mem_map.mp hm
    split at hc
    next => exact absurd hc (by decide)
    next hne => exact hne (.inr hc)

theorem underscore_mem_sample (h : wild s) : '_' ∈ sample s := by
  obtain ⟨c, hc, hcs⟩ := any_eq_true.mp h
  refine mem_map.mpr ⟨c, hc, if_pos ?_⟩
  exact mem_pair.mp (contains_iff_mem.mp hcs)

theorem isName_sample (h : IsName s) : IsName (sample s) := by
  cases hs : wild s with
  | false => rwa [sample_of_plain hs]
  | true =>
    have hmem := underscore_mem_sample hs
    have hnot {t : Text} (ht : '_' ∉ t) : sample s ≠ t := fun he => ht (he ▸ hmem)
    have hfree {c : Char} (hc : c ≠ '_') (hcs : c ∉ s) : c ∉ sample s := by
      intro hm
      obtain ⟨x, hx, hxc⟩ := mem_map.mp hm
      split at hxc
      · exact hc hxc.symm
      · exact hcs (hxc ▸ hx)
    exact ⟨hnot (by decide), hnot (by decide), hnot (by decide), hfree (by decide) h.slash,
      hfree (by decide) h.backslash⟩

theorem plain_ne_doubleStar (h : wild s = false) : s ≠ "**" := by
  rintro rfl
  exact absurd h (by decide)

theorem segmentCovers_of_fnmatch {ps : Text} (hrs : wild rs = false) (hdd : rs ≠ "..")
    (h : fnmatch rs ps) : segmentCovers ps rs = true := by
  refine segmentCovers_iff.mpr ⟨⟨plain_ne_doubleStar hrs, fun he => absurd he hdd⟩, ?_⟩
  rw [if_neg (Bool.eq_false_iff.mp hrs)]
  split
  · exact h
  · rename_i hps
    have hlit : ∀ {ps rs : Text}, '*' ∉ ps ∧ '?' ∉ ps → Accepts (patternOf ps) rs → rs = ps := by
      intro ps
      induction ps with
      | nil => exact fun _ h => accepts_nil_iff.mp h
      | cons c ps ih =>
        intro rs hne h
        obtain ⟨hstar, hone⟩ := hne
        have hs : c ≠ '*' := fun he => hstar (he ▸ mem_cons_self)
        have ho : c ≠ '?' := fun he => hone (he ▸ mem_cons_self)
        rw [patternOf, map_cons, if_neg hs, if_neg ho] at h
        obtain ⟨rs', rfl, h'⟩ := accepts_lit_iff.mp h
        rw [ih ⟨fun hm => hstar (mem_cons_of_mem c hm),
          fun hm => hone (mem_cons_of_mem c hm)⟩ h']
    exact hlit (wild_eq_false_iff.mp (Bool.eq_false_iff.mpr hps)) (fnmatch_iff.mp h)

theorem segsMatch_sample (h : ∀ s ∈ ps, IsName s) : segsMatch ps (ps.map sample) = true := by
  induction ps with
  | nil => rfl
  | cons s ps ih =>
    have hname := isName_sample (h s mem_cons_self)
    have hrest := ih fun t ht => h t (mem_cons_of_mem s ht)
    by_cases hs : s = "**"
    · rw [hs, segsMatch_star, map_cons, doubleStar_iff]
      exact ⟨[sample "**"], ps.map sample, rfl,
        forall_mem_singleton.mpr (by decide), hrest⟩
    · rw [map_cons, segsMatch_cons hs]
      exact ⟨_, _, rfl, segmentCovers_of_fnmatch (wild_sample s) hname.ne_dotdot
        (fnmatch_sample s), hrest⟩

theorem exists_of_reach (hps : ∀ s ∈ ps, IsName s)
    (hrel : ∀ s ∈ rel, wild s = false ∧ s ≠ "..") (h : reach ps rel) :
    ∃ more, (∀ s ∈ more, IsName s) ∧ segsMatch ps (rel ++ more) = true := by
  have hsamples {ps : List Text} (hps : ∀ s ∈ ps, IsName s) : ∀ s ∈ ps.map sample, IsName s := by
    intro s hs
    obtain ⟨t, ht, rfl⟩ := mem_map.mp hs
    exact isName_sample (hps t ht)
  induction ps generalizing rel with
  | nil =>
    have hnil : rel = [] := by simpa [reach] using h
    exact ⟨[], forall_mem_nil _, by rw [hnil]; rfl⟩
  | cons ps rest ih =>
    have hrest : ∀ s ∈ rest, IsName s := fun s hs => hps s (mem_cons_of_mem ps hs)
    by_cases hstar : ps = "**"
    · -- the whole folder is read by `**`
      refine ⟨rest.map sample, hsamples hrest, ?_⟩
      rw [hstar, segsMatch_star, doubleStar_iff]
      exact ⟨rel, rest.map sample, rfl, fun s hs => (hrel s hs).2, segsMatch_sample hrest⟩
    · cases rel with
      | nil => exact ⟨(ps :: rest).map sample, hsamples hps, segsMatch_sample hps⟩
      | cons rs rel =>
        rw [reach_cons hstar, Bool.and_eq_true] at h
        obtain ⟨more, hmore, hmatch⟩ := ih hrest
          (fun s hs => hrel s (mem_cons_of_mem rs hs)) h.2
        obtain ⟨hplain, hdd⟩ := hrel rs mem_cons_self
        refine ⟨more, hmore, ?_⟩
        rw [cons_append, segsMatch_cons hstar]
        exact ⟨rs, rel ++ more, rfl, segmentCovers_of_fnmatch hplain hdd h.1, hmatch⟩

/-! ## What stands below a base -/

/-- The segments of a text. -/
def segsOf (x : Text) : List Text := (split '/' x).filter fun s => !s.isEmpty

theorem segsOf_trimEnd (h : ∀ s ∈ bs, IsName s) :
    segsOf (trimEndMatches (· == '/') (absText bs)) = bs := by
  rw [trimEnd_absText h]
  split
  · rename_i hbs
    rw [hbs]
    rfl
  · exact split_absText h

theorem segsOf_join (h : ∀ s ∈ R, IsName s) : segsOf (join "/" R) = R := by
  cases R with
  | nil => rfl
  | cons s R =>
    rw [segsOf, split_join (fun t ht => (h t ht).slash) (cons_ne_nil s R)]
    exact filter_eq_self.mpr fun t ht => by
      rw [isEmpty_eq_false_iff.mpr (h t ht).ne_nil]
      rfl

theorem segsOf_of_beneath (h : ∀ s ∈ bs, IsName s) {below : Text}
    (hx : beneath (trimEndMatches (· == '/') (absText bs)) x = some below) :
    segsOf x = bs ++ segsOf below := by
  rw [beneath] at hx
  split at hx
  next heq =>
    obtain rfl := Option.some.inj hx
    rw [beq_iff_eq.mp heq, segsOf_trimEnd h]
    exact (append_nil bs).symm
  next =>
    split at hx
    next rest hrest =>
      split at hx
      next hstart =>
        obtain rfl := Option.some.inj hx
        rw [stripPrefix_eq_some.mp hrest]
        rcases Bool.or_eq_true_iff.mp hstart with hslash | hnil
        · obtain ⟨y, rfl⟩ := isPrefixOf_iff_prefix.mp hslash
          have hbelow := split_below (x := trimEndMatches (· == '/') (absText bs)) (y := y)
          exact hbelow.trans (congrArg (· ++ _) (segsOf_trimEnd h))
        · have hb := segsOf_trimEnd h
          rw [List.isEmpty_iff.mp hnil] at hb ⊢
          rw [← hb]
          rfl
      next => cases hx
    next => cases hx

theorem absText_append (h : ∀ s ∈ bs, IsName s) (hR : R ≠ []) :
    absText (bs ++ R) = trimEndMatches (· == '/') (absText bs) ++ '/' :: join "/" R := by
  rw [trimEnd_absText h]
  split
  · rename_i hbs
    rw [hbs]
    rfl
  · rename_i hbs
    have hjoin : join "/" (bs ++ R) = join "/" bs ++ '/' :: join "/" R := by
      clear h
      induction bs with
      | nil => exact absurd rfl hbs
      | cons x bs ih =>
        cases bs with
        | nil =>
          obtain ⟨y, R, rfl⟩ := exists_cons_of_ne_nil hR
          simp [join, intercalate_cons_cons]
        | cons y bs =>
          have htail := ih (cons_ne_nil y bs)
          simp only [join, cons_append, intercalate_cons_cons] at htail ⊢
          rw [htail]
          simp only [append_assoc]
    rw [absText, hjoin]
    rfl

theorem isSome_beneath_append (h : ∀ s ∈ bs ++ R, IsName s) :
    (beneath (trimEndMatches (· == '/') (absText bs))
      (trimEndMatches (· == '/') (absText (bs ++ R)))).isSome = true := by
  have hbs : ∀ s ∈ bs, IsName s := fun s hs => h s (mem_append_left R hs)
  cases R with
  | nil =>
    rw [append_nil, beneath, if_pos (beq_self_eq_true _)]
    rfl
  | cons s R =>
    have hne : bs ++ s :: R ≠ [] := append_ne_nil_of_right_ne_nil bs (cons_ne_nil s R)
    have htext : trimEndMatches (· == '/') (absText (bs ++ s :: R)) =
        trimEndMatches (· == '/') (absText bs) ++ '/' :: join "/" (s :: R) := by
      rw [trimEnd_absText h, if_neg hne, absText_append hbs (cons_ne_nil s R)]
    rw [htext, beneath]
    split
    · rfl
    · rw [stripPrefix_eq_some.mpr rfl]
      rfl

/-! ## What a scope names behind its base -/

/-- A name that looks like a drive of Windows. -/
def driveLike (s : Text) : Bool :=
  match s with
  | [c, ':'] => c.isAlpha
  | _ => false

theorem splitRoot_eq_of_fst (h : (splitRoot x).1 = []) : splitRoot x = ([], x) := by
  rcases splitRoot_or x with ⟨rest, rfl⟩ | ⟨c, rest, -, hroot⟩ | hroot
  · cases h
  · rw [hroot] at h
    cases h
  · exact hroot

theorem splitRoot_append (x : Text) : (splitRoot x).1 ++ (splitRoot x).2 = x := by
  unfold splitRoot
  split
  · rfl
  · split
    · rfl
    · rfl
  · rfl

theorem not_mem_drive {x : Char} (hc : c.isAlpha) (hx : x.isAlpha = false) (hcolon : x ≠ ':')
    : x ∉ [c, ':'] := by
  rintro hm
  rcases mem_pair.mp hm with rfl | hm
  · rw [hc] at hx
    cases hx
  · exact hcolon hm

theorem split_of_drive {rest : Text} (hc : c.isAlpha)
    (h : splitRoot x = ([c, ':', '/'], rest)) : split '/' x = [c, ':'] :: split '/' rest := by
  have hx := splitRoot_append x
  rw [h] at hx
  rw [← hx]
  exact splitOn_append_cons_self_of_not_mem (not_mem_drive hc (by decide) (by decide)) rest

theorem splitPath_join_snd (h : ∀ s ∈ R, IsName s) (hroot : (splitPath (join "/" R)).1 = [])
    : (splitPath (join "/" R)).2 = R := by
  have hsplit := splitRoot_eq_of_fst hroot
  rw [splitPath, hsplit]
  cases R with
  | nil => rfl
  | cons s R =>
    simp only [split_join (fun t ht => (h t ht).slash) (cons_ne_nil s R)]
    exact filter_names fun t ht => ⟨(h t ht).ne_nil, (h t ht).ne_dot⟩

theorem splitPath_join (h : ∀ s ∈ R, IsName s) (hdrive : ∀ s ∈ R.head?, driveLike s = false) :
    splitPath (join "/" R) = ([], R) := by
  have hroot : (splitRoot (join "/" R)).1 = [] := by
    rcases splitRoot_or (join "/" R) with ⟨rest, hrest⟩ | ⟨c, rest, hc, hrest⟩ | hrest
    · have hhead := join_head_ne_slash fun s hs => ⟨(h s hs).ne_nil, (h s hs).slash⟩
      rw [hrest] at hhead
      have hlen := congrArg List.length hhead
      have hle := length_dropWhile_le (· == '/') rest
      simp at hlen
      omega
    · have hsplit := split_of_drive hc hrest
      cases R with
      | nil => cases hrest
      | cons s R =>
        rw [split_join (fun t ht => (h t ht).slash) (cons_ne_nil s R)] at hsplit
        obtain ⟨rfl, -⟩ := cons.inj hsplit
        have := hdrive _ rfl
        rw [driveLike, hc] at this
        cases this
    · rw [hrest]
  exact Prod.ext hroot (splitPath_join_snd h hroot)

/-- What a pattern, or none, matches below a base. -/
def MatchesBelow (pattern : Option Text) (R : List Text) : Prop :=
  match pattern with
  | none => R = []
  | some p => pathGlob (join "/" R) p = true

theorem physicalMatch_absText {rs : List Text} (hbs : ∀ s ∈ bs, IsName s) (hrs : ∀ s ∈ rs, IsName s)
    (pattern : Option Text) :
    physicalMatch (absText bs) pattern (absText rs) ↔
      ∃ R, rs = bs ++ R ∧ MatchesBelow pattern R := by
  have hbehind {R : List Text} (hR : rs = bs ++ R) :
      physicalMatch (absText bs) pattern (absText rs) = true ↔ MatchesBelow pattern R := by
    have hRn : ∀ s ∈ R, IsName s := fun s hs => hrs s (hR ▸ mem_append_right bs hs)
    rw [hR, ← UnixTree.pushSegments_absText (hR ▸ hrs), physicalMatch_behind _ _ hRn]
    cases pattern with
    | none =>
      simp only [MatchesBelow, isEmpty_join fun s hs => (hRn s hs).ne_nil, List.isEmpty_iff]
    | some p => exact Iff.rfl
  constructor
  · intro h
    have hb : ∃ below,
        beneath (trimEndMatches (· == '/') (absText bs)) (absText rs) = some below := by
      rw [physicalMatch] at h
      cases hb : beneath (trimEndMatches (· == '/') (absText bs)) (absText rs) with
      | none =>
        rw [hb] at h
        cases h
      | some below => exact ⟨below, rfl⟩
    obtain ⟨below, hb⟩ := hb
    have hseg := segsOf_of_beneath hbs hb
    have hrs' : rs = bs ++ segsOf below := (split_absText hrs).symm.trans hseg
    exact ⟨segsOf below, hrs', (hbehind hrs').mp h⟩
  · rintro ⟨R, hR, h⟩
    exact (hbehind hR).mpr h

/-! ## The parts of a scope -/

theorem split_normalizePath (m : Platform) (p : Text) :
    ∃ front names, split '/' (normalizePath m p) = front ++ names ∧
      (∀ s ∈ front, wild s = false) ∧ ∀ s ∈ names, IsName s := by
  have hback : '\\' ∉ replaceChar '\\' '/' (expandHome m p) := by
    intro hm
    rw [replaceChar, mem_map] at hm
    obtain ⟨c, -, hc⟩ := hm
    split at hc
    · cases hc
    · exact ‹c ≠ '\\'› hc
  unfold normalizePath
  dsimp only
  generalize replaceChar '\\' '/' (expandHome m p) = text at hback ⊢
  have hplain {rest : Text} (hrest : rest <:+ text) : ∀ s ∈ split '/' rest, '/' ∉ s ∧ '\\' ∉ s :=
    fun s hs => ⟨not_mem_of_mem_split hs, fun hm => hback (hrest.subset (mem_of_mem_split hs hm))⟩
  have hnames {rest : Text} (hrest : rest <:+ text) : ∀ s ∈ normalSegs (split '/' rest), IsName s :=
    fun s hs => foldl_pushSegment_rooted (hplain hrest) (forall_mem_nil IsName) s
      (mem_reverse.mp hs)
  have hjoin {front : Text} (hfront : '/' ∉ front) (hwild : wild front = false) {q : List Text}
      (hq : ∀ s ∈ q, IsName s) : ∃ front' names,
        split '/' (front ++ '/' :: join "/" q) = front' ++ names ∧
          (∀ s ∈ front', wild s = false) ∧ ∀ s ∈ names, IsName s := by
    rw [split, splitOn_append_cons_self_of_not_mem hfront]
    cases q with
    | nil =>
      exact ⟨[front, []], [], rfl, forall_mem_cons.mpr
        ⟨hwild, forall_mem_singleton.mpr rfl⟩, forall_mem_nil _⟩
    | cons s q =>
      refine ⟨[front], s :: q, ?_, forall_mem_singleton.mpr hwild, hq⟩
      rw [singleton_append]
      exact congrArg _ (split_join (fun t ht => (hq t ht).slash) (cons_ne_nil s q))
  rcases splitRoot_or text with ⟨rest, rfl⟩ | ⟨c, rest, hc, hroot⟩ | hroot
  · exact @hjoin [] not_mem_nil rfl _ (hnames (suffix_cons '/' rest))
  · have hsuffix : rest <:+ text := ⟨[c, ':', '/'], by rw [← splitRoot_append text, hroot]⟩
    rw [hroot]
    have hwild : wild [c, ':'] = false := wild_eq_false_iff.mpr
      ⟨not_mem_drive hc (by decide) (by decide), not_mem_drive hc (by decide) (by decide)⟩
    exact hjoin (not_mem_drive hc (by decide) (by decide)) hwild (hnames hsuffix)
  · rw [hroot]
    obtain ⟨names, k, hn, hstack⟩ := foldl_pushSegment_relative
      (hplain suffix_rfl) (k := 0) (forall_mem_nil IsName)
    rw [replicate_zero, append_nil] at hstack
    simp only [hstack, isEmpty_nil, Bool.not_true, Bool.false_eq_true, if_false, reverse_append,
      reverse_replicate]
    have hn' : ∀ s ∈ names.reverse, IsName s := fun s hs => hn s (mem_reverse.mp hs)
    split
    · exact ⟨[".".toList], [], rfl, forall_mem_singleton.mpr (by decide),
        forall_mem_nil _⟩
    · rename_i hempty
      refine ⟨replicate k "..".toList, names.reverse, ?_, ?_, hn'⟩
      · refine split_join (fun s hs => (dotdots_plain hn' s hs).1) ?_
        rintro hnil
        rw [hnil] at hempty
        exact hempty rfl
      · intro s hs
        rw [eq_of_mem_replicate hs]
        decide

theorem pattern_of_splitScope {m : Platform} {scope literal pattern : Text}
    (h : splitScope m scope = (literal, some pattern)) :
    ∃ s ps, wild s ∧ (∀ t ∈ s :: ps, IsName t) ∧
      pattern = join "/".toList (s :: ps) := by
  obtain ⟨front, names, hsegs, hfront, hnames⟩ := split_normalizePath m scope
  simp only [splitScope, hsegs] at h
  split at h
  next => cases h
  next i hi =>
    obtain ⟨-, hpattern⟩ := Prod.mk.inj h
    rw [findIdx?_append] at hi
    have hnone : front.findIdx? wild = none :=
      findIdx?_eq_none_iff.mpr fun s hs => hfront s hs
    rw [hnone, Option.none_or] at hi
    obtain ⟨j, hj, rfl⟩ := Option.map_eq_some_iff.mp hi
    obtain ⟨hlt, hwild, -⟩ := findIdx?_eq_some_iff_getElem.mp hj
    have hdrop : (front ++ names).drop (j + front.length) = names[j] :: names.drop (j + 1) := by
      rw [Nat.add_comm, ← drop_drop, drop_left, drop_eq_getElem_cons hlt]
    refine ⟨names[j], names.drop (j + 1), hwild, ?_, ?_⟩
    · intro t ht
      rw [← drop_eq_getElem_cons hlt] at ht
      exact hnames t (mem_of_mem_drop ht)
    · rw [← hdrop]
      exact (Option.some.inj hpattern).symm

theorem physicalPath_congr {m : Platform} (d : Disk) {p q : Text}
    (h : absoluteLexical m p = absoluteLexical m q) : physicalPath m d p = physicalPath m d q := by
  rw [physicalPath, physicalPath, h]

/-! ## Agreement -/

/-- The scope has, as it is written, the literal part and the pattern of its absolute form. -/
structure SameParts (m : Platform) (scope : Text) : Prop where
  literal : absoluteLexical m (splitScope m scope).1 =
    absoluteLexical m (splitScope m (absoluteScope m scope)).1
  pattern : (splitScope m scope).2 = (splitScope m (absoluteScope m scope)).2

/-- A name that neither has a wildcard nor looks like a drive. -/
def Ordinary (s : Text) : Prop := wild s = false ∧ driveLike s = false

instance (s : Text) : Decidable (Ordinary s) := inferInstanceAs (Decidable (_ ∧ _))

/-- A text is an absolute path of names. -/
def IsPlace (p : Text) : Prop := ∃ bs : List Text, (∀ s ∈ bs, IsName s) ∧ p = absText bs

/-- The scope names the place on disk: it is under the base of the scope and matches its pattern. -/
def NamesOnDisk (m : Platform) (d : Disk) (scope place : Text) : Prop :=
  ∃ base pattern, physicalScopeParts m d scope = .ok (base, pattern) ∧ IsPlace base ∧
    physicalMatch base pattern place = true

/-- The scope is said to reach into the folder when it names the folder or something below it, and,
if its base is resolved, only then. -/
structure Agrees (m : Platform) (d : Disk) (scope : Text) (folder : List Text) : Prop where
  reaches : ∀ below : List Text, (∀ s ∈ below, IsName s) →
    NamesOnDisk m d scope (absText (folder ++ below)) →
    scopeReachesInside m d scope (absText folder) = true
  names : scopeReachesInside m d scope (absText folder) = true →
    ∀ base, physicalPath m d (splitScope m (absoluteScope m scope)).1 = .path base → IsPlace base →
    ∃ below : List Text, (∀ s ∈ below, IsName s) ∧
      NamesOnDisk m d scope (absText (folder ++ below))

variable {m : Platform} {d : Disk} {scope : Text} {folder : List Text}

theorem physicalScopeParts_eq_ok :
    physicalScopeParts m d scope = .ok (base, pattern) ↔
      physicalPath m d (splitScope m scope).1 = .path base ∧ (splitScope m scope).2 = pattern := by
  rw [physicalScopeParts]
  cases hp : physicalPath m d (splitScope m scope).1 with
  | path p | noFs | unresolved => simp [hp]

theorem SameParts.parts (h : SameParts m scope) :
    physicalScopeParts m d scope = .ok (base, pattern) ↔
      physicalPath m d (splitScope m (absoluteScope m scope)).1 = .path base ∧
        (splitScope m (absoluteScope m scope)).2 = pattern := by
  rw [physicalScopeParts_eq_ok, physicalPath_congr d h.literal, h.pattern]

theorem scopeReachesInside_of_path
    (hbase : physicalPath m d (splitScope m (absoluteScope m scope)).1 = .path (absText bs))
    (hbs : ∀ s ∈ bs, IsName s) (hf : ∀ s ∈ folder, IsName s) :
    scopeReachesInside m d scope (absText folder) ↔
      (∃ R, bs = folder ++ R) ∨
        ∃ rel pattern, folder = bs ++ rel ∧
          (splitScope m (absoluteScope m scope)).2 = some pattern ∧
          reach (segsOf pattern) rel = true := by
  have habove {a b : List Text} (ha : ∀ s ∈ a, IsName s) (hb : ∀ s ∈ b, IsName s) :
      (∃ below, beneath (trimEndMatches (· == '/') (absText a))
        (trimEndMatches (· == '/') (absText b)) = some below) ↔ ∃ R, b = a ++ R := by
    constructor
    · rintro ⟨below, h⟩
      have hseg := segsOf_of_beneath ha h
      rw [segsOf_trimEnd hb] at hseg
      exact ⟨_, hseg⟩
    · rintro ⟨R, rfl⟩
      exact Option.isSome_iff_exists.mp (isSome_beneath_append hb)
  simp only [scopeReachesInside, hbase]
  by_cases hin : ∃ R, bs = folder ++ R
  · rw [if_pos (Option.isSome_iff_exists.mpr ((habove hf hbs).mpr hin))]
    exact ⟨fun _ => .inl hin, fun _ => rfl⟩
  · rw [if_neg fun h => hin ((habove hf hbs).mp (Option.isSome_iff_exists.mp h)), or_iff_right hin]
    cases hb : beneath (trimEndMatches (· == '/') (absText bs))
        (trimEndMatches (· == '/') (absText folder)) with
    | none =>
      refine iff_of_false Bool.false_ne_true ?_
      rintro ⟨rel, pattern, hrel, -⟩
      obtain ⟨below, h⟩ := (habove hbs hf).mpr ⟨rel, hrel⟩
      rw [hb] at h
      cases h
    | some below =>
      have hseg := segsOf_of_beneath hbs hb
      rw [segsOf_trimEnd hf] at hseg
      cases hp : (splitScope m (absoluteScope m scope)).2 with
      | none =>
        refine iff_of_false Bool.false_ne_true ?_
        rintro ⟨rel, pattern, -, h, -⟩
        cases h
      | some pattern =>
        constructor
        · exact fun h => ⟨segsOf below, pattern, hseg, rfl, h⟩
        · rintro ⟨rel, pattern', hrel, hpat, h⟩
          cases hpat
          rw [hrel] at hseg
          rw [append_cancel_left hseg] at h
          exact h

theorem driveLike_of_mem {x : Char} (hx : x ∈ s) (halpha : x.isAlpha = false) (hcolon : x ≠ ':') :
    driveLike s = false := by
  unfold driveLike
  split
  next c =>
    rcases mem_pair.mp hx with rfl | h
    · exact halpha
    · exact absurd h hcolon
  next => rfl

theorem driveLike_of_wild (h : wild s) : driveLike s = false := by
  obtain ⟨c, hc, hcs⟩ := any_eq_true.mp h
  rcases mem_pair.mp (contains_iff_mem.mp hcs) with rfl | rfl
  · exact driveLike_of_mem hc (by decide) (by decide)
  · exact driveLike_of_mem hc (by decide) (by decide)

theorem pathGlob_join (hps : ∀ s ∈ ps, IsName s) (hR : ∀ s ∈ R, IsName s)
    (hdrive : ∀ s ∈ ps.head?, driveLike s = false) :
    pathGlob (join "/".toList R) (join "/".toList ps) ↔
      (splitPath (join "/".toList R)).1 = [] ∧ segsMatch ps R = true := by
  rw [pathGlob_iff, splitPath_join hps hdrive, eq_comm]
  refine and_congr_right fun hroot => ?_
  rw [splitPath_join_snd hR hroot]

theorem NamesOnDisk.of_match (h : SameParts m scope)
    (hbase : physicalPath m d (splitScope m (absoluteScope m scope)).1 = .path (absText bs))
    (hpattern : (splitScope m (absoluteScope m scope)).2 = pattern)
    (hnames : ∀ s ∈ bs ++ R, IsName s) (hmatch : MatchesBelow pattern R) :
    NamesOnDisk m d scope (absText (bs ++ R)) := by
  have hbs : ∀ s ∈ bs, IsName s := fun s hs => hnames s (mem_append_left R hs)
  exact ⟨absText bs, pattern, h.parts.mpr ⟨hbase, hpattern⟩, ⟨bs, hbs, rfl⟩,
    (physicalMatch_absText hbs hnames pattern).mpr ⟨R, rfl, hmatch⟩⟩

theorem exists_named_of_base_inside (h : SameParts m scope)
    (hbase : physicalPath m d (splitScope m (absoluteScope m scope)).1 = .path (absText bs))
    (hbs : ∀ s ∈ bs, IsName s) (hR : bs = folder ++ R) :
    ∃ below : List Text, (∀ s ∈ below, IsName s) ∧
      NamesOnDisk m d scope (absText (folder ++ below)) := by
  have hRn : ∀ s ∈ R, IsName s := fun s hs => hbs s (hR ▸ mem_append_right folder hs)
  cases hp : (splitScope m (absoluteScope m scope)).2 with
  | none =>
    refine ⟨R, hRn, ?_⟩
    have hnamed := NamesOnDisk.of_match (R := []) h hbase hp (by rwa [append_nil]) rfl
    rwa [append_nil, hR] at hnamed
  | some pattern =>
    obtain ⟨s, ps, hwild, hps, rfl⟩ := pattern_of_splitScope (Prod.ext rfl hp)
    have hsamples : ∀ t ∈ (s :: ps).map sample, IsName t := by
      intro t ht
      obtain ⟨u, hu, rfl⟩ := mem_map.mp ht
      exact isName_sample (hps u hu)
    have hdrive : ∀ t ∈ ((s :: ps).map sample).head?, driveLike t = false := by
      rintro t ht
      obtain rfl := Option.some.inj ht
      exact driveLike_of_mem (underscore_mem_sample hwild) (by decide) (by decide)
    refine ⟨R ++ (s :: ps).map sample, forall_mem_append.mpr ⟨hRn, hsamples⟩, ?_⟩
    rw [← append_assoc, ← hR]
    refine NamesOnDisk.of_match h hbase hp (forall_mem_append.mpr ⟨hbs, hsamples⟩) ?_
    refine (pathGlob_join hps hsamples fun t ht => ?_).mpr ⟨?_, segsMatch_sample hps⟩
    · obtain rfl := Option.some.inj ht
      exact driveLike_of_wild hwild
    · rw [splitPath_join hsamples hdrive]

theorem agrees_of_ordinary (hf : ∀ s ∈ folder, IsName s) (hord : ∀ s ∈ folder, Ordinary s)
    (h : SameParts m scope) : Agrees m d scope folder := by
  constructor
  · rintro below hbelow ⟨base, pattern, hparts, ⟨bs, hbs, rfl⟩, hmatch⟩
    obtain ⟨hbase, hpattern⟩ := h.parts.mp hparts
    rw [scopeReachesInside_of_path hbase hbs hf]
    obtain ⟨R, hR, hmatch⟩ := (physicalMatch_absText hbs
      (forall_mem_append.mpr ⟨hf, hbelow⟩) pattern).mp hmatch
    rcases append_eq_append_iff.mp hR with ⟨bs', hbs', -⟩ | ⟨rel, hrel, hRrel⟩
    · exact .inl ⟨bs', hbs'⟩
    · have hRn : ∀ s ∈ R, IsName s := by
        rw [hRrel]
        exact forall_mem_append.mpr
          ⟨fun s hs => hf s (hrel ▸ mem_append_right bs hs), hbelow⟩
      cases pattern with
      | none =>
        obtain ⟨rfl, -⟩ := append_eq_nil_iff.mp (hRrel.symm.trans hmatch)
        exact .inl ⟨[], by rw [hrel, append_nil, append_nil]⟩
      | some p =>
        refine .inr ⟨rel, p, hrel, hpattern, ?_⟩
        obtain ⟨s, ps, hwild, hps, rfl⟩ := pattern_of_splitScope (Prod.ext rfl hpattern)
        have hdrive : ∀ t ∈ (s :: ps).head?, driveLike t = false := by
          rintro t ht
          obtain rfl := Option.some.inj ht
          exact driveLike_of_wild hwild
        obtain ⟨-, hsegs⟩ := (pathGlob_join hps hRn hdrive).mp hmatch
        rw [segsOf_join hps]
        exact reach_of_segsMatch (hRrel ▸ hsegs)
  · rintro hreach base hbase ⟨bs, hbs, rfl⟩
    rcases (scopeReachesInside_of_path hbase hbs hf).mp hreach with ⟨R, hR⟩ | ⟨rel, p, hrel, hp, hw⟩
    · exact exists_named_of_base_inside h hbase hbs hR
    · cases rel with
      | nil =>
        rw [append_nil] at hrel
        exact exists_named_of_base_inside (R := []) h hbase hbs (by rw [hrel, append_nil])
      | cons n rel =>
        obtain ⟨s, ps, hwild, hps, rfl⟩ := pattern_of_splitScope (Prod.ext rfl hp)
        have hrelf : ∀ t ∈ n :: rel, t ∈ folder := fun t ht => hrel ▸ mem_append_right bs ht
        rw [segsOf_join hps] at hw
        obtain ⟨more, hmore, hsegs⟩ := exists_of_reach hps
          (fun t ht => ⟨(hord t (hrelf t ht)).1, (hf t (hrelf t ht)).ne_dotdot⟩) hw
        have hRn : ∀ t ∈ n :: rel ++ more, IsName t :=
          forall_mem_append.mpr ⟨fun t ht => hf t (hrelf t ht), hmore⟩
        refine ⟨more, hmore, ?_⟩
        rw [hrel, append_assoc]
        refine NamesOnDisk.of_match h hbase hp (forall_mem_append.mpr ⟨hbs, hRn⟩) ?_
        refine (pathGlob_join hps hRn fun t ht => ?_).mpr ⟨?_, hsegs⟩
        · obtain rfl := Option.some.inj ht
          exact driveLike_of_wild hwild
        · rw [splitPath_join hRn fun t ht => ?_]
          obtain rfl := Option.some.inj ht
          exact (hord _ (hrelf _ mem_cons_self)).2

/-! ## Other names -/

theorem absoluteScope_absText (h : ∀ s ∈ q, IsName s) :
    absoluteScope m (absText q) = absText q := by
  rw [absoluteScope_def, UnixTree.cleanVerbatim_absText h, normalizePath_absText m h,
    if_pos (isRooted_absText q), UnixTree.driveRoot_absText]

theorem sameParts_absText (h : ∀ s ∈ q, IsName s) : SameParts m (absText q) := by
  refine ⟨?_, ?_⟩
  · rw [absoluteScope_absText h]
  · rw [absoluteScope_absText h]

theorem splitScope_absText (h : ∀ t ∈ pre ++ s :: ps, IsName t) (hpre : ∀ t ∈ pre, wild t = false)
    (hs : wild s) :
    splitScope m (absText (pre ++ s :: ps)) =
      (absText pre, some (join "/".toList (s :: ps))) := by
  have hne : pre ++ s :: ps ≠ [] := append_ne_nil_of_right_ne_nil pre (cons_ne_nil s ps)
  have hsegs : split '/' (absText (pre ++ s :: ps)) = [] :: (pre ++ s :: ps) := by
    rw [absText, split, splitOn_cons_eq_if_modifyHead, if_pos (beq_self_eq_true _)]
    exact congrArg _ (split_join (fun t ht => (h t ht).slash) hne)
  have hidx : ([] :: (pre ++ s :: ps)).findIdx? wild = some (pre.length + 1) := by
    have hnone : pre.findIdx? wild = none := findIdx?_eq_none_iff.mpr hpre
    rw [findIdx?_cons, if_neg (by decide), findIdx?_append, hnone, Option.none_or,
      findIdx?_cons, if_pos hs]
    simp
  have htake : ([] :: (pre ++ s :: ps)).take (pre.length + 1) = [] :: pre := by
    rw [take_succ_cons, take_left]
  have hdrop : ([] :: (pre ++ s :: ps)).drop (pre.length + 1) = s :: ps := by
    rw [drop_succ_cons, drop_left]
  simp only [splitScope, normalizePath_absText m h, hsegs, hidx, htake, hdrop]
  cases pre with
  | nil => rfl
  | cons t pre =>
    have hjoin : join "/".toList ([] :: t :: pre) = absText (t :: pre) := rfl
    rw [hjoin, UnixTree.driveRoot_absText]
    rfl

/-- A folder on disk: every directory on its way is where it stands. -/
structure PhysicalFolder (m : Platform) (d : Disk) (folder : List Text) : Prop where
  names : ∀ s ∈ folder, IsName s
  place : ∀ p, p <+: folder → physicalPath m d (absText p) = .path (absText p)

theorem not_agrees_of_pattern
    (hf : PhysicalFolder m d (pre ++ n :: rest)) (hpre : ∀ t ∈ pre, wild t = false)
    (hps : ∀ t ∈ s :: ps, IsName t) (hs : wild s)
    (hreach : reach (s :: ps) (n :: rest))
    (hnot : ∀ R, (splitPath (join "/".toList (n :: R))).1 = [] →
      segsMatch (s :: ps) (n :: R) = false) :
    ¬ Agrees m d (absText (pre ++ s :: ps)) (pre ++ n :: rest) := by
  intro h
  have hpren : ∀ t ∈ pre, IsName t := fun t ht => hf.names t (mem_append_left _ ht)
  have hscope : ∀ t ∈ pre ++ s :: ps, IsName t := forall_mem_append.mpr ⟨hpren, hps⟩
  have hparts := splitScope_absText (m := m) hscope hpre hs
  have habs := absoluteScope_absText (m := m) hscope
  have hbase : physicalPath m d (splitScope m (absoluteScope m (absText (pre ++ s :: ps)))).1 =
      .path (absText pre) := by
    rw [habs, hparts]
    exact hf.place pre (prefix_append _ _)
  have hpattern : (splitScope m (absoluteScope m (absText (pre ++ s :: ps)))).2 =
      some (join "/".toList (s :: ps)) := by rw [habs, hparts]
  obtain ⟨below, hbelow, base, pattern, hok, -, hmatch⟩ := h.names
    ((scopeReachesInside_of_path hbase hpren hf.names).mpr
      (.inr ⟨n :: rest, _, rfl, hpattern, by rw [segsOf_join hps]; exact hreach⟩)) _ hbase
    ⟨pre, hpren, rfl⟩
  obtain ⟨hbase', hpattern'⟩ := (sameParts_absText hscope).parts.mp hok
  rw [hbase] at hbase'
  cases hbase'
  rw [hpattern] at hpattern'
  subst hpattern'
  have hall : ∀ t ∈ pre ++ n :: rest ++ below, IsName t :=
    forall_mem_append.mpr ⟨hf.names, hbelow⟩
  obtain ⟨R, hR, hglob⟩ := (physicalMatch_absText hpren hall _).mp hmatch
  rw [append_assoc] at hR
  obtain rfl := append_cancel_left hR
  have hRn : ∀ t ∈ n :: rest ++ below, IsName t := fun t ht =>
    hall t (by rw [append_assoc]; exact mem_append_right pre ht)
  obtain ⟨hroot, hsegs⟩ := (pathGlob_join hps hRn fun t ht => by
    obtain rfl := Option.some.inj ht
    exact driveLike_of_wild hs).mp hglob
  rw [cons_append] at hroot hsegs
  rw [hnot _ hroot] at hsegs
  cases hsegs

/-- A pattern that is not the name and matches it as a word. -/
def otherPattern (s : Text) : Text := if s = "?*".toList then "*?".toList else "?*".toList

theorem otherPattern_ne (s : Text) : otherPattern s ≠ s := by
  rw [otherPattern]
  split
  next h =>
    rw [h]
    decide
  next h => exact fun he => h he.symm

theorem otherPattern_cases (s : Text) :
    otherPattern s = "*?".toList ∨ otherPattern s = "?*".toList := by
  rw [otherPattern]
  split
  · exact .inl rfl
  · exact .inr rfl

theorem otherPattern_names (s : Text) : ∀ t ∈ [otherPattern s, "**".toList], IsName t := by
  rcases otherPattern_cases s with h | h
  · rw [h]
    decide
  · rw [h]
    decide

theorem fnmatch_otherPattern (hs : s ≠ []) : fnmatch s (otherPattern s) = true := by
  rw [otherPattern]
  split
  next h =>
    rw [h]
    decide
  next =>
    obtain ⟨c, s', rfl⟩ := exists_cons_of_ne_nil hs
    exact fnmatch_iff.mpr (accepts_one_iff.mpr ⟨c, s', rfl,
      accepts_many_iff.mpr ⟨s', [], (append_nil s').symm, .nil⟩⟩)

theorem not_agrees_of_wild (hf : PhysicalFolder m d (pre ++ n :: rest))
    (hpre : ∀ t ∈ pre, wild t = false) (hn : wild n) :
    ¬ Agrees m d (absText (pre ++ [otherPattern n, "**".toList])) (pre ++ n :: rest) := by
  have hother : wild (otherPattern n) = true ∧ otherPattern n ≠ "**".toList ∧
      otherPattern n ≠ "*".toList := by
    rcases otherPattern_cases n with h | h
    · rw [h]
      decide
    · rw [h]
      decide
  obtain ⟨hwild, hstars, hstar⟩ := hother
  have hnn := hf.names n (mem_append_right pre mem_cons_self)
  refine not_agrees_of_pattern hf hpre (otherPattern_names n) hwild ?_ fun R _ => ?_
  · rw [reach_cons hstars, fnmatch_otherPattern hnn.ne_nil, reach_star]
    rfl
  · refine Bool.eq_false_iff.mpr fun hsegs => ?_
    obtain ⟨n', R', heq, hcov, -⟩ := (segsMatch_cons hstars _ _).mp hsegs
    obtain ⟨rfl, rfl⟩ := cons.inj heq
    have h := (segmentCovers_iff.mp hcov).2
    rw [if_pos hn] at h
    rcases h with h | h
    · exact otherPattern_ne n h
    · exact hstar h

theorem drivePattern_names : ∀ t ∈ ["*".toList, "**".toList, "_".toList], IsName t := by decide

theorem not_agrees_of_drive (hf : PhysicalFolder m d (pre ++ n :: rest))
    (hpre : ∀ t ∈ pre, wild t = false) (hn : driveLike n) :
    ¬ Agrees m d (absText (pre ++ ["*".toList, "**".toList, "_".toList])) (pre ++ n :: rest) := by
  refine not_agrees_of_pattern hf hpre drivePattern_names (by decide) ?_ fun R hroot => ?_
  · rw [reach_cons (by decide), fnmatch_star, reach_star]
    rfl
  · cases R with
    | nil =>
      refine Bool.eq_false_iff.mpr fun hsegs => ?_
      obtain ⟨n', R', heq, -, hrest⟩ := (segsMatch_cons (by decide) _ _).mp hsegs
      obtain ⟨rfl, rfl⟩ := cons.inj heq
      exact absurd hrest (by decide)
    | cons y R =>
      exfalso
      unfold driveLike at hn
      split at hn
      next c =>
        have hjoin : join "/".toList ([c, ':'] :: y :: R) =
            c :: ':' :: '/' :: join "/".toList (y :: R) := by
          simp [join, intercalate_cons_cons]
        have hslash : c ≠ '/' := by
          rintro rfl
          exact absurd hn (by decide)
        rw [hjoin, splitPath] at hroot
        have hdrive : splitRoot (c :: ':' :: '/' :: join "/".toList (y :: R)) =
            ([c, ':', '/'], join "/".toList (y :: R)) := by
          simp only [splitRoot, hn, if_true]
        rw [hdrive] at hroot
        cases hroot
      next => cases hn

theorem exists_first {α : Type*} {P : α → Prop} {l : List α} (h : ¬ ∀ x ∈ l, P x) :
    ∃ pre x rest, l = pre ++ x :: rest ∧ (∀ y ∈ pre, P y) ∧ ¬ P x := by
  induction l with
  | nil => exact absurd (forall_mem_nil P) h
  | cons x l ih =>
    by_cases hx : P x
    · obtain ⟨pre, y, rest, rfl, hpre, hy⟩ := ih fun hl => h (forall_mem_cons.mpr ⟨hx, hl⟩)
      exact ⟨x :: pre, y, rest, rfl, forall_mem_cons.mpr ⟨hx, hpre⟩, hy⟩
    · exact ⟨[], x, l, rfl, forall_mem_nil P, hx⟩

/-- The walk and the glob agree about a folder on disk, for every scope that has the parts of its
absolute form, when the names of the folder are ordinary, and only then. -/
theorem agrees_iff (hf : PhysicalFolder m d folder) :
    (∀ scope, SameParts m scope → Agrees m d scope folder) ↔ ∀ s ∈ folder, Ordinary s := by
  constructor
  · intro h
    by_contra hall
    obtain ⟨pre, n, rest, rfl, hpre, hn⟩ := exists_first hall
    have hplain : ∀ t ∈ pre, wild t = false := fun t ht => (hpre t ht).1
    have hnames : ∀ t ∈ pre, IsName t := fun t ht => hf.names t (mem_append_left _ ht)
    rcases not_and_or.mp hn with hn | hn
    · exact not_agrees_of_wild hf hplain ((Bool.not_eq_false _).mp hn) (h _
        (sameParts_absText (forall_mem_append.mpr ⟨hnames, otherPattern_names n⟩)))
    · exact not_agrees_of_drive hf hplain ((Bool.not_eq_false _).mp hn) (h _
        (sameParts_absText (forall_mem_append.mpr ⟨hnames, drivePattern_names⟩)))
  · exact fun hord scope h => agrees_of_ordinary hf.names hord h

/-- A machine whose programs run in `/srv`. -/
def srvMachine : Platform where
  envVar v := if v = "HOME" then some "/home/u".toList else none
  currentDir := some "/srv".toList
  toLowercase := id

/-- A disk without links: everything is where it stands. -/
def flatDisk : Disk := ⟨some ⟨some, fun _ => some false, fun _ => none⟩, none⟩

theorem physicalFolder_flatDisk (h : ∀ s ∈ folder, IsName s)
    (hplace : ∀ p ∈ folder.inits, physicalPath srvMachine flatDisk (absText p) =
      .path (absText p)) : PhysicalFolder srvMachine flatDisk folder :=
  ⟨h, fun p hp => hplace p ((mem_inits p folder).mpr hp)⟩

theorem agrees_iff_sample :
    Agrees srvMachine flatDisk "data/*.key" ["srv", "data"] :=
  (agrees_iff (physicalFolder_flatDisk (by decide) (by decide))).mpr (by decide)
    "data/*.key" ⟨by decide, by decide⟩

/-- A scope that begins with `./~` denies by place what is in the home directory, and is not said to
reach into it. -/
theorem home_not_reached :
    ¬ ∀ (m : Platform) (d : Disk) (scope : Text) (folder : List Text), CwdAbsolute m →
      PhysicalFolder m d folder → Agrees m d scope folder := by
  intro h
  have hcwd : CwdAbsolute srvMachine := by
    rintro cwd hcwd
    obtain rfl := Option.some.inj hcwd
    decide
  have hf : PhysicalFolder srvMachine flatDisk ["home", "u", "x"] :=
    physicalFolder_flatDisk (by decide) (by decide)
  have hnamed : NamesOnDisk srvMachine flatDisk "./~/x/*"
      (absText (["home", "u", "x"] ++ ["a"])) :=
    ⟨"/home/u/x", some "*".toList, physicalScopeParts_eq_ok.mpr ⟨by decide +kernel,
      by decide⟩, ⟨["home", "u", "x"], by decide, by decide⟩,
      by decide⟩
  have hreach := (h srvMachine flatDisk "./~/x/*" _ hcwd hf).reaches ["a"]
    (by decide) hnamed
  exact absurd hreach (by decide +kernel)

end Synsema.Capscope
