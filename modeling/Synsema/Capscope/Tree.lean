import Synsema.Capscope.Normal
import Synsema.Capscope.Physical
import Synsema.Lib.FileTree

/-!
# The disk as a tree

What the three calls of `FileSystem` answer on a disk that is a tree of directories, files and
links, and where a path leads there: behind a path without a link among its last segments, the
place is that of the first segments with the last ones behind (`resolvePhysical_append`).
-/

namespace Synsema.Capscope

open Text FileTree List

/-! ## Trees of texts -/

/-- The steps that a path or the target of a link takes. -/
def stepsOf (target : Text) : List (Step Text) :=
  ((split '/' target).filter fun s => !s.isEmpty && s ≠ ".".toList).map fun s =>
    if s = "..".toList then .up else .name s

/-- A disk of Unix.  The code takes `\` for a separator, so none stands in a name; of a broken
link it reads the target itself, and takes `C:…` for an absolute path, so neither stands there. -/
structure UnixTree where
  tree : Tree Text Text
  read_eq : ∀ target, tree.read target = (startsWith "/" target, stepsOf target)
  names : ∀ p, tree.entry p ≠ none → ∀ n ∈ p, IsName n
  broken : ∀ p n target, tree.entry (p ++ [n]) = some (.link target) →
    tree.resolve (tree.start p target) (stepsOf target) = none →
    '\\' ∉ target ∧ isRooted target = startsWith "/" target

namespace UnixTree

/-- What stands at an absolute path, a link in its last segment not followed. -/
noncomputable def entryAt (t : UnixTree) (p : Text) : Option (Entry Text) :=
  match (stepsOf p).getLast? with
  | none => some .dir
  | some .up => (t.tree.resolve [] (stepsOf p)).map fun _ => .dir
  | some (.name n) => (t.tree.resolve [] (stepsOf p).dropLast).bind fun q => t.tree.entry (q ++ [n])

/-- The calls of the system on the tree. -/
noncomputable def fileSystem (t : UnixTree) : FileSystem where
  canonicalize p := (t.tree.resolve [] (stepsOf p)).map absText
  isSymlink p := (t.entryAt p).map fun
    | .link _ => true
    | _ => false
  readLink p := (t.entryAt p).bind fun
    | .link target => some target
    | _ => none

variable {t : UnixTree}

variable {p d q rest R : List Text} {n target s : Text}

theorem stepsOf_absText (h : ∀ s ∈ p, IsName s) : stepsOf (absText p) = FileTree.names p := by
  have hsplit : (split '/' (absText p)).filter (fun s ↦ !s.isEmpty && decide (s ≠ ".".toList)) = p := by
    have hcons : split '/' (absText p) = [] :: split '/' (join "/" p) := by
      rw [absText, split, splitOn_cons_eq_if_modifyHead]
      rfl
    rw [hcons]
    cases p with
    | nil => rfl
    | cons s p =>
      rw [split_join (fun x hx ↦ (h x hx).slash) (cons_ne_nil s p), filter_cons_of_neg (by simp)]
      exact filter_names fun x hx => ⟨(h x hx).ne_nil, (h x hx).ne_dot⟩
  rw [stepsOf, hsplit]
  exact map_congr_left fun s hs => if_neg (h s hs).ne_dotdot

theorem canonicalize_absText (h : ∀ s ∈ p, IsName s) :
    t.fileSystem.canonicalize (absText p) = (t.tree.resolve [] (FileTree.names p)).map absText := by
  show (t.tree.resolve [] (stepsOf (absText p))).map absText = _
  rw [stepsOf_absText h]

theorem entryAt_absText (h : ∀ s ∈ d ++ [n], IsName s) :
    t.entryAt (absText (d ++ [n])) = t.tree.lookup d n := by
  rw [entryAt, stepsOf_absText h, names_append]
  have hlast : (FileTree.names d ++ FileTree.names [n]).getLast? = some (.name n) :=
    getLast?_concat
  have hinit : (FileTree.names d ++ FileTree.names [n]).dropLast = FileTree.names d :=
    dropLast_concat
  rw [hlast, hinit]
  rfl

theorem names_of_resolve (h : t.tree.resolve [] (FileTree.names p) = some q) :
    ∀ n ∈ q, IsName n := by
  refine t.names q ((Tree.resolve_eq_some.mp h).entry_ne_none ?_)
  rw [t.tree.root]
  exact Option.some_ne_none _

theorem isSymlink_absText (h : ∀ s ∈ d ++ [n], IsName s) :
    t.fileSystem.isSymlink (absText (d ++ [n])) = (t.tree.lookup d n).map fun
      | .link _ => true
      | _ => false := by
  rw [← entryAt_absText h]
  rfl

theorem readLink_absText (h : ∀ s ∈ d ++ [n], IsName s)
    (hlink : t.tree.lookup d n = some (.link target)) :
    t.fileSystem.readLink (absText (d ++ [n])) = some target := by
  show ((t.entryAt (absText (d ++ [n]))).bind fun
    | .link target => some target
    | _ => none) = _
  rw [entryAt_absText h, hlink]
  rfl

/-! ## The deepest ancestor -/

/-- An ancestor with more segments behind it. -/
def extendAncestor (R : List Text) : Ancestor → Ancestor
  | .real p rest => .real p (rest ++ R)
  | .link p dir rest => .link p dir (rest ++ R)
  | .unresolved => .unresolved

theorem deepestAncestor_append (fs : FileSystem) (root : Text) (segs rest R : List Text) :
    deepestAncestor fs root segs (rest ++ R) =
      extendAncestor R (deepestAncestor fs root segs rest) := by
  induction segs generalizing rest with
  | nil =>
    unfold deepestAncestor
    dsimp only
    generalize fs.canonicalize (root ++ join "/" ([] : List Text).reverse) = real
    generalize fs.isSymlink (root ++ join "/" ([] : List Text).reverse) = link
    rcases real with - | real
    · rcases link with - | - | -
      · rfl
      · rfl
      · rfl
    · rfl
  | cons name segs ih =>
    unfold deepestAncestor
    dsimp only
    generalize fs.canonicalize (root ++ join "/" (name :: segs).reverse) = real
    generalize fs.isSymlink (root ++ join "/" (name :: segs).reverse) = link
    rcases real with - | real
    · rcases link with - | - | -
      · exact ih (name :: rest)
      · rfl
      · rfl
    · rfl

/-- The deepest ancestor that exists of an absolute path. -/
noncomputable def ancestor (t : UnixTree) (p rest : List Text) : Ancestor :=
  deepestAncestor t.fileSystem ['/'] p.reverse rest

theorem ancestor_of_resolve (h : ∀ s ∈ p, IsName s)
    (hq : t.tree.resolve [] (FileTree.names p) = some q) :
    t.ancestor p rest = .real (absText q) rest := by
  have hreal : t.fileSystem.canonicalize (['/'] ++ join "/" p.reverse.reverse) =
      some (absText q) := by
    rw [reverse_reverse]
    exact (canonicalize_absText h).trans (by rw [hq]; rfl)
  unfold ancestor
  cases hp : p.reverse with
  | nil | cons n d =>
    rw [hp] at hreal
    unfold deepestAncestor
    simp only [hreal]

theorem canonicalize_eq_none (h : ∀ s ∈ p, IsName s)
    (hp : t.tree.resolve [] (FileTree.names p) = none) :
    t.fileSystem.canonicalize (absText p) = none := by
  rw [canonicalize_absText h, hp]
  rfl

theorem ancestor_of_link (h : ∀ s ∈ d ++ [n], IsName s)
    (hp : t.tree.resolve [] (FileTree.names (d ++ [n])) = none)
    (hlink : t.tree.lookup d n = some (.link target)) :
    t.ancestor (d ++ [n]) rest = .link (absText (d ++ [n])) (absText d) rest := by
  have hcanon := canonicalize_eq_none h hp
  have hsym : t.fileSystem.isSymlink (absText (d ++ [n])) = some true := by
    rw [isSymlink_absText h, hlink]
    rfl
  have hcur : ['/'] ++ join "/" (n :: d.reverse).reverse = absText (d ++ [n]) := by
    rw [reverse_cons, reverse_reverse]
    rfl
  unfold ancestor
  rw [reverse_append, reverse_singleton, singleton_append]
  unfold deepestAncestor
  simp only [hcur, hcanon, hsym, tail_cons, reverse_reverse]
  rfl

theorem ancestor_of_none (h : ∀ s ∈ d ++ [n], IsName s) (hnone : t.tree.lookup d n = none) :
    t.ancestor (d ++ [n]) rest = t.ancestor d (n :: rest) := by
  have hcanon := canonicalize_eq_none h (resolve_of_lookup_none hnone)
  have hsym : t.fileSystem.isSymlink (absText (d ++ [n])) = none := by
    rw [isSymlink_absText h, hnone]
    rfl
  have hcur : ['/'] ++ join "/" (n :: d.reverse).reverse = absText (d ++ [n]) := by
    rw [reverse_cons, reverse_reverse]
    rfl
  unfold ancestor
  rw [reverse_append, reverse_singleton, singleton_append]
  conv_lhs => unfold deepestAncestor
  simp only [hcur, hcanon, hsym]

theorem ancestor_append (h : ∀ s ∈ p ++ R, IsName s)
    (hp : t.tree.resolve [] (FileTree.names p) = none) :
    t.ancestor (p ++ R) rest = t.ancestor p (R ++ rest) := by
  induction R using List.reverseRecOn generalizing rest with
  | nil => rw [append_nil, nil_append]
  | append_singleton R n ih =>
    rw [← append_assoc] at h ⊢
    have hpR : t.tree.resolve [] (FileTree.names (p ++ R)) = none := by
      rw [names_append, Tree.resolve_append, hp]
      rfl
    rw [ancestor_of_none h (lookup_of_resolve_none hpR n),
      ih fun s hs => h s (mem_append_left _ hs), append_assoc, singleton_append]

/-! ## Broken links -/

theorem ancestor_eq_link {rest₀ : List Text} {l dir : Text} (h : ∀ s ∈ p, IsName s)
    (ha : t.ancestor p rest₀ = .link l dir rest) :
    ∃ d n mid target, p = d ++ [n] ++ mid ∧ rest = mid ++ rest₀ ∧ l = absText (d ++ [n]) ∧
      dir = absText d ∧ t.tree.lookup d n = some (.link target) ∧
      t.tree.resolve [] (FileTree.names (d ++ [n])) = none := by
  induction p using List.reverseRecOn generalizing rest₀ with
  | nil =>
    rw [ancestor_of_resolve h (Tree.resolve_eq_some.mpr (.here []))] at ha
    cases ha
  | append_singleton d n ih =>
    have hd : ∀ s ∈ d, IsName s := fun s hs => h s (mem_append_left _ hs)
    cases hp : t.tree.resolve [] (FileTree.names (d ++ [n])) with
    | some q =>
      rw [ancestor_of_resolve h hp] at ha
      cases ha
    | none =>
      cases hlook : t.tree.lookup d n with
      | none =>
        rw [ancestor_of_none h hlook] at ha
        obtain ⟨d', n', mid, target, rfl, rfl, hl, hdir, hlink, hnone⟩ := ih hd ha
        refine ⟨d', n', mid ++ [n], target, ?_, ?_, hl, hdir, hlink, hnone⟩
        · rw [append_assoc]
        · rw [append_assoc, singleton_append]
      | some e =>
        cases e with
        | link target =>
          rw [ancestor_of_link h hp hlook] at ha
          cases ha
          exact ⟨d, n, [], target, (append_nil _).symm, rfl, rfl, rfl, hlook, hp⟩
        | dir | file =>
          obtain ⟨q, hq, -⟩ := Tree.lookup_eq_some.mp hlook
          rw [resolve_of_lookup hlook nofun (Tree.resolve_eq_some.mpr hq)] at hp
          cases hp

theorem plain_of_mem_segs (hback : '\\' ∉ target)
    (hs : s ∈ (split '/' target).filter fun s => !s.isEmpty && s ≠ ".".toList) :
    s = ".." ∨ IsName s := by
  obtain ⟨hs, hkeep⟩ := mem_filter.mp hs
  rcases isName_or (not_mem_of_mem_split hs) (fun hb => hback (mem_of_mem_split hs hb)) with
    (rfl | rfl) | hs | hs
  · exact absurd hkeep (by decide)
  · exact absurd hkeep (by decide)
  · exact .inl hs
  · exact .inr hs

theorem ups_names {segs : List Text} (hsegs : ∀ s ∈ segs, s = ".." ∨ IsName s)
    (h : (segs.dropWhile (· == "..".toList)).contains "..".toList = false) :
    ∃ k ns, segs = replicate k "..".toList ++ ns ∧ ∀ s ∈ ns, IsName s := by
  induction segs with
  | nil => exact ⟨0, [], rfl, forall_mem_nil _⟩
  | cons s segs ih =>
    by_cases hs : s = "..".toList
    · subst hs
      rw [dropWhile_cons, if_pos (beq_self_eq_true _)] at h
      obtain ⟨k, ns, rfl, hns⟩ := ih (fun x hx => hsegs x (mem_cons_of_mem _ hx)) h
      exact ⟨k + 1, ns, rfl, hns⟩
    · rw [dropWhile_cons, if_neg (mt beq_iff_eq.mp hs)] at h
      refine ⟨0, s :: segs, rfl, fun x hx => (hsegs x hx).resolve_left ?_⟩
      rintro rfl
      rw [contains_eq_mem, decide_eq_false_iff_not] at h
      exact h hx

theorem steps_ups_names {k : Nat} {ns : List Text} (h : ∀ s ∈ ns, IsName s) :
    (replicate k "..".toList ++ ns).map (fun s =>
      if s = "..".toList then Step.up else Step.name s) =
      replicate k .up ++ FileTree.names ns := by
  rw [map_append, map_replicate, if_pos rfl]
  exact congrArg _ (map_congr_left fun s hs => if_neg (h s hs).ne_dotdot)

theorem foldl_pushSegment_filter {rooted : Bool} (segs out : List Text) :
    segs.foldl (pushSegment rooted) out =
      (segs.filter fun s => !s.isEmpty && s ≠ ".".toList).foldl (pushSegment rooted) out := by
  induction segs generalizing out with
  | nil => rfl
  | cons s segs ih =>
    by_cases hs : s = [] ∨ s = "."
    · rw [foldl_cons, pushSegment_skip hs, ih]
      rcases hs with rfl | rfl
      · rfl
      · rfl
    · obtain ⟨hnil, hdot⟩ := not_or.mp hs
      rw [filter_cons_of_pos, foldl_cons, foldl_cons, ih]
      rw [isEmpty_eq_false_iff.mpr hnil, decide_eq_true hdot]
      rfl

theorem cleanVerbatim_absText (h : ∀ s ∈ q, IsName s) : cleanVerbatim (absText q) = absText q := by
  refine cleanVerbatim_of_not_mem fun hm => ?_
  rcases List.mem_cons.mp hm with hm | hm
  · cases hm
  · exact backslash_not_mem_join (fun s hs => (h s hs).backslash) hm

theorem driveRoot_absText (p : List Text) : driveRoot (absText p) = absText p := by
  unfold driveRoot
  split
  · rename_i c heq
    obtain ⟨rfl, -⟩ := cons.inj heq
    rfl
  · rfl

theorem linkTarget_broken {m : Platform} {next : Text} (h : ∀ s ∈ d ++ [n], IsName s)
    (hq : Leads t.tree [] (FileTree.names d) q)
    (hentry : t.tree.entry (q ++ [n]) = some (.link target))
    (hp : t.tree.resolve [] (FileTree.names (d ++ [n])) = none)
    (hnext : linkTarget m t.fileSystem (absText d) target = some next) :
    ∃ X, (∀ s ∈ X, IsName s) ∧ next = absText X ∧
      t.tree.resolve [] (FileTree.names X) = none := by
  have hd : ∀ s ∈ d, IsName s := fun s hs => h s (mem_append_left _ hs)
  have hbroken : t.tree.resolve (t.tree.start q target) (stepsOf target) = none := by
    refine Tree.resolve_eq_none.mpr fun r hr => Tree.resolve_eq_none.mp hp r ?_
    rw [names_append]
    refine hq.trans (leads_name_iff.mpr (.inr ⟨target, hentry, ?_⟩))
    rwa [t.read_eq]
  obtain ⟨hback, hroot⟩ := t.broken q n target hentry hbroken
  have hdir : t.tree.entry q = some .dir :=
    t.tree.closed q n (by rw [hentry]; exact Option.some_ne_none _)
  have hqnames : ∀ s ∈ q, IsName s := names_of_resolve (Tree.resolve_eq_some.mpr hq)
  unfold linkTarget at hnext
  rw [cleanVerbatim_of_not_mem hback] at hnext
  dsimp only at hnext
  split at hnext
  · cases hnext
  · rename_i hdots
    obtain ⟨k, ns, hsegs, hns⟩ := ups_names (fun s => plain_of_mem_segs hback)
      (Bool.eq_false_iff.mpr hdots)
    have hsteps : stepsOf target = replicate k .up ++ FileTree.names ns := by
      rw [stepsOf, hsegs, steps_ups_names hns]
    rw [hsteps] at hbroken
    cases habs : isRooted target with
    | true =>
      rw [habs, if_pos rfl] at hnext
      obtain ⟨rest, rfl⟩ : ∃ rest, target = '/' :: rest := by
        obtain ⟨rest, hrest⟩ := isPrefixOf_iff_prefix.mp (hroot.symm.trans habs)
        exact ⟨rest, hrest.symm⟩
      refine ⟨ns, hns, ?_, ?_⟩
      · have hrest : '\\' ∉ rest := fun hm => hback (mem_cons_of_mem _ hm)
        have hfilter : (split '/' rest).filter (fun s => !s.isEmpty && s ≠ ".".toList) =
            replicate k "..".toList ++ ns := by
          rw [split, splitOn_cons_eq_if_modifyHead] at hsegs
          exact hsegs
        have hnormal : normalSegs (split '/' rest) = ns := by
          rw [normalSegs, foldl_pushSegment_filter, hfilter, foldl_append,
            foldl_pushSegment_dotdot (forall_mem_nil _), drop_nil, foldl_pushSegment_names hns,
            append_nil, reverse_reverse]
        rw [← Option.some.inj hnext, normalizePath_slash, replaceChar_of_not_mem hrest, hnormal,
          driveRoot_absText]
      · have hstart : t.tree.start q ('/' :: rest) = [] := by
          rw [Tree.start, t.read_eq]
          rfl
        obtain ⟨hups, -⟩ := leads_ups t.tree.root k
        rw [hstart, Tree.resolve_append, Tree.resolve_eq_some.mpr hups] at hbroken
        simpa using hbroken
    | false =>
      rw [habs, if_neg Bool.false_ne_true, canonicalize_absText hd,
        Tree.resolve_eq_some.mpr hq] at hnext
      have hstart : t.tree.start q target = q := by
        rw [Tree.start, t.read_eq, ← hroot, habs]
        rfl
      obtain ⟨hups, hupdir⟩ := leads_ups hdir k
      refine ⟨(q.reverse.drop k).reverse ++ ns, ?_, ?_, ?_⟩
      · refine forall_mem_append.mpr ⟨fun s hs => hqnames s ?_, hns⟩
        exact mem_reverse.mp (mem_of_mem_drop (mem_reverse.mp hs))
      · have hne : replicate k "..".toList ++ ns ≠ [] := by
          intro hnil
          obtain ⟨hk, rfl⟩ := append_eq_nil_iff.mp hnil
          rw [replicate_eq_nil_iff] at hk
          subst hk
          rw [hstart] at hbroken
          exact Tree.resolve_eq_none.mp hbroken q (.here q)
        have hrel : join "/".toList (replicate k "..".toList ++ ns) =
            relText (replicate k "..".toList ++ ns) := by
          rw [relText, isEmpty_eq_false_iff.mpr hne]
          rfl
        have hqback : '\\' ∉ join "/" q :=
          backslash_not_mem_join fun s hs => (hqnames s hs).backslash
        have hnormal : normalSegs (split '/' (replaceChar '\\' '/' (join "/" q))) = q := by
          rw [normalSegs, replaceChar_of_not_mem hqback, split_plain_join hqnames, reverse_reverse]
        rw [← Option.some.inj hnext]
        change driveRoot (normalizePath m
          (cleanVerbatim (absText q) ++ "/" ++ join "/" _)) = _
        rw [cleanVerbatim_absText hqnames, hsegs, hrel, absText, normalizePath_behind m _ hns, hnormal, driveRoot_absText]
      · rw [hstart, Tree.resolve_append, Tree.resolve_eq_some.mpr hups] at hbroken
        rw [names_append, Tree.resolve_append, Tree.resolve_eq_some.mpr (leads_names_self hupdir)]
        exact hbroken

/-! ## Segments behind a path -/

theorem absText_concat (hd : d ≠ []) (n : Text) : absText (d ++ [n]) = absText d ++ '/' :: n := by
  have hjoin : join "/" (d ++ [n]) = join "/" d ++ '/' :: n := by
    induction d with
    | nil => exact absurd rfl hd
    | cons x d ih =>
      cases d with
      | nil => simp [join, intercalate_cons_cons]
      | cons y d =>
        have htail := ih (cons_ne_nil y d)
        simp only [join, cons_append, intercalate_cons_cons] at htail ⊢
        rw [htail]
        simp only [append_assoc]
  rw [absText, hjoin]
  rfl

theorem endsWith_slash_of_name {x : Text} (hn : n ≠ []) (hslash : '/' ∉ n) :
    endsWith "/" (x ++ n) = false := by
  refine Bool.eq_false_iff.mpr fun hend => ?_
  obtain ⟨y, hy⟩ := isSuffixOf_iff_suffix.mp hend
  have hlast := congrArg List.getLast? hy
  rw [getLast?_append_of_ne_nil _ hn] at hlast
  have hmem := mem_of_getLast? (hlast.symm.trans (getLast?_concat ..))
  exact hslash hmem

theorem absText_singleton (n : Text) : absText [n] = '/' :: n := by simp [absText, join]

theorem pushSegment_absText (h : ∀ x ∈ p ++ [s], IsName x) :
    (if endsWith "/" (absText p) then absText p else absText p ++ "/") ++ s =
      absText (p ++ [s]) := by
  by_cases hp : p = []
  · rw [hp, nil_append, absText_singleton]
    rfl
  · obtain ⟨d, n, rfl⟩ := eq_nil_or_concat' p |>.resolve_left hp
    have hn := h n (mem_append_left _ (mem_append_right _ (mem_singleton_self n)))
    have hend : endsWith "/" (absText (d ++ [n])) = false := by
      by_cases hd : d = []
      · rw [hd, nil_append, absText_singleton]
        exact endsWith_slash_of_name (x := ['/']) hn.ne_nil hn.slash
      · rw [absText_concat hd, append_cons]
        exact endsWith_slash_of_name hn.ne_nil hn.slash
    rw [hend, if_neg Bool.false_ne_true, absText_concat hp, append_assoc]
    rfl

theorem pushSegments_append (out : Text) (a b : List Text) :
    pushSegments out (a ++ b) = pushSegments (pushSegments out a) b := foldl_append

theorem pushSegments_absText (h : ∀ s ∈ p ++ R, IsName s) :
    pushSegments (absText p) R = absText (p ++ R) := by
  induction R generalizing p with
  | nil => rw [append_nil]; rfl
  | cons s R ih =>
    rw [append_cons] at h ⊢
    rw [← ih h, pushSegments, foldl_cons, pushSegment_absText fun x hx => h x ?_]
    · rfl
    · exact mem_append_left _ hx

/-- The place with more segments behind it. -/
def pushPhysical (R : List Text) : Physical → Physical
  | .path p => .path (pushSegments p R)
  | other => other

theorem resolvePhysical_broken (m : Platform) (hops : Nat) (h : ∀ s ∈ p ++ R, IsName s)
    (hp : t.tree.resolve [] (FileTree.names p) = none) :
    resolvePhysical m t.fileSystem hops (absText (p ++ R)) =
      pushPhysical R (resolvePhysical m t.fileSystem hops (absText p)) := by
  induction hops generalizing p with
  | zero => rfl
  | succ hops ih =>
    have hpnames : ∀ s ∈ p, IsName s := fun s hs => h s (mem_append_left _ hs)
    have happ : t.ancestor (p ++ R) [] = extendAncestor R (t.ancestor p []) := by
      rw [ancestor_append h hp, append_nil, ancestor, ancestor, ← deepestAncestor_append,
        nil_append]
    unfold resolvePhysical
    rw [splitPath_absText h, splitPath_absText hpnames]
    dsimp only
    change (match t.ancestor (p ++ R) [] with
      | .real real rest => _
      | .link p dir rest => _
      | .unresolved => _) = pushPhysical R (match t.ancestor p [] with
      | .real real rest => _
      | .link p dir rest => _
      | .unresolved => _)
    rw [happ]
    cases ha : t.ancestor p [] with
    | real real rest => exact congrArg Physical.path (pushSegments_append _ rest R)
    | unresolved => rfl
    | link l dir rest =>
      obtain ⟨d, n, mid, target, rfl, rfl, rfl, rfl, hlook, hnone⟩ :=
        ancestor_eq_link hpnames ha
      obtain ⟨q, hq, hentry⟩ := Tree.lookup_eq_some.mp hlook
      have hdn : ∀ s ∈ d ++ [n], IsName s := fun s hs => hpnames s (mem_append_left _ hs)
      rw [extendAncestor, append_nil]
      dsimp only
      rw [readLink_absText hdn hlook]
      cases hnext : linkTarget m t.fileSystem (absText d) target with
      | none => simp only [bind, Option.bind, hnext]; rfl
      | some next =>
        obtain ⟨X, hX, rfl, hXnone⟩ := linkTarget_broken hdn hq hentry hnone hnext
        have hmid : ∀ s ∈ X ++ mid ++ R, IsName s := by
          intro s hs
          rcases mem_append.mp hs with hs | hs
          · rcases mem_append.mp hs with hs | hs
            · exact hX s hs
            · exact hpnames s (mem_append_right _ hs)
          · exact h s (mem_append_right _ hs)
        simp only [bind, Option.bind, hnext]
        rw [pushSegments_append, pushSegments_absText fun s hs => hmid s
          (mem_append_left _ hs), pushSegments_absText hmid]
        refine ih hmid ?_
        rw [names_append, Tree.resolve_append, hXnone]
        rfl

/-! ## No link below the base -/

theorem linkAmong_cons {fs : FileSystem} (h : ∀ x ∈ p ++ [s], IsName x) :
    linkAmong fs (absText p) (s :: R) =
      match fs.isSymlink (absText (p ++ [s])) with
      | some true => true
      | some false => linkAmong fs (absText (p ++ [s])) R
      | none => false := by
  rw [linkAmong, pushSegment_absText h] <;> rfl

theorem ancestor_of_no_link (h : ∀ s ∈ p ++ R, IsName s)
    (hq : t.tree.resolve [] (FileTree.names p) = some q)
    (hlinks : linkAmong t.fileSystem (absText p) R = false) :
    ∃ q' rest, t.ancestor (p ++ R) [] = .real (absText q') rest ∧ q' ++ rest = q ++ R := by
  induction R generalizing p q with
  | nil =>
    rw [append_nil] at h ⊢
    exact ⟨q, [], ancestor_of_resolve h hq, rfl⟩
  | cons s R ih =>
    have hps : ∀ x ∈ p ++ [s], IsName x := by
      rw [append_cons] at h
      exact fun x hx => h x (mem_append_left _ hx)
    rw [linkAmong_cons hps, isSymlink_absText hps] at hlinks
    cases hlook : t.tree.lookup p s with
    | none =>
      refine ⟨q, s :: R, ?_, rfl⟩
      rw [append_cons] at h ⊢
      rw [ancestor_append h (resolve_of_lookup_none hlook), append_nil,
        ancestor_of_none hps hlook,
        ancestor_of_resolve (fun x hx => hps x (mem_append_left _ hx)) hq]
    | some e =>
      rw [hlook] at hlinks
      have hplain : ∀ target, e ≠ .link target := by
        rintro target rfl
        cases hlinks
      have hrest : linkAmong t.fileSystem (absText (p ++ [s])) R = false := by
        cases e with
        | dir | file => exact hlinks
        | link target => exact absurd rfl (hplain target)
      have hsome := resolve_of_lookup hlook hplain hq
      rw [append_cons] at h ⊢
      obtain ⟨q', rest, ha, heq⟩ := ih h hsome hrest
      exact ⟨q', rest, ha, heq.trans (append_cons q s R).symm⟩

theorem resolvePhysical_of_real {m : Platform} {hops : Nat} {real : Text} (h : ∀ s ∈ p, IsName s)
    (ha : t.ancestor p [] = .real real rest) :
    resolvePhysical m t.fileSystem (hops + 1) (absText p) =
      .path (pushSegments (cleanVerbatim real) rest) := by
  unfold resolvePhysical
  rw [splitPath_absText h]
  dsimp only
  change deepestAncestor t.fileSystem ['/'] p.reverse [] = _ at ha
  rw [ha]

theorem resolvePhysical_no_link (m : Platform) (hops : Nat) (h : ∀ s ∈ p ++ R, IsName s)
    (hlinks : linkAmong t.fileSystem (absText p) R = false) :
    resolvePhysical m t.fileSystem hops (absText (p ++ R)) =
      pushPhysical R (resolvePhysical m t.fileSystem hops (absText p)) := by
  cases hp : t.tree.resolve [] (FileTree.names p) with
  | none => exact resolvePhysical_broken m hops h hp
  | some q =>
    cases hops with
    | zero => rfl
    | succ hops =>
      have hpnames : ∀ s ∈ p, IsName s := fun s hs => h s (mem_append_left _ hs)
      have hqR : ∀ s ∈ q ++ R, IsName s := forall_mem_append.mpr
        ⟨names_of_resolve hp, fun s hs => h s (mem_append_right _ hs)⟩
      obtain ⟨q', rest, ha, heq⟩ := ancestor_of_no_link h hp hlinks
      rw [← heq] at hqR
      have hq' : ∀ s ∈ q', IsName s := fun s hs => hqR s (mem_append_left _ hs)
      rw [resolvePhysical_of_real h ha,
        resolvePhysical_of_real hpnames (ancestor_of_resolve hpnames hp), cleanVerbatim_absText hq',
        cleanVerbatim_absText (names_of_resolve hp), pushSegments_absText hqR, heq]
      rw [heq] at hqR
      exact congrArg Physical.path (pushSegments_absText hqR).symm

end UnixTree

end Synsema.Capscope
