import Synsema.Capscope.Path

/-!
# Normal forms of paths

What `normalize_path` leaves: an absolute path as its root and names, a relative one as some
`..` and names.  A relative path is made absolute by putting it behind the current directory, and
a scope that covers another still does when both are (`pathGlob_absolute`).
-/

namespace Synsema.Capscope

open Text List

/-! ## Names -/

/-- A segment of a normal path that is no `..`. -/
structure IsName (s : Text) : Prop where
  ne_nil : s ≠ []
  ne_dot : s ≠ "."
  ne_dotdot : s ≠ ".."
  slash : '/' ∉ s
  backslash : '\\' ∉ s

instance (s : Text) : Decidable (IsName s) :=
  decidable_of_iff (s ≠ [] ∧ s ≠ "." ∧ s ≠ ".." ∧ '/' ∉ s ∧ '\\' ∉ s)
    ⟨fun ⟨h₁, h₂, h₃, h₄, h₅⟩ => ⟨h₁, h₂, h₃, h₄, h₅⟩,
      fun ⟨h₁, h₂, h₃, h₄, h₅⟩ => ⟨h₁, h₂, h₃, h₄, h₅⟩⟩

/-- The text of an absolute path. -/
def absText (segs : List Text) : Text := '/' :: join "/" segs

/-- The text of a relative path. -/
def relText (segs : List Text) : Text :=
  if segs.isEmpty then "." else join "/" segs

variable {segs names c a : List Text} {s t seg w : Text} {rooted : Bool} {k : Nat} {m : Platform}

theorem split_join (h : ∀ s ∈ segs, '/' ∉ s) (hne : segs ≠ []) :
    split '/' (join "/" segs) = segs := splitOn_intercalate '/' h hne

variable {d : Char} {out : List Text} {q p : Text}

theorem mem_of_mem_split {c : Char} (ht : t ∈ split d s) (hc : c ∈ t) : c ∈ s := by
  have hs : join [d] (s.splitOn d) = s := intercalate_splitOn d
  rw [← hs, join]
  change t ∈ s.splitOn d at ht
  generalize s.splitOn d = parts at ht
  induction parts with
  | nil => cases ht
  | cons u parts ih =>
    cases parts with
    | nil => simpa [mem_singleton.mp ht] using hc
    | cons v parts =>
      rw [intercalate_cons_cons, mem_append, mem_append]
      rcases List.mem_cons.mp ht with rfl | ht
      · exact .inl (.inl hc)
      · exact .inr (ih ht)

theorem not_mem_of_mem_split (ht : t ∈ split d s) : d ∉ t := by
  induction s generalizing t with
  | nil =>
    rw [split, splitOn_nil, mem_singleton] at ht
    simp [ht]
  | cons x s ih =>
    rw [split, splitOn_cons_eq_if_modifyHead] at ht
    by_cases hx : x = d
    · rw [if_pos (beq_iff_eq.mpr hx)] at ht
      rcases List.mem_cons.mp ht with rfl | ht
      · exact not_mem_nil
      · exact ih ht
    · rw [if_neg (mt beq_iff_eq.mp hx)] at ht
      cases hs : s.splitOn d with
      | nil => exact absurd hs (splitOn_ne_nil d s)
      | cons u parts =>
        rw [hs, modifyHead_cons] at ht
        have hu {v : Text} (hv : v ∈ u :: parts) : d ∉ v := by
          rw [← hs] at hv
          exact ih hv
        rcases List.mem_cons.mp ht with rfl | ht
        · simpa [Ne.symm hx] using hu mem_cons_self
        · exact hu (mem_cons_of_mem u ht)

/-! ## The stack of segments -/

theorem isName_or (hslash : '/' ∉ seg) (hback : '\\' ∉ seg) :
    (seg = [] ∨ seg = ".") ∨ seg = ".." ∨ IsName seg := by
  by_cases hskip : seg = [] ∨ seg = "."
  · exact .inl hskip
  · obtain ⟨hnil, hdot⟩ := not_or.mp hskip
    by_cases hdots : seg = ".."
    · exact .inr (.inl hdots)
    · exact .inr (.inr ⟨hnil, hdot, hdots, hslash, hback⟩)

theorem pushSegment_skip (h : seg = [] ∨ seg = ".") (out : List Text) :
    pushSegment rooted out seg = out := by
  rcases h with rfl | rfl <;> rfl

theorem pushSegment_name (h : IsName s) (out : List Text) :
    pushSegment rooted out s = s :: out := by
  unfold pushSegment
  rw [beq_eq_false_iff_ne.mpr h.ne_nil, beq_eq_false_iff_ne.mpr h.ne_dot,
    beq_eq_false_iff_ne.mpr h.ne_dotdot]
  rfl

theorem pushSegment_dotdot_cons (h : IsName t) (below : List Text) :
    pushSegment rooted (t :: below) "..".toList = below := by
  have hbeq : ("..".toList == ([] : Text) || "..".toList == ".".toList) = false := by decide
  unfold pushSegment
  rw [hbeq, beq_self_eq_true, if_neg Bool.false_ne_true, if_pos rfl]
  exact if_pos h.ne_dotdot

theorem pushSegment_dotdot_relative (k : Nat) :
    pushSegment false (replicate k "..".toList) "..".toList =
      replicate (k + 1) "..".toList := by
  cases k with
  | zero | succ k => rfl

theorem foldl_pushSegment_names (h : ∀ s ∈ segs, IsName s) (out : List Text) :
    segs.foldl (pushSegment rooted) out = segs.reverse ++ out := by
  induction segs generalizing out with
  | nil => rfl
  | cons s segs ih =>
    rw [foldl_cons, pushSegment_name (h s mem_cons_self),
      ih fun t ht => h t (mem_cons_of_mem s ht)]
    simp

theorem foldl_pushSegment_rooted (h : ∀ s ∈ segs, '/' ∉ s ∧ '\\' ∉ s) (hout : ∀ s ∈ out, IsName s) :
    ∀ s ∈ segs.foldl (pushSegment true) out, IsName s := by
  induction segs generalizing out with
  | nil => exact hout
  | cons seg segs ih =>
    refine ih (fun s hs => h s (mem_cons_of_mem seg hs)) ?_
    obtain ⟨hslash, hback⟩ := h seg mem_cons_self
    rcases isName_or hslash hback with hskip | rfl | hname
    · rwa [pushSegment_skip hskip]
    · cases out with
      | nil =>
        intro s hs
        cases hs
      | cons t below =>
        rw [pushSegment_dotdot_cons (hout t mem_cons_self)]
        exact fun s hs => hout s (mem_cons_of_mem t hs)
    · rw [pushSegment_name hname]
      exact forall_mem_cons.mpr ⟨hname, hout⟩

theorem foldl_pushSegment_relative (h : ∀ s ∈ segs, '/' ∉ s ∧ '\\' ∉ s)
    (hnames : ∀ s ∈ names, IsName s) :
    ∃ names' k', (∀ s ∈ names', IsName s) ∧
      segs.foldl (pushSegment false) (names ++ replicate k "..".toList) =
        names' ++ replicate k' "..".toList := by
  induction segs generalizing names k with
  | nil => exact ⟨names, k, hnames, rfl⟩
  | cons seg segs ih =>
    have hrest : ∀ s ∈ segs, '/' ∉ s ∧ '\\' ∉ s := fun s hs => h s (mem_cons_of_mem seg hs)
    obtain ⟨hslash, hback⟩ := h seg mem_cons_self
    rw [foldl_cons]
    rcases isName_or hslash hback with hskip | rfl | hname
    · rw [pushSegment_skip hskip]
      exact ih hrest hnames
    · cases names with
      | nil =>
        rw [nil_append, pushSegment_dotdot_relative, ← nil_append (replicate _ _)]
        exact ih hrest hnames
      | cons t below =>
        rw [cons_append, pushSegment_dotdot_cons (hnames t mem_cons_self)]
        exact ih hrest fun s hs => hnames s (mem_cons_of_mem t hs)
    · rw [pushSegment_name hname, ← cons_append]
      exact ih hrest (forall_mem_cons.mpr ⟨hname, hnames⟩)

theorem foldl_pushSegment_dotdot (hout : ∀ s ∈ out, IsName s) (k : Nat) :
    (replicate k "..".toList).foldl (pushSegment true) out = out.drop k := by
  induction k generalizing out with
  | zero => rfl
  | succ k ih =>
    rw [replicate_succ, foldl_cons]
    cases out with
    | nil =>
      have hpush : pushSegment true [] "..".toList = [] := rfl
      rw [hpush, ih (by simp), drop_nil, drop_nil]
    | cons t below =>
      rw [pushSegment_dotdot_cons (hout t mem_cons_self),
        ih fun s hs => hout s (mem_cons_of_mem t hs), drop_succ_cons]

/-! ## Absolute paths -/

/-- The names that an absolute path goes through. -/
def normalSegs (segs : List Text) : List Text := (segs.foldl (pushSegment true) []).reverse

theorem mem_split_plain (h : seg ∈ split '/' (replaceChar '\\' '/' q)) :
    '/' ∉ seg ∧ '\\' ∉ seg := by
  refine ⟨not_mem_of_mem_split h, fun hback => ?_⟩
  have hmem := mem_of_mem_split h hback
  rw [replaceChar, mem_map] at hmem
  obtain ⟨c, -, hc⟩ := hmem
  split at hc
  · cases hc
  · exact ‹c ≠ '\\'› hc

theorem normalSegs_names :
    ∀ s ∈ normalSegs (split '/' (replaceChar '\\' '/' q)), IsName s := by
  intro s hs
  rw [normalSegs, mem_reverse] at hs
  exact foldl_pushSegment_rooted (fun _ => mem_split_plain) (by simp) s hs

theorem normalizePath_slash (m : Platform) (q : Text) :
    normalizePath m ('/' :: q) =
      absText (normalSegs (split '/' (replaceChar '\\' '/' q))) := by
  have hhome : expandHome m ('/' :: q) = '/' :: q := by
    have htilde : ('/' :: q == "~" || startsWith "~/" ('/' :: q) ||
        startsWith "~\\" ('/' :: q)) = false := by
      cases q <;> rfl
    simp only [expandHome, htilde, Bool.not_false, if_true]
  have hrepl : replaceChar '\\' '/' ('/' :: q) = '/' :: replaceChar '\\' '/' q := rfl
  simp only [normalizePath, hhome, hrepl, splitRoot, absText, normalSegs]
  rfl

theorem split_plain_join (h : ∀ s ∈ segs, IsName s) :
    (split '/' (join "/" segs)).foldl (pushSegment true) [] = segs.reverse := by
  cases segs with
  | nil => rfl
  | cons s segs =>
    rw [split_join (fun t ht => (h t ht).slash) (cons_ne_nil s segs),
      foldl_pushSegment_names h, append_nil]

theorem backslash_not_mem_join (h : ∀ s ∈ segs, '\\' ∉ s) : '\\' ∉ join "/" segs := by
  intro hm
  rcases mem_join hm with hm | ⟨s, hs, hm⟩
  · exact absurd hm (by decide)
  · exact h s hs hm

theorem replaceChar_of_not_mem {a b : Char} (h : a ∉ s) : replaceChar a b s = s := by
  refine (map_congr_left fun c hc => if_neg ?_).trans (map_id s)
  rintro rfl
  exact h hc

theorem normalizePath_absText (m : Platform) (h : ∀ s ∈ segs, IsName s) :
    normalizePath m (absText segs) = absText segs := by
  rw [absText, normalizePath_slash,
    replaceChar_of_not_mem (backslash_not_mem_join fun s hs => (h s hs).backslash), normalSegs,
    split_plain_join h, reverse_reverse, absText]

theorem isRooted_absText (segs : List Text) : isRooted (absText segs) = true := rfl

theorem filter_names (h : ∀ s ∈ segs, s ≠ [] ∧ s ≠ ".") :
    segs.filter (fun s => !s.isEmpty && decide (s ≠ ".".toList)) = segs := by
  refine filter_eq_self.mpr fun s hs => ?_
  obtain ⟨hnil, hdot⟩ := h s hs
  rw [isEmpty_eq_false_iff.mpr hnil, decide_eq_true hdot]
  rfl

theorem splitPath_absText (h : ∀ s ∈ segs, IsName s) :
    splitPath (absText segs) = (['/'], segs) := by
  have hroot : splitRoot (absText segs) = (['/'], join "/" segs) := rfl
  rw [splitPath, hroot]
  cases segs with
  | nil => rfl
  | cons s segs =>
    simp only [split_join (fun t ht => (h t ht).slash) (cons_ne_nil s segs)]
    rw [filter_names fun t ht => ⟨(h t ht).ne_nil, (h t ht).ne_dot⟩]

/-! ## Relative paths -/

theorem splitRoot_of_not_rooted (h : isRooted p = false) : splitRoot p = ([], p) := by
  unfold splitRoot
  split
  · cases h
  · rename_i c rest
    exact if_neg fun hc => by simp [isRooted, hc] at h
  · rfl

theorem isEmpty_join (h : ∀ s ∈ segs, s ≠ []) : (join "/" segs).isEmpty = segs.isEmpty := by
  cases segs with
  | nil => rfl
  | cons s segs =>
    have hs := h s mem_cons_self
    cases segs with
    | nil => simp [join, hs]
    | cons t segs => simp [join, intercalate_cons_cons]

theorem normalizePath_relative (h : isRooted (normalizePath m p) = false) :
    ∃ k names, (∀ s ∈ names, IsName s) ∧
      normalizePath m p = relText (replicate k "..".toList ++ names) := by
  have hroot : splitRoot (replaceChar '\\' '/' (expandHome m p)) =
      ([], replaceChar '\\' '/' (expandHome m p)) := by
    generalize hq : replaceChar '\\' '/' (expandHome m p) = q
    unfold splitRoot
    split
    · rename_i rest
      simp only [normalizePath, hq, splitRoot] at h
      cases h
    · rename_i c rest hslash
      split
      · rename_i hc
        simp only [normalizePath, hq, splitRoot, hc, if_true] at h
        simp [isRooted, hc] at h
      · rfl
    · rfl
  have hsegs : ∀ s ∈ split '/' (replaceChar '\\' '/' (expandHome m p)), '/' ∉ s ∧ '\\' ∉ s :=
    fun _ => mem_split_plain
  obtain ⟨names, k, hnames, hstack⟩ := foldl_pushSegment_relative hsegs (k := 0)
    (forall_mem_nil IsName)
  refine ⟨k, names.reverse, fun s hs => hnames s (mem_reverse.mp hs), ?_⟩
  rw [replicate_zero, append_nil] at hstack
  simp only [normalizePath, hroot, hstack, isEmpty_nil, Bool.not_true, Bool.false_eq_true, if_false,
    reverse_append, reverse_replicate, relText]
  rw [isEmpty_join]
  intro s hs
  rcases mem_append.mp hs with hs | hs
  · rw [eq_of_mem_replicate hs]
    exact cons_ne_nil _ _
  · exact (hnames s (mem_reverse.mp hs)).ne_nil

theorem dotdots_plain (hnames : ∀ s ∈ names, IsName s) :
    ∀ s ∈ replicate k "..".toList ++ names,
      '/' ∉ s ∧ '\\' ∉ s ∧ s ≠ [] ∧ s ≠ "." := by
  intro s hs
  rcases mem_append.mp hs with hs | hs
  · rw [eq_of_mem_replicate hs]
    decide
  · have hname := hnames s hs
    exact ⟨hname.slash, hname.backslash, hname.ne_nil, hname.ne_dot⟩

theorem backslash_not_mem_relText (h : ∀ s ∈ segs, '\\' ∉ s) : '\\' ∉ relText segs := by
  unfold relText
  split
  · decide
  · exact backslash_not_mem_join h

theorem normalizePath_behind (m : Platform) (w : Text) (hnames : ∀ s ∈ names, IsName s) :
    normalizePath m ('/' :: w ++ "/".toList ++ relText (replicate k "..".toList ++ names)) =
      absText (((normalSegs (split '/' (replaceChar '\\' '/' w))).reverse.drop k).reverse ++
        names) := by
  have hplain := dotdots_plain (k := k) hnames
  generalize hrel : relText (replicate k "..".toList ++ names) = rel
  have hback : '\\' ∉ rel := hrel ▸ backslash_not_mem_relText fun s hs => (hplain s hs).2.1
  have hsegs : (split '/' rel).foldl (pushSegment true)
      ((split '/' (replaceChar '\\' '/' w)).foldl (pushSegment true) []) =
      names.reverse ++ ((split '/' (replaceChar '\\' '/' w)).foldl (pushSegment true) []).drop k := by
    have hstack : ∀ s ∈ (split '/' (replaceChar '\\' '/' w)).foldl (pushSegment true) [], IsName s :=
      foldl_pushSegment_rooted (fun _ => mem_split_plain) (by simp)
    generalize (split '/' (replaceChar '\\' '/' w)).foldl (pushSegment true) [] = out at hstack
    rw [← hrel, relText]
    cases hnil : (replicate k "..".toList ++ names).isEmpty with
    | true =>
      simp only [List.isEmpty_iff, append_eq_nil_iff, replicate_eq_nil_iff] at hnil
      obtain ⟨rfl, rfl⟩ := hnil
      rfl
    | false =>
      rw [if_neg Bool.false_ne_true, split_join (fun s hs => (hplain s hs).1)
        (isEmpty_eq_false_iff.mp hnil), foldl_append, foldl_pushSegment_dotdot hstack,
        foldl_pushSegment_names hnames]
  have hsplit : split '/' (replaceChar '\\' '/' (w ++ '/' :: rel)) =
      split '/' (replaceChar '\\' '/' w) ++ split '/' rel := by
    have happ : replaceChar '\\' '/' (w ++ '/' :: rel) = replaceChar '\\' '/' w ++ '/' :: rel := by
      rw [replaceChar, map_append, map_cons, if_neg (by decide)]
      exact congrArg (fun t => _ ++ '/' :: t) (replaceChar_of_not_mem hback)
    rw [happ, split, splitOn_append_cons_self]
    rfl
  have htext : '/' :: w ++ "/" ++ rel = '/' :: (w ++ '/' :: rel) := by simp
  rw [htext, normalizePath_slash, hsplit, normalSegs, foldl_append, hsegs]
  simp [normalSegs]

/-! ## Covering -/

theorem segmentCovers_dotdot {rs : Text} : segmentCovers ".." rs ↔ rs = ".." := by
  have hwild : ¬ wild ".." := by decide
  rw [segmentCovers_iff]
  constructor
  · rintro ⟨⟨-, -⟩, h⟩
    split at h
    · rcases h with h | h
      · exact h.symm
      · exact absurd h (by decide)
    · exact h
  · rintro rfl
    exact ⟨⟨by decide, fun _ => rfl⟩, by rw [if_neg hwild, if_neg hwild]⟩

theorem segsMatch_dotdots :
    segsMatch (replicate k "..".toList ++ a) c ↔
      ∃ c', c = replicate k "..".toList ++ c' ∧ segsMatch a c' = true := by
  induction k generalizing c with
  | zero => simp
  | succ k ih =>
    rw [replicate_succ, cons_append, segsMatch_cons (by decide)]
    constructor
    · rintro ⟨rs, rest, rfl, hrs, hrest⟩
      obtain ⟨c', rfl, hc'⟩ := ih.mp hrest
      exact ⟨c', by rw [segmentCovers_dotdot.mp hrs]; rfl, hc'⟩
    · rintro ⟨c', rfl, hc'⟩
      exact ⟨_, _, rfl, segmentCovers_dotdot.mpr rfl, ih.mpr ⟨c', rfl, hc'⟩⟩

theorem dotdot_not_mem_of_segsMatch (h : segsMatch a c) (ha : ∀ s ∈ a, IsName s) :
    "..".toList ∉ c := by
  rw [← append_nil a] at h
  obtain ⟨x, y, rfl, hx, hy⟩ := segsMatch_append h fun s hs => (ha s hs).ne_dotdot
  have hnil : y = [] := by simpa [segsMatch] using hy
  rw [hnil, append_nil]
  exact fun hm => hx _ hm rfl

theorem segsMatch_append_self (u : List Text) (h : segsMatch a c) (hu : ∀ s ∈ u, IsName s) :
    segsMatch (u ++ a) (u ++ c) = true := by
  induction u with
  | nil => exact h
  | cons s u ih =>
    have hrest := ih fun t ht => hu t (mem_cons_of_mem s ht)
    have hs := (hu s mem_cons_self).ne_dotdot
    by_cases hstar : s = "**"
    · subst hstar
      rw [cons_append, segsMatch_star, doubleStar_iff]
      refine ⟨["**"], u ++ c, rfl, ?_, hrest⟩
      exact forall_mem_singleton.mpr hs
    · rw [cons_append, segsMatch_cons hstar]
      refine ⟨s, u ++ c, rfl, segmentCovers_iff.mpr ⟨⟨hstar, fun h => absurd h hs⟩, ?_⟩, hrest⟩
      split
      · exact .inl rfl
      · rfl

theorem dotdots_inj {j : Nat} {b : List Text} (ha : "..".toList ∉ a) (hb : "..".toList ∉ b)
    (h : replicate j "..".toList ++ a = replicate k "..".toList ++ b) :
    j = k ∧ a = b := by
  induction j generalizing k with
  | zero =>
    cases k with
    | zero => exact ⟨rfl, h⟩
    | succ k =>
      rw [replicate_zero, nil_append] at h
      exact absurd (by rw [h]; exact mem_cons_self) ha
  | succ j ih =>
    cases k with
    | zero =>
      rw [replicate_zero, nil_append] at h
      exact absurd (by rw [← h]; exact mem_cons_self) hb
    | succ k =>
      obtain ⟨rfl, hab⟩ := ih (cons.inj h).2
      exact ⟨rfl, hab⟩

theorem splitPath_relText (hnames : ∀ s ∈ names, IsName s)
    (h : isRooted (relText (replicate k "..".toList ++ names)) = false) :
    splitPath (relText (replicate k "..".toList ++ names)) =
      ([], replicate k "..".toList ++ names) := by
  have hplain := dotdots_plain (k := k) hnames
  rw [splitPath, splitRoot_of_not_rooted h]
  unfold relText
  cases hnil : (replicate k "..".toList ++ names).isEmpty with
  | true =>
    rw [List.isEmpty_iff.mp hnil]
    rfl
  | false =>
    simp only [Bool.false_eq_true, if_false]
    rw [split_join (fun s hs => (hplain s hs).1) (isEmpty_eq_false_iff.mp hnil),
      filter_names fun s hs => (hplain s hs).2.2]

theorem pathGlob_behind {a c : Text} (ha : isRooted (normalizePath m a) = false)
    (hc : isRooted (normalizePath m c) = false)
    (h : pathGlob (normalizePath m c) (normalizePath m a)) :
    pathGlob (normalizePath m ('/' :: w ++ "/" ++ normalizePath m c))
      (normalizePath m ('/' :: w ++ "/" ++ normalizePath m a)) = true := by
  obtain ⟨k, A, hA, hka⟩ := normalizePath_relative ha
  obtain ⟨j, C, hC, hjc⟩ := normalizePath_relative hc
  rw [hka] at ha
  rw [hjc] at hc
  rw [hka, hjc, pathGlob_iff, splitPath_relText hA ha, splitPath_relText hC hc] at h
  obtain ⟨C', hCC', hmatch⟩ := segsMatch_dotdots.mp h.2
  obtain ⟨rfl, rfl⟩ := dotdots_inj (fun hm => (hC _ hm).ne_dotdot rfl)
    (dotdot_not_mem_of_segsMatch hmatch hA) hCC'
  have hdir : ∀ s ∈ ((normalSegs (split '/' (replaceChar '\\' '/' w))).reverse.drop j).reverse,
      IsName s := by
    intro s hs
    exact normalSegs_names s (mem_reverse.mp (mem_of_mem_drop (mem_reverse.mp hs)))
  rw [hka, hjc, normalizePath_behind m w hA, normalizePath_behind m w hC, pathGlob_iff,
    splitPath_absText (forall_mem_append.mpr ⟨hdir, hA⟩),
    splitPath_absText (forall_mem_append.mpr ⟨hdir, hC⟩)]
  exact ⟨rfl, segsMatch_append_self _ hmatch hdir⟩

/-! ## Absolute scopes -/

/-- Is the normal form of the scope its own?  (One that begins with `~` after a `./` is not.) -/
def Settled (m : Platform) (s : Text) : Prop :=
  normalizePath m (normalizePath m s) = normalizePath m s

/-- Is the scope made absolute from the normal form in which it is compared?  (One with the
verbatim prefix of Windows is not, nor is a bare drive.) -/
structure Anchored (m : Platform) (s : Text) : Prop where
  settled : Settled m s
  verbatim : normalizePath m (cleanVerbatim s) = normalizePath m s
  drive : driveRoot (normalizePath m s) = normalizePath m s

instance (m : Platform) (s : Text) : Decidable (Settled m s) := inferInstanceAs (Decidable (_ = _))

/-- A normal path behind the current directory. -/
def behindCwd (m : Platform) (norm : Text) : Text :=
  match m.currentDir with
  | none => norm
  | some cwd =>
    if norm == "." then normalizePath m (cleanVerbatim cwd)
    else normalizePath m (cleanVerbatim cwd ++ "/" ++ norm)

theorem absoluteScope_def (m : Platform) (s : Text) :
    absoluteScope m s =
      if isRooted (normalizePath m (cleanVerbatim s)) then
        driveRoot (normalizePath m (cleanVerbatim s))
      else behindCwd m (normalizePath m (cleanVerbatim s)) := rfl

theorem cleanVerbatim_of_not_mem (h : '\\' ∉ s) : cleanVerbatim s = s := by
  have hstrip : ∀ pre, stripPrefix ('\\' :: pre) s = none := by
    intro pre
    rw [Option.eq_none_iff_forall_ne_some]
    rintro r hr
    rw [stripPrefix_eq_some.mp hr] at h
    exact h mem_cons_self
  have hunc := hstrip "\\?\\UNC\\"
  have hlocal := hstrip "\\?\\"
  simp only [cleanVerbatim]
  rw [show "\\\\?\\UNC\\".toList = '\\' :: "\\?\\UNC\\" from rfl, hunc,
    show "\\\\?\\".toList = '\\' :: "\\?\\" from rfl, hlocal]
  exact replaceChar_of_not_mem h

theorem absoluteScope_relative (hs : Settled m s) (h : isRooted (normalizePath m s) = false) :
    absoluteScope m (normalizePath m s) = behindCwd m (normalizePath m s) := by
  have hback : '\\' ∉ normalizePath m s := by
    obtain ⟨k, names, hnames, heq⟩ := normalizePath_relative h
    rw [heq]
    exact backslash_not_mem_relText fun t ht => (dotdots_plain hnames t ht).2.1
  rw [absoluteScope_def, cleanVerbatim_of_not_mem hback, hs, h]
  rfl

theorem Anchored.absoluteScope_eq (h : Anchored m s) :
    absoluteScope m s =
      if isRooted (normalizePath m s) then normalizePath m s else behindCwd m (normalizePath m s) := by
  rw [absoluteScope_def, h.verbatim, h.drive]

theorem behindCwd_slash (hcwd : m.currentDir = some ('/' :: w)) :
    behindCwd m (normalizePath m s) =
      normalizePath m ('/' :: replaceChar '\\' '/' w ++ "/" ++ normalizePath m s) := by
  have hclean : cleanVerbatim ('/' :: w) = '/' :: replaceChar '\\' '/' w := rfl
  rw [behindCwd, hcwd]
  simp only [hclean]
  split
  · rename_i hdot
    have hbehind := normalizePath_behind m (replaceChar '\\' '/' w) (k := 0)
      (forall_mem_nil IsName)
    rw [replicate_zero, drop_zero, reverse_reverse, append_nil, append_nil,
      ← normalizePath_slash] at hbehind
    rw [beq_iff_eq.mp hdot]
    exact hbehind.symm
  · rfl

theorem normalizePath_behindCwd (hcwd : m.currentDir = some ('/' :: w))
    (h : isRooted (normalizePath m s) = false) :
    isRooted (normalizePath m (behindCwd m (normalizePath m s))) ∧
      normalizePath m (behindCwd m (normalizePath m s)) = behindCwd m (normalizePath m s) := by
  obtain ⟨k, names, hnames, heq⟩ := normalizePath_relative h
  have hdir : ∀ t ∈ ((normalSegs (split '/' (replaceChar '\\' '/'
      (replaceChar '\\' '/' w)))).reverse.drop k).reverse, IsName t := by
    intro t ht
    exact normalSegs_names t (mem_reverse.mp (mem_of_mem_drop (mem_reverse.mp ht)))
  rw [behindCwd_slash hcwd, heq, normalizePath_behind m _ hnames,
    normalizePath_absText m (forall_mem_append.mpr ⟨hdir, hnames⟩)]
  exact ⟨rfl, rfl⟩

theorem sameForm_rooted (ht : isRooted (normalizePath m t)) (s : Text) :
    sameForm m s t =
      (if isRooted (normalizePath m s) then normalizePath m s
        else absoluteScope m (normalizePath m s), normalizePath m t) := by
  simp only [sameForm, ht]
  cases isRooted (normalizePath m s) <;> rfl

theorem Anchored.form_absoluteScope (hs : Anchored m s)
    (hcwd : ∀ cwd, m.currentDir = some cwd → startsWith "/" cwd) :
    (if isRooted (normalizePath m (absoluteScope m s)) then normalizePath m (absoluteScope m s)
      else absoluteScope m (normalizePath m (absoluteScope m s))) = absoluteScope m s := by
  have hnorm : normalizePath m (normalizePath m s) = normalizePath m s := hs.settled
  rw [hs.absoluteScope_eq]
  cases hroot : isRooted (normalizePath m s) with
  | true =>
    rw [if_pos rfl, hnorm, hroot]
    rfl
  | false =>
    rw [if_neg Bool.false_ne_true]
    cases hdir : m.currentDir with
    | none =>
      have hbehind : behindCwd m (normalizePath m s) = normalizePath m s := by
        rw [behindCwd, hdir]
      rw [hbehind, hnorm, hroot, if_neg Bool.false_ne_true, absoluteScope_relative hs.settled hroot,
        hbehind]
    | some cwd =>
      obtain ⟨w, rfl⟩ : ∃ w, cwd = '/' :: w := by
        obtain ⟨w, hw⟩ := isPrefixOf_iff_prefix.mp (hcwd cwd hdir)
        exact ⟨w, hw.symm⟩
      obtain ⟨habs, hself⟩ := normalizePath_behindCwd hdir hroot
      rw [habs, if_pos rfl, hself]

theorem pathNarrows_absoluteScope {g : Text}
    (hcwd : ∀ cwd, m.currentDir = some cwd → startsWith "/" cwd) (hg : Settled m g)
    (hs : Anchored m s) (ht : isRooted (normalizePath m t)) (h : pathCovers m g s) :
    PathNarrows m g (absoluteScope m s) t := by
  rw [PathNarrows, sameForm_rooted ht, sameForm_rooted ht, hs.form_absoluteScope hcwd]
  refine ⟨rfl, ?_⟩
  rw [pathCovers_iff] at h
  cases hroot : isRooted (normalizePath m s) with
  | true =>
    rw [sameForm_rooted hroot] at h
    rw [hs.absoluteScope_eq, hroot]
    exact h
  | false =>
    have hanchor := absoluteScope_relative hs.settled hroot
    rw [hs.absoluteScope_eq, hroot, if_neg Bool.false_ne_true]
    cases hgroot : isRooted (normalizePath m g) with
    | true =>
      simp only [sameForm, hroot, hgroot, hanchor] at h
      exact h
    | false =>
      -- both are relative: the directory goes before both
      rw [sameForm_of_rooted_eq (hgroot.trans hroot.symm)] at h
      rw [if_neg Bool.false_ne_true, absoluteScope_relative hg hgroot]
      cases hdir : m.currentDir with
      | none =>
        have hbehind : ∀ x, behindCwd m x = x := by
          intro x
          rw [behindCwd, hdir]
        rwa [hbehind, hbehind]
      | some cwd =>
        obtain ⟨w, rfl⟩ : ∃ w, cwd = '/' :: w := by
          obtain ⟨w, hw⟩ := isPrefixOf_iff_prefix.mp (hcwd cwd hdir)
          exact ⟨w, hw.symm⟩
        rw [behindCwd_slash hdir, behindCwd_slash hdir]
        rcases h with h | h
        · exact .inl (congrArg (fun n =>
            normalizePath m ('/' :: replaceChar '\\' '/' w ++ "/" ++ n)) h)
        · exact .inr (pathGlob_behind hgroot hroot h)

end Synsema.Capscope
