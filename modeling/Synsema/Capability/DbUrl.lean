import Synsema.Capability.Model
import Synsema.Lowercase

/-!
# The URLs of databases

`canon_url` writes the URL of a database as `scheme://host/dbname`.  It takes what stands before the
last colon of the host and the port for the host, also where that colon stands within brackets: the
address `[2001:db8::1]` without a port loses its last group.

So a grant that is such a URL fixes the server exactly when what stands before the last colon closes
the bracket that it opens, and the canonical form is its own exactly when no colon is left in it
(`dbGrant_iff`).
-/

namespace Synsema.Capability

open Text Capscope List

/-! ## What a URL names -/

/-- The scheme, the host with the port, and the name of the database, without what stands before the
last `@` of the authority, the query and the fragment. -/
structure DbAddress where
  scheme : Text
  hostPort : Text
  db : Text

namespace DbAddress

/-- The address of a scheme and what stands behind `://`. -/
def ofRest (scheme rest : Text) : DbAddress :=
  let rest := before (fun c => c == '?' || c == '#') rest
  let (authority, path) := (splitOnce '/' rest).getD (rest, [])
  { scheme
    hostPort := (rsplitOnce '@' authority).elim authority Prod.snd
    db := before (· == '/') path }

/-- What stands before the last colon. -/
def beforePort (a : DbAddress) : Text := (rsplitOnce ':' a.hostPort).elim a.hostPort Prod.fst

/-- The host: an address in brackets with these, or else what stands before the port. -/
def host (a : DbAddress) : Text :=
  match stripPrefix "[" a.hostPort with
  | some inner =>
    match splitOnce ']' inner with
    | some (x, _) => '[' :: (x ++ [']'])
    | none => a.beforePort
  | none => a.beforePort

/-- Does the address open a bracket that is not closed before the last colon? -/
def OpenBracket (a : DbAddress) : Prop := a.hostPort.head? = some '[' ∧ ']' ∉ a.beforePort

end DbAddress

/-- The host and the name of the database behind `://`. -/
def hostAndDb (h d : Text) : Text := if d.isEmpty then h else h ++ '/' :: d

/-- The address a URL names, if it has a scheme. -/
def dbAddress (url : Text) : Option DbAddress :=
  (splitOnceStr "://" (trimStart url)).map fun p => DbAddress.ofRest p.1 p.2

/-- The same scheme, host and database, but for letters large and small. -/
structure SameServer (m : Platform) (a b : DbAddress) : Prop where
  scheme : m.toLowercase a.scheme = m.toLowercase b.scheme
  host : m.toLowercase a.host = m.toLowercase b.host
  db : m.toLowercase a.db = m.toLowercase b.db

section Parts

variable {m : Platform} {url s r : Text}

theorem canonUrl_of_some (h : splitOnceStr "://" (trimStart url) = some (s, r)) :
    canonUrl m url = m.toLowercase s ++ ("://" ++
      hostAndDb (m.toLowercase (DbAddress.ofRest s r).beforePort)
        (m.toLowercase (DbAddress.ofRest s r).db)) := by
  rw [canonUrl, h]
  dsimp only [hostAndDb, DbAddress.ofRest, DbAddress.beforePort]
  split_ifs
  · simp only [append_assoc]
  · simp only [append_assoc]
    rfl

theorem canonUrl_of_none (h : splitOnceStr "://" (trimStart url) = none) :
    canonUrl m url = m.toLowercase (trimStart url) := by
  rw [canonUrl, h]

end Parts

/-! ## Parts of a URL -/

variable {p : Char → Bool} {c : Char}

theorem not_mem_before {s : Text} (h : p c) : c ∉ before p s := by
  intro hc
  have := mem_takeWhile_imp hc
  rw [h] at this
  cases this

theorem mem_of_mem_before {s : Text} (h : c ∈ before p s) : c ∈ s :=
  (List.takeWhile_prefix _).subset h

theorem before_eq_self {s : Text} (h : ∀ c ∈ s, p c = false) : before p s = s := by
  rw [before, takeWhile_eq_self_iff]
  intro c hc
  rw [h c hc]
  rfl

theorem splitOnce_getD (t : Text) :
    '/' ∉ ((splitOnce '/' t).getD (t, [])).1 ∧ ((splitOnce '/' t).getD (t, [])).1 ⊆ t ∧
      ((splitOnce '/' t).getD (t, [])).2 ⊆ t := by
  cases h : splitOnce '/' t with
  | none => exact ⟨splitOnce_eq_none_iff.mp h, List.Subset.refl t, nil_subset t⟩
  | some p =>
    have heq := splitOnce_eq_some h
    refine ⟨splitOnce_notMem h, ?_, ?_⟩
    · rw [heq]
      exact subset_append_left _ _
    · rw [heq]
      exact fun c hc => mem_append_right _ (mem_cons_of_mem _ hc)

theorem rsplitOnce_elim_snd (c : Char) (t : Text) :
    c ∉ (rsplitOnce c t).elim t Prod.snd ∧ (rsplitOnce c t).elim t Prod.snd ⊆ t := by
  cases h : rsplitOnce c t with
  | none => exact ⟨rsplitOnce_eq_none_iff.mp h, List.Subset.refl t⟩
  | some p =>
    obtain ⟨heq, hnot⟩ := rsplitOnce_eq_some h
    refine ⟨hnot, ?_⟩
    change p.2 ⊆ t
    rw [heq]
    exact fun c hc => mem_append_right _ (mem_cons_of_mem _ hc)

namespace DbAddress

theorem notMem_hostPort (s r : Text) (hc : c ∈ ['/', '?', '#', '@']) :
    c ∉ (ofRest s r).hostPort := by
  obtain ⟨hslash, hsub, -⟩ := splitOnce_getD (before (fun c => c == '?' || c == '#') r)
  obtain ⟨hat, hsub'⟩ := rsplitOnce_elim_snd '@'
    ((splitOnce '/' (before (fun c => c == '?' || c == '#') r)).getD
      (before (fun c => c == '?' || c == '#') r, [])).1
  intro hmem
  have hbefore := hsub (hsub' hmem)
  simp only [List.mem_cons, not_mem_nil, or_false] at hc
  rcases hc with rfl | rfl | rfl | rfl
  · exact hslash (hsub' hmem)
  · exact not_mem_before rfl hbefore
  · exact not_mem_before rfl hbefore
  · exact hat hmem

theorem notMem_db (s r : Text) (hc : c ∈ ['/', '?', '#']) : c ∉ (ofRest s r).db := by
  obtain ⟨-, -, hsub⟩ := splitOnce_getD (before (fun c => c == '?' || c == '#') r)
  intro hmem
  have hpath := mem_of_mem_before hmem
  simp only [List.mem_cons, not_mem_nil, or_false] at hc
  rcases hc with rfl | rfl | rfl
  · exact not_mem_before rfl hmem
  · exact not_mem_before rfl (hsub hpath)
  · exact not_mem_before rfl (hsub hpath)

theorem ofRest_hostAndDb (s : Text) {h d : Text} (hh : ∀ c ∈ ['/', '?', '#', '@'], c ∉ h)
    (hd : ∀ c ∈ ['/', '?', '#'], c ∉ d) : ofRest s (hostAndDb h d) = ⟨s, h, d⟩ := by
  have hquery : before (fun c => c == '?' || c == '#') (hostAndDb h d) = hostAndDb h d := by
    apply before_eq_self
    intro c hc
    rw [Bool.or_eq_false_iff, beq_eq_false_iff_ne, beq_eq_false_iff_ne]
    rw [hostAndDb] at hc
    constructor
    · rintro rfl
      split_ifs at hc
      · exact hh '?' (by decide) hc
      · simp [hh, hd] at hc
    · rintro rfl
      split_ifs at hc
      · exact hh '#' (by decide) hc
      · simp [hh, hd] at hc
  have hsplit : (splitOnce '/' (hostAndDb h d)).getD (hostAndDb h d, []) = (h, d) := by
    rw [hostAndDb]
    split_ifs with hempty
    · rw [splitOnce_eq_none_iff.mpr (hh '/' (by decide)), List.isEmpty_iff.mp hempty]
      rfl
    · rw [splitOnce_append (hh '/' (by decide))]
      rfl
  have hat : rsplitOnce '@' h = none := rsplitOnce_eq_none_iff.mpr (hh '@' (by decide))
  have hslash : before (· == '/') d = d := before_eq_self fun c hc => by
    rw [beq_eq_false_iff_ne]
    rintro rfl
    exact hd '/' (by decide) hc
  rw [ofRest]
  simp only [hquery, hsplit, hat, hslash]
  rfl

theorem beforePort_subset (a : DbAddress) : a.beforePort ⊆ a.hostPort := by
  rw [beforePort]
  cases h : rsplitOnce ':' a.hostPort with
  | none => exact List.Subset.refl _
  | some p =>
    change p.1 ⊆ _
    rw [(rsplitOnce_eq_some h).1]
    exact subset_append_left _ _

end DbAddress

/-! ## The canonical form -/

variable {h : Text}

theorem hostAndDb_left_inj {h' d : Text} : hostAndDb h d = hostAndDb h' d ↔ h = h' := by
  rw [hostAndDb, hostAndDb]
  split_ifs
  · rfl
  · exact append_left_inj _

theorem trimStart_prefix {s t : Text} (h : trimStart (s ++ t) = s ++ t) : trimStart s = s := by
  cases s with
  | nil => rfl
  | cons c s =>
    rw [trimStart, dropWhile_cons_of_neg]
    intro hc
    rw [cons_append, trimStart, dropWhile_cons_of_pos hc] at h
    have hlen := congrArg List.length h
    have hle := (dropWhile_suffix (p := isWhitespace) (l := s ++ t)).length_le
    rw [length_cons] at hlen
    omega

theorem trimStart_trimStart (s : Text) : trimStart (trimStart s) = trimStart s :=
  dropWhile_idempotent isWhitespace s

theorem trimStart_scheme {url s r : Text} (h : splitOnceStr "://" (trimStart url) = some (s, r)) :
    trimStart s = s := by
  apply trimStart_prefix (t := "://" ++ r)
  rw [← eq_of_splitOnceStr h]
  exact trimStart_trimStart url

section Canonical

variable {m : Platform} (hlower : Lowercases m.toLowercase) {url s r : Text}

include hlower

theorem splitOnceStr_canonUrl (h : splitOnceStr "://" (trimStart url) = some (s, r)) :
    splitOnceStr "://" (trimStart (canonUrl m url)) = some (m.toLowercase s,
      hostAndDb (m.toLowercase (DbAddress.ofRest s r).beforePort)
        (m.toLowercase (DbAddress.ofRest s r).db)) := by
  rw [canonUrl_of_some h, hlower.trimStart_eq (trimStart_scheme h) _ rfl]
  exact hlower.splitOnceStr_eq (by decide) (by decide) h _

theorem ofRest_canonUrl (s r t : Text) :
    DbAddress.ofRest t (hostAndDb (m.toLowercase (DbAddress.ofRest s r).beforePort)
      (m.toLowercase (DbAddress.ofRest s r).db)) =
      ⟨t, m.toLowercase (DbAddress.ofRest s r).beforePort,
        m.toLowercase (DbAddress.ofRest s r).db⟩ := by
  have hcase : ∀ c ∈ ['/', '?', '#', '@'], isCaseless c := by decide
  apply DbAddress.ofRest_hostAndDb
  · intro c hc hmem
    rw [hlower.mem_iff (hcase c hc)] at hmem
    exact DbAddress.notMem_hostPort s r hc (DbAddress.beforePort_subset _ hmem)
  · intro c hc hmem
    have hmem' : c ∈ ['/', '?', '#', '@'] := mem_append_left ['@'] hc
    rw [hlower.mem_iff (hcase c hmem')] at hmem
    exact DbAddress.notMem_db s r hc hmem

theorem hostAndDb_canonUrl_inj {s' r' : Text}
    (h : hostAndDb (m.toLowercase (DbAddress.ofRest s r).beforePort)
        (m.toLowercase (DbAddress.ofRest s r).db) =
      hostAndDb (m.toLowercase (DbAddress.ofRest s' r').beforePort)
        (m.toLowercase (DbAddress.ofRest s' r').db)) :
    m.toLowercase (DbAddress.ofRest s r).beforePort =
        m.toLowercase (DbAddress.ofRest s' r').beforePort ∧
      m.toLowercase (DbAddress.ofRest s r).db = m.toLowercase (DbAddress.ofRest s' r').db := by
  have heq := ofRest_canonUrl hlower s r []
  rw [h, ofRest_canonUrl hlower s' r' [], DbAddress.mk.injEq] at heq
  exact ⟨heq.2.1.symm, heq.2.2.symm⟩

theorem canonUrl_canonUrl_iff (url : Text) :
    canonUrl m (canonUrl m url) = canonUrl m url ↔
      ∀ a, dbAddress url = some a → ':' ∉ a.beforePort := by
  rw [dbAddress]
  cases h : splitOnceStr "://" (trimStart url) with
  | none =>
    refine iff_of_true ?_ fun a ha => by cases ha
    have htrim := hlower.trimStart_eq (trimStart_trimStart url) [] rfl
    rw [append_nil] at htrim
    have hnone := hlower.splitOnceStr_eq_none (by decide) (by decide) h
    rw [canonUrl_of_none h, canonUrl_of_none (by rw [htrim, hnone]), htrim, hlower.idem]
  | some p =>
    obtain ⟨s, r⟩ := p
    have hcanon := splitOnceStr_canonUrl hlower h
    have hcolon : isCaseless ':' := by decide
    simp only [Option.map_some, Option.some.injEq, forall_eq']
    rw [canonUrl_of_some hcanon, canonUrl_of_some h, hlower.idem, ofRest_canonUrl hlower,
      append_right_inj, append_right_inj, hlower.idem, hostAndDb_left_inj, ← hlower.mem_iff hcolon]
    generalize hhost : m.toLowercase (DbAddress.ofRest s r).beforePort = host
    have hidem : m.toLowercase host = host := by rw [← hhost, hlower.idem]
    rw [DbAddress.beforePort]
    dsimp only
    cases hsplit : rsplitOnce ':' host with
    | none => exact iff_of_true hidem (rsplitOnce_eq_none_iff.mp hsplit)
    | some q =>
      -- the second pass takes one more colon
      obtain ⟨heq, -⟩ := rsplitOnce_eq_some hsplit
      refine iff_of_false (fun hq => ?_) (not_not_intro (by rw [heq]; simp))
      have hcount := hlower.count_eq hcolon q.1
      change m.toLowercase q.1 = host at hq
      rw [hq, heq, count_append, count_cons_self] at hcount
      omega

end Canonical

/-! ## Hosts -/

namespace DbAddress

variable {a b : DbAddress}

theorem head?_beforePort (hc : c ≠ ':') (a : DbAddress) :
    a.beforePort.head? = some c ↔ a.hostPort.head? = some c := by
  rw [beforePort]
  cases h : rsplitOnce ':' a.hostPort with
  | none => rfl
  | some p =>
    obtain ⟨l, t⟩ := p
    rw [(rsplitOnce_eq_some h).1]
    cases l with
    | nil => simp [hc.symm]
    | cons d l => rfl

theorem host_of_head? (h : a.hostPort.head? ≠ some '[') : a.host = a.beforePort := by
  rw [host]
  cases hpre : stripPrefix "[" a.hostPort with
  | none => rfl
  | some inner =>
    rw [stripPrefix_eq_some.mp hpre] at h
    exact absurd rfl h

theorem host_of_closed {x y : Text} (hx : ']' ∉ x) (h : a.beforePort = '[' :: (x ++ ']' :: y)) :
    a.host = '[' :: (x ++ [']']) := by
  obtain ⟨t, ht⟩ : ∃ t, a.hostPort = '[' :: (x ++ ']' :: t) := by
    rw [beforePort] at h
    cases hsplit : rsplitOnce ':' a.hostPort with
    | none =>
      rw [hsplit] at h
      exact ⟨y, h⟩
    | some p =>
      rw [hsplit] at h
      change p.1 = _ at h
      rw [(rsplitOnce_eq_some hsplit).1, h]
      exact ⟨y ++ ':' :: p.2, by simp⟩
  have hpre : stripPrefix "[" a.hostPort = some (x ++ ']' :: t) :=
    stripPrefix_eq_some.mpr ht
  rw [host, hpre]
  dsimp only
  rw [splitOnce_append hx]

theorem exists_closed (hopen : a.beforePort.head? = some '[') (hclose : ']' ∈ a.beforePort) :
    ∃ x y, ']' ∉ x ∧ a.beforePort = '[' :: (x ++ ']' :: y) := by
  obtain ⟨t, ht⟩ := head?_eq_some_iff.mp hopen
  rw [ht, List.mem_cons, or_iff_right (by decide)] at hclose
  cases h : splitOnce ']' t with
  | none => exact absurd hclose (splitOnce_eq_none_iff.mp h)
  | some p => exact ⟨p.1, p.2, splitOnce_notMem h, by rw [ht, splitOnce_eq_some h]⟩

theorem host_eq_of_beforePort {lower : Text → Text} (hlower : Lowercases lower)
    (h : lower a.beforePort = lower b.beforePort) (hopen : ¬a.OpenBracket) :
    lower a.host = lower b.host := by
  have hcase : isCaseless '[' = true := by decide
  have hclosed : isCaseless ']' = true := by decide
  have hhead : a.beforePort.head? = some '[' ↔ b.beforePort.head? = some '[' := by
    rw [← hlower.head?_eq_iff hcase, h, hlower.head?_eq_iff hcase]
  by_cases ha : a.beforePort.head? = some '['
  · have hmem : ']' ∈ a.beforePort := by
      by_contra hmem
      exact hopen ⟨(head?_beforePort (by decide) a).mp ha, hmem⟩
    have hmem' : ']' ∈ b.beforePort := by
      rwa [← hlower.mem_iff hclosed, ← h, hlower.mem_iff hclosed]
    obtain ⟨x, y, hx, hxy⟩ := exists_closed ha hmem
    obtain ⟨x', y', hx', hxy'⟩ := exists_closed (hhead.mp ha) hmem'
    have hnot {x : Text} (hx : ']' ∉ x) : ']' ∉ lower ('[' :: x) := by
      rw [hlower.mem_iff hclosed, List.mem_cons, or_iff_right (by decide)]
      exact hx
    have hbracket : lower ('[' :: x) = lower ('[' :: x') := by
      rw [hxy, hxy', ← cons_append, ← cons_append, hlower.bracket, hlower.bracket] at h
      have hsplit := splitOnce_append (hnot hx) (lower y)
      rw [h, splitOnce_append (hnot hx')] at hsplit
      exact (Prod.mk.inj (Option.some.inj hsplit)).1.symm
    rw [host_of_closed hx hxy, host_of_closed hx' hxy', ← cons_append, ← cons_append,
      hlower.bracket, hlower.bracket, hbracket]
  · rw [host_of_head? (mt (head?_beforePort (by decide) a).mpr ha),
      host_of_head? (mt (head?_beforePort (by decide) b).mpr (mt hhead.mpr ha)), h]

end DbAddress

/-! ## The scopes of databases -/

/-- The schemes of `is_db_url`. -/
def dbSchemes : List Text :=
  ["postgres", "postgresql", "mysql", "mongodb", "mongodb+srv",
    "redis", "rediss"]

theorem isDbUrl_iff {url : Text} : isDbUrl url ↔
    ∃ s r, splitOnceStr "://" (trimStart url) = some (s, r) ∧
      toAsciiLowercase s ∈ dbSchemes := by
  have hschemes : isDbUrl url = (dbSchemes.map (· ++ "://".toList)).any
      fun p => startsWith p (toAsciiLowercase (trimStart url)) := rfl
  rw [hschemes, any_map, any_eq_true]
  simp only [Function.comp_apply, startsWith, isPrefixOf_iff_prefix]
  constructor
  · rintro ⟨q, hq, u, hu⟩
    obtain ⟨t, u', ht, hmap, -⟩ := map_eq_append_iff.mp hu.symm
    obtain ⟨s, x, rfl, rfl, hx⟩ := map_eq_append_iff.mp hmap
    obtain rfl : x = "://" := by
      have hcaseless : ∀ c ∈ "://".toList, isCaseless c := by decide
      apply ext_getElem (by simpa using congrArg List.length hx)
      intro i hi hi'
      have hget := getElem_of_eq hx (by simpa using hi)
      rw [getElem_map] at hget
      exact (toLower_eq_iff (hcaseless _ (getElem_mem hi'))).mp hget
    have hcolon : ':' ∉ s := by
      have hnot : ∀ q ∈ dbSchemes, ':' ∉ q := by decide
      exact fun hs => hnot _ hq (mem_map.mpr ⟨':', hs, by decide⟩)
    refine ⟨s, u', ?_, hq⟩
    rw [ht, append_assoc]
    exact splitOnceStr_append hcolon "//" u'
  · rintro ⟨s, r, h, hs⟩
    refine ⟨_, hs, toAsciiLowercase r, ?_⟩
    rw [eq_of_splitOnceStr h, toAsciiLowercase, toAsciiLowercase, toAsciiLowercase, map_append,
      map_append, ← append_assoc]
    rfl

theorem fnmatch_iff_eq {name pattern : Text} (hstar : '*' ∉ pattern) (hone : '?' ∉ pattern) :
    fnmatch name pattern ↔ name = pattern := by
  unfold fnmatch
  induction pattern generalizing name with
  | nil => simp [glob]
  | cons c pattern ih =>
    rw [List.mem_cons, not_or] at hstar hone
    cases name with
    | nil => simp [glob, Ne.symm hstar.1, Ne.symm hone.1]
    | cons x name => simp [glob, ih hstar.2 hone.2, Ne.symm hstar.1, Ne.symm hone.1]

theorem DbAddress.hostPort_subset (s r : Text) : (ofRest s r).hostPort ⊆ r := by
  obtain ⟨-, hsub, -⟩ := splitOnce_getD (before (fun c => c == '?' || c == '#') r)
  obtain ⟨-, hsub'⟩ := rsplitOnce_elim_snd '@'
    ((splitOnce '/' (before (fun c => c == '?' || c == '#') r)).getD
      (before (fun c => c == '?' || c == '#') r, [])).1
  exact fun c hc => mem_of_mem_before (hsub (hsub' hc))

theorem DbAddress.db_subset (s r : Text) : (ofRest s r).db ⊆ r := by
  obtain ⟨-, -, hsub⟩ := splitOnce_getD (before (fun c => c == '?' || c == '#') r)
  exact fun c hc => mem_of_mem_before (hsub (mem_of_mem_before hc))

theorem mem_of_mem_hostAndDb {d : Text} (hc : c ∈ hostAndDb h d) : c ∈ h ∨ c = '/' ∨ c ∈ d := by
  rw [hostAndDb] at hc
  split_ifs at hc
  · exact .inl hc
  · rwa [mem_append, List.mem_cons] at hc

theorem mem_of_mem_canonUrl {m : Platform} (hlower : Lowercases m.toLowercase) {url : Text}
    (hcase : isCaseless c) (hsep : c ∉ "://".toList) (hc : c ∈ canonUrl m url) : c ∈ url := by
  have htrim : trimStart url ⊆ url := (dropWhile_suffix _).subset
  cases h : splitOnceStr "://" (trimStart url) with
  | none =>
    rw [canonUrl_of_none h, hlower.mem_iff hcase] at hc
    exact htrim hc
  | some p =>
    obtain ⟨s, r⟩ := p
    apply htrim
    rw [eq_of_splitOnceStr h]
    rw [canonUrl_of_some h, mem_append, mem_append, hlower.mem_iff hcase] at hc
    rcases hc with hc | hc | hc
    · exact mem_append_left _ hc
    · exact absurd hc hsep
    · refine mem_append_right _ (mem_append_right _ ?_)
      rcases mem_of_mem_hostAndDb hc with hc | rfl | hc
      · rw [hlower.mem_iff hcase] at hc
        exact DbAddress.hostPort_subset s r (DbAddress.beforePort_subset _ hc)
      · exact absurd (by decide) hsep
      · rw [hlower.mem_iff hcase] at hc
        exact DbAddress.db_subset s r hc

theorem coversByName_db_iff {m : Platform} (hlower : Lowercases m.toLowercase) {g r : Text}
    (hg : isDbUrl g) (hr : isDbUrl r) (hstar : '*' ∉ g) (hone : '?' ∉ g) :
    (new m .db (some g)).coversByName m (new m .db (some r)) ↔
      canonUrl m g = canonUrl m r := by
  have hcovers : (new m .db (some g)).coversByName m (new m .db (some r)) =
      pathScopeCovers m true g r := rfl
  have hplain : fnmatch (canonUrl m r) (canonUrl m g) = true ↔ canonUrl m r = canonUrl m g :=
    fnmatch_iff_eq (mt (mem_of_mem_canonUrl hlower (by decide) (by decide)) hstar)
      (mt (mem_of_mem_canonUrl hlower (by decide) (by decide)) hone)
  rw [hcovers, pathScopeCovers, hg, canonDb, canonDb, hg, hr, Bool.true_or, Bool.true_and,
    if_pos rfl, if_pos rfl, if_pos rfl, Bool.or_eq_true, beq_iff_eq, hplain,
    eq_comm (b := canonUrl m g), or_self]

/-! ## Which grants fix the server -/

/-- Two URLs name the same server. -/
def SameServerUrl (m : Platform) (g r : Text) : Prop :=
  ∃ a b, dbAddress g = some a ∧ dbAddress r = some b ∧ SameServer m a b

section Grant

variable {m : Platform} (hlower : Lowercases m.toLowercase) {g r : Text} {a : DbAddress}

include hlower

theorem sameServerUrl_of_canonUrl (hg : isDbUrl g) (hr : isDbUrl r)
    (hopen : ∀ a, dbAddress g = some a → ¬a.OpenBracket) (h : canonUrl m g = canonUrl m r) :
    SameServerUrl m g r := by
  obtain ⟨s, t, hst, -⟩ := isDbUrl_iff.mp hg
  obtain ⟨s', t', hst', -⟩ := isDbUrl_iff.mp hr
  have hag : dbAddress g = some (DbAddress.ofRest s t) := by rw [dbAddress, hst, Option.map_some]
  have har : dbAddress r = some (DbAddress.ofRest s' t') := by rw [dbAddress, hst', Option.map_some]
  have hsplit := splitOnceStr_canonUrl hlower hst
  rw [h, splitOnceStr_canonUrl hlower hst', Option.some.injEq, Prod.mk.injEq] at hsplit
  obtain ⟨hhost, hdb⟩ := hostAndDb_canonUrl_inj hlower hsplit.2.symm
  exact ⟨_, _, hag, har, hsplit.1.symm,
    DbAddress.host_eq_of_beforePort hlower hhost (hopen _ hag), hdb⟩

end Grant

/-- The address with brackets that are closed behind a colon and a digit. -/
def DbAddress.closed (a : DbAddress) (digit : Char) : DbAddress :=
  { a with hostPort := a.beforePort ++ [':', digit, ']'] }

section Closed

variable {a : DbAddress} {digit : Char}

theorem DbAddress.beforePort_closed (hdigit : digit ∈ ['0', '1']) :
    (a.closed digit).beforePort = a.beforePort := by
  have hnot : ':' ∉ [digit, ']'] := by
    have hdigits : ∀ d ∈ ['0', '1'], ':' ∉ [d, ']'] := by decide
    exact hdigits digit hdigit
  rw [beforePort, closed]
  dsimp only
  rw [rsplitOnce_append a.beforePort hnot]
  rfl

theorem DbAddress.host_closed (hopen : a.OpenBracket) (hdigit : digit ∈ ['0', '1']) :
    (a.closed digit).host = a.beforePort ++ [':', digit, ']'] := by
  obtain ⟨hhead, hclose⟩ := hopen
  obtain ⟨x, hx⟩ := head?_eq_some_iff.mp ((head?_beforePort (by decide) a).mpr hhead)
  have hnot : ']' ∉ x ++ [':', digit] := by
    have hdigits : ∀ d ∈ ['0', '1'], ']' ∉ [':', d] := by decide
    rw [hx, List.mem_cons, not_or] at hclose
    exact fun hmem => (mem_append.mp hmem).elim hclose.2 (hdigits digit hdigit)
  have hpre : stripPrefix "[" (a.closed digit).hostPort =
      some ((x ++ [':', digit]) ++ ']' :: []) := by
    rw [closed, stripPrefix_eq_some]
    dsimp only
    rw [hx, append_assoc]
    rfl
  rw [host, hpre]
  dsimp only
  rw [splitOnce_append hnot, hx]
  dsimp only
  rw [append_assoc]
  rfl

end Closed

/-- The URL of an address. -/
def DbAddress.url (a : DbAddress) : Text := a.scheme ++ ("://" ++ hostAndDb a.hostPort a.db)

section Url

variable {g s t : Text} {d : Char}

theorem trimStart_append (hs : trimStart s = s) (ht : trimStart t = t) :
    trimStart (s ++ t) = s ++ t := by
  cases s with
  | nil => exact ht
  | cons c s =>
    rw [trimStart, cons_append, dropWhile_cons_of_neg]
    intro hc
    rw [trimStart, dropWhile_cons_of_pos hc] at hs
    have hlen := congrArg List.length hs
    have hle := (dropWhile_suffix (p := isWhitespace) (l := s)).length_le
    rw [length_cons] at hlen
    omega

theorem splitOnceStr_closed (h : splitOnceStr "://" (trimStart g) = some (s, t)) :
    splitOnceStr "://" (trimStart ((DbAddress.ofRest s t).closed d).url) =
      some (s, hostAndDb ((DbAddress.ofRest s t).closed d).hostPort (DbAddress.ofRest s t).db) := by
  have hext := splitOnceStr_extend (splitOnceStr_self h)
    (hostAndDb ((DbAddress.ofRest s t).closed d).hostPort (DbAddress.ofRest s t).db)
  have hurl : ((DbAddress.ofRest s t).closed d).url = s ++ ("://" ++
      hostAndDb ((DbAddress.ofRest s t).closed d).hostPort (DbAddress.ofRest s t).db) := rfl
  rw [hurl, trimStart_append (trimStart_scheme h) rfl, ← append_assoc]
  exact hext

theorem ofRest_closed (hd : d ∈ ['0', '1']) :
    DbAddress.ofRest s (hostAndDb ((DbAddress.ofRest s t).closed d).hostPort
      (DbAddress.ofRest s t).db) = (DbAddress.ofRest s t).closed d := by
  have hends : ∀ c ∈ ['/', '?', '#', '@'], ∀ d ∈ ['0', '1'], c ∉ [':', d, ']'] := by decide
  refine DbAddress.ofRest_hostAndDb s (fun c hc hmem => ?_) fun c hc => DbAddress.notMem_db s t hc
  rcases mem_append.mp hmem with hmem | hmem
  · exact DbAddress.notMem_hostPort s t hc (DbAddress.beforePort_subset _ hmem)
  · exact hends c hc d hd hmem

end Url

section Grant

variable {m : Platform} (hlower : Lowercases m.toLowercase) {g : Text}

include hlower

theorem closed_ne {a : DbAddress} (hopen : a.OpenBracket) :
    m.toLowercase (a.closed '0').host ≠ m.toLowercase (a.closed '1').host := by
  have hlast {d : Char} (hd : d ∈ ['0', '1']) : ∃ w, m.toLowercase (a.closed d).host =
      w ++ [d] ++ ']' :: m.toLowercase [] := by
    have hcase : ∀ d ∈ ['0', '1'], isCaseless d := by decide
    obtain ⟨w, hw⟩ := (hlower.maps (a.beforePort ++ [':'] ++ [d])).concat (hcase d hd)
    refine ⟨w, ?_⟩
    have hsplit : a.beforePort ++ [':', d, ']'] = (a.beforePort ++ [':'] ++ [d]) ++ ']' :: [] := by
      simp
    rw [DbAddress.host_closed hopen hd, hsplit, hlower.bracket, hw]
  obtain ⟨w, hw⟩ := hlast (d := '0') (by decide)
  obtain ⟨w', hw'⟩ := hlast (d := '1') (by decide)
  rw [hw, hw']
  intro h
  rw [append_left_inj] at h
  exact absurd (append_inj_right' h rfl) (by decide)

theorem dbGrant_sameServer_iff (hg : isDbUrl g) (hstar : '*' ∉ g) (hone : '?' ∉ g) :
    (∀ r, isDbUrl r →
        (new m .db (some g)).coversByName m (new m .db (some r)) → SameServerUrl m g r) ↔
      ∀ a, dbAddress g = some a → ¬a.OpenBracket := by
  constructor
  · intro h a ha hopen
    obtain ⟨s, t, hst, hs⟩ := isDbUrl_iff.mp hg
    rw [dbAddress, hst, Option.map_some, Option.some.injEq] at ha
    -- two servers with the canonical form of the grant
    have hsame {d : Char} (hd : d ∈ ['0', '1']) :
        m.toLowercase a.host = m.toLowercase (a.closed d).host := by
      have hsplit := splitOnceStr_closed (d := d) hst
      have hread := ofRest_closed (s := s) (t := t) hd
      dsimp only at ha
      rw [ha] at hsplit hread
      have hurl : isDbUrl (a.closed d).url := isDbUrl_iff.mpr ⟨s, _, hsplit, hs⟩
      have hcanon : canonUrl m g = canonUrl m (a.closed d).url := by
        rw [canonUrl_of_some hst, canonUrl_of_some hsplit, hread, ha, DbAddress.beforePort_closed hd]
        rfl
      obtain ⟨a', b, ha', hb, hserver⟩ :=
        h _ hurl ((coversByName_db_iff hlower hg hurl hstar hone).mpr hcanon)
      rw [dbAddress, hst, Option.map_some, Option.some.injEq] at ha'
      rw [dbAddress, hsplit, Option.map_some, Option.some.injEq] at hb
      obtain rfl : a' = a := ha'.symm.trans ha
      obtain rfl : b = a'.closed d := hb.symm.trans hread
      exact hserver.host
    exact closed_ne hlower hopen ((hsame (by decide)).symm.trans (hsame (by decide)))
  · intro hopen r hr hcov
    exact sameServerUrl_of_canonUrl hlower hg hr hopen
      ((coversByName_db_iff hlower hg hr hstar hone).mp hcov)

end Grant

/-- **What a grant of `db` that is a URL fixes**: the scheme, the host and the database exactly when no
bracket is left open before the last colon; and `canon_url` is idempotent exactly where no colon is
left. -/
theorem dbGrant_iff (m : Platform) (hlower : Lowercases m.toLowercase) :
    (∀ g, isDbUrl g = true → '*' ∉ g → '?' ∉ g →
      ((∀ r, isDbUrl r = true →
          (new m .db (some g)).coversByName m (new m .db (some r)) = true → SameServerUrl m g r) ↔
        ∀ a, dbAddress g = some a → ¬a.OpenBracket)) ∧
    ∀ url, canonUrl m (canonUrl m url) = canonUrl m url ↔
      ∀ a, dbAddress url = some a → ':' ∉ a.beforePort :=
  ⟨fun _ hg hstar hone => dbGrant_sameServer_iff hlower hg hstar hone, canonUrl_canonUrl_iff hlower⟩

/-- A platform without variables and directory, with the letters of ASCII. -/
def plainPlatform : Platform where
  envVar _ := none
  currentDir := none
  toLowercase := toAsciiLowercase

/-- A host with a port, and an address in brackets with one. -/
theorem dbGrant_port :
    (∀ r, isDbUrl r = true →
      (new plainPlatform .db (some "postgres://u:p@DB.x:5432/app".toList)).coversByName plainPlatform
          (new plainPlatform .db (some r)) = true →
        SameServerUrl plainPlatform "postgres://u:p@DB.x:5432/app" r) ∧
    canonUrl plainPlatform (canonUrl plainPlatform "postgres://u:p@DB.x:5432/app") =
      canonUrl plainPlatform "postgres://u:p@DB.x:5432/app" := by
  have hread : dbAddress "postgres://u:p@DB.x:5432/app" =
      some ⟨"postgres", "DB.x:5432", "app"⟩ := rfl
  obtain ⟨hgrant, hcanon⟩ := dbGrant_iff plainPlatform lowercases_toAsciiLowercase
  constructor
  · refine (hgrant _ (by decide) (by decide) (by decide)).mpr fun a ha hopen => ?_
    rw [hread, Option.some.injEq] at ha
    rw [← ha] at hopen
    exact absurd hopen.1 (by decide)
  · refine (hcanon _).mpr fun a ha => ?_
    rw [hread, Option.some.injEq] at ha
    rw [← ha]
    decide

/-- A grant of one address in brackets covers another, and its canonical form is not its own. -/
theorem dbGrant_bracket :
    isDbUrl "postgres://[2001:db8::1]/app" = true ∧
      isDbUrl "postgres://[2001:db8::2]/app" = true ∧
      (new plainPlatform .db (some "postgres://[2001:db8::1]/app".toList)).coversByName plainPlatform
        (new plainPlatform .db (some "postgres://[2001:db8::2]/app".toList)) = true ∧
      ¬SameServerUrl plainPlatform "postgres://[2001:db8::1]/app"
        "postgres://[2001:db8::2]/app" ∧
      canonUrl plainPlatform (canonUrl plainPlatform "postgres://[2001:db8::1]/app") ≠
        canonUrl plainPlatform "postgres://[2001:db8::1]/app" := by
  refine ⟨by decide, by decide, by decide, ?_, by decide⟩
  rintro ⟨a, b, ha, hb, h⟩
  have hreada : dbAddress "postgres://[2001:db8::1]/app" =
      some ⟨"postgres", "[2001:db8::1]", "app"⟩ := rfl
  have hreadb : dbAddress "postgres://[2001:db8::2]/app" =
      some ⟨"postgres", "[2001:db8::2]", "app"⟩ := rfl
  rw [hreada, Option.some.injEq] at ha
  rw [hreadb, Option.some.injEq] at hb
  have hhost := h.host
  rw [← ha, ← hb] at hhost
  exact absurd hhost (by decide)

end Synsema.Capability
