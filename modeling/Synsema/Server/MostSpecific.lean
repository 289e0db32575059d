import Synsema.Server.Routing
import Synsema.Capscope.Normal
import Synsema.Lib.StableSort
import Mathlib.Data.List.Dedup

/-!
# The route that answers

A host keeps its routes with the most specific first (`HostRouter::new` of `server.rs`,
`specificity` of `routing.rs`), and the first that matches answers.  Where a catch-all only ends
a pattern, no pattern that matches a path has the kinds of another one as a proper prefix
(`length_eq_of_isPrefix`), so that the first of the sorted routes is the most specific one
(`matchRoute_mostSpecific`).
-/

namespace Synsema.Server

open Text StableSort

variable {seg act path : Text} {segs segs' acts : List Text} {params params' : Params}

/-- The kind of a segment: a literal, a parameter, a catch-all. -/
def rank : Text → Nat
  | '*' :: _ => 2
  | ':' :: _ => 1
  | _ => 0

def specificity (pattern : Text) : List Nat := (segments pattern).map rank

/-- `HostRouter::new`, with what its mounts hold as in `HostRouter`. -/
def HostRouter.new (pattern : Option Text) (routes : List RouteSpec) (hasMounts : Bool)
    (static : Text → Headers → Option Page) : HostRouter :=
  { pattern, routes := sortByKey (fun r => specificity r.path) routes, hasMounts, static }

/-! ## What matches -/

/-- The segments of a pattern match those of a path. -/
inductive Matches : List Text → List Text → Prop where
  | nil : Matches [] []
  | literal {seg : Text} {segs acts : List Text} (h : rank seg = 0) (ht : Matches segs acts) :
      Matches (seg :: segs) (seg :: acts)
  | param {name act : Text} {segs acts : List Text} (ht : Matches segs acts) :
      Matches ((':' :: name) :: segs) (act :: acts)
  | catchAll {name : Text} {segs acts : List Text} (h : acts ≠ []) :
      Matches (('*' :: name) :: segs) acts

/-- The names of a pattern, with the decoded segments they stand for. -/
def bindings : List Text → List Text → List (Text × Text)
  | ('*' :: name) :: _, acts => [(name, join "/" (acts.map unquote))]
  | (':' :: name) :: segs, act :: acts => (name, unquote act) :: bindings segs acts
  | _ :: segs, _ :: acts => bindings segs acts
  | _, _ => []

/-- The bindings written one after the other. -/
def Params.write (params : Params) (bs : List (Text × Text)) : Params :=
  bs.foldl (fun m b => m.insert b.1 b.2) params

theorem matchSegments_literal (h : rank seg = 0) :
    matchSegments params (seg :: segs) (act :: acts) =
      if seg = act then matchSegments params segs acts else none := by
  rw [matchSegments]
  · rintro name rfl
    cases h
  · rintro name rfl
    cases h

theorem bindings_literal (h : rank seg = 0) :
    bindings (seg :: segs) (act :: acts) = bindings segs acts := by
  rw [bindings]
  · rintro name rfl
    cases h
  · rintro name rfl
    cases h

theorem matchSegments_of_matches (h : Matches segs acts) (params : Params) :
    matchSegments params segs acts = some (params.write (bindings segs acts)) := by
  induction h generalizing params with
  | nil => rfl
  | literal hseg _ ih => rw [matchSegments_literal hseg, if_pos rfl, bindings_literal hseg, ih]
  | param _ ih => exact ih _
  | catchAll hacts =>
    rw [matchSegments, if_neg (by simpa using hacts)]
    rfl

theorem matches_of_matchSegments (h : matchSegments params segs acts = some params') :
    Matches segs acts := by
  induction segs generalizing params acts with
  | nil =>
    rw [matchSegments] at h
    split at h
    next hacts => exact List.isEmpty_iff.mp hacts ▸ .nil
    next => cases h
  | cons seg segs ih =>
    rw [matchSegments.eq_def] at h
    dsimp only at h
    split at h
    · split at h
      · cases h
      next hacts => exact .catchAll fun hnil => hacts (List.isEmpty_iff.mpr hnil)
    next hstar =>
      split at h
      · cases h
      · split at h
        next => exact .param (ih h)
        next hcolon =>
          split at h
          next heq =>
            subst heq
            refine .literal ?_ (ih h)
            unfold rank
            split
            · exact (hstar _ rfl).elim
            · exact (hcolon _ rfl).elim
            · rfl
          next => cases h

theorem pathMatch_eq_some {pattern : Text} :
    pathMatch pattern path = some params ↔ Matches (segments pattern) (segments path) ∧
      params = Params.write .empty (bindings (segments pattern) (segments path)) := by
  constructor
  · intro h
    have hm := matches_of_matchSegments h
    exact ⟨hm, (Option.some.inj ((matchSegments_of_matches hm _).symm.trans h)).symm⟩
  · rintro ⟨hm, rfl⟩
    exact matchSegments_of_matches hm _

/-! ## Slashes -/

theorem segments_append_cons (a b : Text) :
    segments (a ++ '/' :: b) = segments a ++ segments b := by
  rw [segments, split, List.splitOn_append_cons_self, List.filter_append]
  rfl

theorem segments_of_mem (h : seg ∈ segments path) : segments seg = [seg] := by
  obtain ⟨hseg, hne⟩ := List.mem_filter.mp h
  rw [segments, split, List.splitOn_eq_singleton (Capscope.not_mem_of_mem_split hseg)]
  exact List.filter_eq_self.mpr fun t ht => List.mem_singleton.mp ht ▸ hne

theorem segments_join (h : ∀ seg ∈ segs, segments seg = [seg]) :
    segments (join "/" segs) = segs := by
  induction segs with
  | nil => rfl
  | cons seg segs ih =>
    obtain ⟨hseg, hsegs⟩ := List.forall_mem_cons.mp h
    cases segs with
    | nil => simpa [join] using hseg
    | cons t segs =>
      have hjoin : join "/" (seg :: t :: segs) =
          seg ++ '/' :: join "/" (t :: segs) := by
        simp [join, List.intercalate_cons_cons]
      rw [hjoin, segments_append_cons, hseg, ih hsegs]
      rfl

theorem segments_normalizeRoutePath (path : Text) :
    segments (normalizeRoutePath path) = segments path := by
  rw [normalizeRoutePath]
  split
  next hnil => rw [hnil]; rfl
  next segs hsegs =>
    have hslash := segments_append_cons [] (join "/" (segments path))
    rw [segments_join fun seg => segments_of_mem] at hslash
    exact hslash

/-! ## The most specific route -/

/-- A catch-all stands only at the end. -/
def CatchAllLast (pattern : Text) : Prop := 2 ∉ (specificity pattern).dropLast

instance (pattern : Text) : Decidable (CatchAllLast pattern) :=
  inferInstanceAs (Decidable (2 ∉ (specificity pattern).dropLast))

theorem notMem_dropLast_tail {k : Nat} {ks : List Nat} (h : 2 ∉ (k :: ks).dropLast) :
    2 ∉ ks.dropLast := by
  cases ks with
  | nil => exact List.not_mem_nil
  | cons k' ks => exact fun hmem => h (List.mem_cons_of_mem _ hmem)

theorem length_eq_of_isPrefix (h : Matches segs acts) (h' : Matches segs' acts)
    (hlast : 2 ∉ (segs'.map rank).dropLast) (hpre : segs.map rank <+: segs'.map rank) :
    segs.length = segs'.length := by
  induction h generalizing segs' with
  | nil =>
    cases h' with
    | nil => rfl
    | catchAll hacts => exact (hacts rfl).elim
  | literal hseg _ ih =>
    cases h' with
    | literal _ ht' =>
      rw [List.length_cons, List.length_cons,
        ih ht' (notMem_dropLast_tail hlast) (List.cons_prefix_cons.mp hpre).2]
    | param => exact absurd ((List.cons_prefix_cons.mp hpre).1.symm.trans hseg) (Nat.succ_ne_zero _)
    | catchAll => exact absurd ((List.cons_prefix_cons.mp hpre).1.symm.trans hseg) (Nat.succ_ne_zero _)
  | param _ ih =>
    cases h' with
    | literal hseg' => exact absurd ((List.cons_prefix_cons.mp hpre).1.trans hseg') (Nat.succ_ne_zero _)
    | param ht' =>
      rw [List.length_cons, List.length_cons,
        ih ht' (notMem_dropLast_tail hlast) (List.cons_prefix_cons.mp hpre).2]
    | catchAll => exact absurd (List.cons_prefix_cons.mp hpre).1 (Nat.succ_ne_self 1).symm
  | @catchAll _ segs _ _ =>
    obtain _ | ⟨seg', segs'⟩ := segs'
    · exact absurd hpre.length_le (by simp)
    · obtain ⟨hrank, hpre⟩ := List.cons_prefix_cons.mp hpre
      -- a catch-all ends the other pattern as well
      cases segs' with
      | nil => simpa using hpre
      | cons t segs' => exact absurd (List.mem_cons.mpr (.inl hrank)) hlast

/-- At the first segment where the kinds differ, `ks` has the more specific one. -/
def Precedes (ks ks' : List Nat) : Prop :=
  ∃ i : Nat, (∀ j : Nat, j < i → ks[j]? = ks'[j]?) ∧ ∃ k ∈ ks[i]?, ∃ k' ∈ ks'[i]?, k < k'

theorem precedes_or_eq (h : Matches segs acts) (h' : Matches segs' acts)
    (hlast : 2 ∉ (segs'.map rank).dropLast) (hle : segs.map rank ≤ segs'.map rank) :
    segs.map rank = segs'.map rank ∨ Precedes (segs.map rank) (segs'.map rank) := by
  rcases hle.eq_or_lt with heq | hlt
  · exact .inl heq
  refine .inr ?_
  rcases List.lt_iff_exists.mp hlt with ⟨hpre, hlength⟩ | ⟨i, hi, hi', hbefore, hk⟩
  · have hprefix : segs.map rank <+: segs'.map rank := hpre ▸ List.take_prefix ..
    have heq := length_eq_of_isPrefix h h' hlast hprefix
    rw [List.length_map, List.length_map] at hlength
    omega
  · refine ⟨i, fun j hj => ?_, _, List.getElem?_eq_getElem hi, _, List.getElem?_eq_getElem hi', hk⟩
    rw [List.getElem?_eq_getElem (hj.trans hi), List.getElem?_eq_getElem (hj.trans hi'),
      hbefore j hj]

/-! ## A host -/

/-- The route is one of the method that matches the path. -/
def RouteSpec.Answers (r : RouteSpec) (method path : Text) : Prop :=
  r.method = method ∧ Matches (segments r.path) (segments path)

variable {method : Text} {host : HostRouter}

theorem answer_eq_some {r : RouteSpec} {a : RouteSpec × Params} :
    (if r.method = method then (pathMatch r.path path).map fun params => (r, params) else none) =
        some a ↔
      r.Answers method path ∧
        a = (r, Params.write .empty (bindings (segments r.path) (segments path))) := by
  split
  next hmethod =>
    rw [Option.map_eq_some_iff]
    constructor
    · rintro ⟨params, hp, rfl⟩
      obtain ⟨hm, rfl⟩ := pathMatch_eq_some.mp hp
      exact ⟨⟨hmethod, hm⟩, rfl⟩
    · rintro ⟨hr, rfl⟩
      exact ⟨_, pathMatch_eq_some.mpr ⟨hr.2, rfl⟩, rfl⟩
  next hmethod => exact iff_of_false nofun fun h => hmethod h.1.1

theorem matchRoute_isSome :
    (host.matchRoute method path).isSome ↔ ∃ r ∈ host.routes, r.Answers method path := by
  rw [HostRouter.matchRoute, List.isSome_findSome?, List.any_eq_true]
  refine exists_congr fun r => and_congr_right fun _ => ?_
  rw [Option.isSome_iff_exists]
  exact ⟨fun ⟨_, ha⟩ => (answer_eq_some.mp ha).1, fun hr => ⟨_, answer_eq_some.mpr ⟨hr, rfl⟩⟩⟩

theorem matchRoute_congr {path' : Text} (h : segments path' = segments path) (method : Text) :
    host.matchRoute method path' = host.matchRoute method path := by
  simp only [HostRouter.matchRoute, pathMatch, h]

/-- What is said of the routes of a host: the one that answers is the most specific one, with the
decoded segments of the path as its parameters, whatever the order of the others and however many
slashes the path has, and the methods of a path are those that are answered. -/
structure MostSpecific (routes : List RouteSpec) (new : List RouteSpec → HostRouter)
    (method path : Text) : Prop where
  isSome : ((new routes).matchRoute method path).isSome ↔
    ∃ r ∈ routes, r.Answers method path
  found : ∀ r params, (new routes).matchRoute method path = some (r, params) →
    r ∈ routes ∧ r.Answers method path ∧
      params = Params.write .empty (bindings (segments r.path) (segments path)) ∧
      ∀ r' ∈ routes, r'.Answers method path → specificity r.path = specificity r'.path ∨
        Precedes (specificity r.path) (specificity r'.path)
  order : ∀ routes', (∀ kinds, routes'.filter (fun r => specificity r.path = kinds) =
      routes.filter fun r => specificity r.path = kinds) →
    (new routes').matchRoute method path = (new routes).matchRoute method path
  slashes : ∀ a b, path = a ++ '/' :: b →
    (new routes).matchRoute method (a ++ '/' :: '/' :: b) = (new routes).matchRoute method path
  trailing : (new routes).matchRoute method (path ++ "/") =
    (new routes).matchRoute method path
  normal : (new routes).matchRoute method (normalizeRoutePath path) =
    (new routes).matchRoute method path
  methods : ((new routes).methodsForPath path).Nodup ∧ ∀ m,
    m ∈ (new routes).methodsForPath path ↔ ((new routes).matchRoute m path).isSome

theorem mem_methodsForPath {m : Text} :
    m ∈ host.methodsForPath path ↔ (host.matchRoute m path).isSome := by
  rw [matchRoute_isSome, HostRouter.methodsForPath, (List.mergeSort_perm ..).mem_iff,
    List.mem_dedup, List.mem_map]
  refine exists_congr fun r => ?_
  rw [List.mem_filter, Option.isSome_iff_exists, and_assoc]
  refine and_congr_right fun _ => ?_
  constructor
  · rintro ⟨⟨_, hp⟩, rfl⟩
    exact ⟨rfl, (pathMatch_eq_some.mp hp).1⟩
  · rintro ⟨rfl, hm⟩
    exact ⟨⟨_, pathMatch_eq_some.mpr ⟨hm, rfl⟩⟩, rfl⟩

theorem matchRoute_mostSpecific (pattern : Option Text) (routes : List RouteSpec)
    (hasMounts : Bool) (static : Text → Headers → Option Page)
    (hlast : ∀ r ∈ routes, CatchAllLast r.path) (method path : Text) :
    MostSpecific routes (HostRouter.new pattern · hasMounts static) method path := by
  have hmem (r : RouteSpec) : r ∈ sortByKey (fun r => specificity r.path) routes ↔ r ∈ routes :=
    sortByKey_perm.mem_iff
  refine ⟨?_, fun r params h => ?_, fun routes' h => ?_, ?_, ?_, ?_, ?_⟩
  · exact matchRoute_isSome.trans (exists_congr fun r => and_congr_left' (hmem r))
  · obtain ⟨before, r₀, after, hsplit, hfound, hbefore⟩ := List.findSome?_eq_some_iff.mp h
    obtain ⟨hr, heq⟩ := answer_eq_some.mp hfound
    cases heq
    change sortByKey _ routes = _ at hsplit
    have hsorted := @sortByKey_sorted _ _ _ (fun r => specificity r.path) routes
    rw [hsplit] at hsorted hmem
    refine ⟨(hmem r).mp (List.mem_append_right _ List.mem_cons_self), hr, rfl, fun r' hr' ha => ?_⟩
    have hle : specificity r.path ≤ specificity r'.path := by
      rcases List.mem_append.mp ((hmem r').mpr hr') with hin | hin
      · -- a route before the first that answers does not
        have hnone := hbefore r' hin
        rw [answer_eq_some.mpr ⟨ha, rfl⟩] at hnone
        cases hnone
      · rcases List.mem_cons.mp hin with rfl | hin
        · exact le_rfl
        · exact (List.pairwise_cons.mp (List.pairwise_append.mp hsorted).2.1).1 r' hin
    exact precedes_or_eq hr.2 ha.2 (hlast r' hr') hle
  · simp only [HostRouter.new, HostRouter.matchRoute, sortByKey_congr h]
  · rintro a b rfl
    refine matchRoute_congr ?_ method
    rw [segments_append_cons, segments_append_cons]
    exact congrArg (segments a ++ ·) (segments_append_cons [] b)
  · refine matchRoute_congr ?_ method
    exact (segments_append_cons path []).trans (List.append_nil _)
  · exact matchRoute_congr (segments_normalizeRoutePath path) method
  · exact ⟨(List.mergeSort_perm ..).nodup_iff.mpr (List.nodup_dedup _), fun m => mem_methodsForPath⟩

/-- A route of pages. -/
def pageRoute (path : Text) : RouteSpec :=
  ⟨"GET", path, false, false, false, false, none, none, false, false⟩

/-- `/users/me` goes before `/users/:id`, which was declared first. -/
theorem mostSpecific_pageRoute : MostSpecific
    [pageRoute "/users/:id", pageRoute "/users/me", pageRoute "/*rest"]
    (HostRouter.new none · false fun _ _ => none) "GET" "/users/me" :=
  matchRoute_mostSpecific none _ false _ (by decide) _ _

end Synsema.Server
