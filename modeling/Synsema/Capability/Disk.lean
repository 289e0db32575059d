import Synsema.Capability.Containment
import Synsema.Capscope.ShortCut

/-!
# Grants and the disk

A path is granted by a layer when one of its grants covers it by name and one, perhaps another,
covers it on disk (`covers`, `layer_covers_split`).  The second half may answer by the short cut,
which finds no link below the base of a scope and does not look at its pattern: with
`/proj/out/*.csv` next to `/proj/**`, and `/proj/out` a link to `/outside`, everything in
`/outside` is granted.  `placeNamed_iff` says when the place of a granted path is named by some
grant.
-/

namespace Synsema.Capability

open Text Capscope FileTree List

/-- Does the grant name the place, for a request of its type? -/
def NamesPlace (m : Machine) (g req : Capability) (place : Text) : Prop :=
  g.ty.covers req.ty = true ∧ ∀ s, g.scope = some s →
    ∃ base, physicalPath m.toPlatform m.disk (splitScope m.toPlatform s).1 = .path base ∧
      physicalMatch base (splitScope m.toPlatform s).2 place = true

/-- The place of a path that the layer grants is named by one of its grants. -/
def PlaceNamed (m : Machine) (layer : List Capability) (req : Capability) (r : Text) : Prop :=
  ∀ place, physicalPath m.toPlatform m.disk r = .path place → layerCovers m layer req = true →
    ∃ g ∈ layer, g.NamesPlace m req place

/-- The short cut answers only what the slow test answers. -/
def ShortCutSound (m : Machine) (s r : Text) : Prop :=
  shortCut m.toPlatform m.disk s r = true → withinSlowly m.toPlatform m.disk s r = true

/-- Does the pattern of the scope match the names of the request below its literal base? -/
def patternMatches (m : Platform) (s r : Text) : Bool :=
  match absoluteLexical m (splitScope m s).1, absoluteLexical m r with
  | some base, some abs => physicalMatch base (splitScope m s).2 abs
  | _, _ => false

/-- Does the grant name the request: the names of the request where the short cut answers for it,
its place elsewhere? -/
def reaches (m : Machine) (g req : Capability) (r : Text) : Bool :=
  g.ty.covers req.ty &&
    match g.scope with
    | none => true
    | some s =>
      if shortCut m.toPlatform m.disk s r then patternMatches m.toPlatform s r
      else withinSlowly m.toPlatform m.disk s r

/-- When the request has a place, a name and the short cut of some grant, then one grant reaches
it. -/
def ShortCutCovered (m : Machine) (layer : List Capability) (req : Capability) (r : Text) : Prop :=
  (∃ place, physicalPath m.toPlatform m.disk r = .path place) →
    (∃ g ∈ layer, g.coversByName m.toPlatform req = true) →
      (∃ g ∈ layer, g.ty.covers req.ty = true ∧
        ∃ s, g.scope = some s ∧ shortCut m.toPlatform m.disk s r = true) →
        ∃ g ∈ layer, g.reaches m req r = true

/-! ## The two halves on a tree -/

variable {m : Machine} {t : UnixTree} {layer : List Capability} {req : Capability} {r s : Text}

theorem physicalPath_ne_noFs (hfs : m.disk.fs = some t.fileSystem) (p : Text) :
    physicalPath m.toPlatform m.disk p ≠ .noFs := by
  have hresolve (hops : Nat) (abs : Text) :
      resolvePhysical m.toPlatform t.fileSystem hops abs ≠ .noFs := by
    induction hops generalizing abs with
    | zero => rintro ⟨⟩
    | succ hops ih =>
      unfold resolvePhysical
      dsimp only
      split
      · rintro ⟨⟩
      · split
        · exact ih _
        · rintro ⟨⟩
      · rintro ⟨⟩
  unfold physicalPath
  rw [hfs]
  dsimp only
  split
  · rintro ⟨⟩
  · split
    · rintro ⟨⟩
    · exact hresolve _ _

theorem withinSlowly_iff (hfs : m.disk.fs = some t.fileSystem) :
    withinSlowly m.toPlatform m.disk s r ↔
      ∃ base place,
        physicalPath m.toPlatform m.disk (splitScope m.toPlatform s).1 = .path base ∧
        physicalPath m.toPlatform m.disk r = .path place ∧
        physicalMatch base (splitScope m.toPlatform s).2 place = true := by
  have hbase := physicalPath_ne_noFs hfs (splitScope m.toPlatform s).1
  have hplace := physicalPath_ne_noFs hfs r
  unfold withinSlowly physicalScopeParts
  dsimp only
  cases hb : physicalPath m.toPlatform m.disk (splitScope m.toPlatform s).1 with
  | noFs => exact absurd hb hbase
  | unresolved | path base =>
    cases hr : physicalPath m.toPlatform m.disk r with
    | noFs => exact absurd hr hplace
    | unresolved | path place => simp

theorem patternMatches_eq {base abs : Text}
    (hbase : absoluteLexical m.toPlatform (splitScope m.toPlatform s).1 = some base)
    (habs : absoluteLexical m.toPlatform r = some abs) :
    patternMatches m.toPlatform s r =
      physicalMatch base (splitScope m.toPlatform s).2 abs := by
  unfold patternMatches
  simp only [hbase, habs]

theorem withinSlowly_of_shortCut (hfs : m.disk.fs = some t.fileSystem)
    (hcwd : CwdAbsolute m.toPlatform) (hscope : NoDrive m.toPlatform (splitScope m.toPlatform s).1)
    (hreq : NoDrive m.toPlatform r) (h : shortCut m.toPlatform m.disk s r) :
    withinSlowly m.toPlatform m.disk s r ↔
      (∃ place, physicalPath m.toPlatform m.disk r = .path place) ∧
        patternMatches m.toPlatform s r = true := by
  rw [withinSlowly_iff hfs]
  refine ⟨fun hslow => ?_, fun hlex => ?_⟩
  · obtain ⟨base, place, hbase, hplace, hmatch⟩ := hslow
    obtain ⟨base', absBase, absReq, hbase', habs, habsReq, heq⟩ :=
      shortCut_physicalMatch hfs hcwd hscope hreq h hplace
    rw [hbase] at hbase'
    cases hbase'
    refine ⟨⟨place, hplace⟩, ?_⟩
    rw [patternMatches_eq habs habsReq, ← heq]
    exact hmatch
  · obtain ⟨⟨place, hplace⟩, hmatch⟩ := hlex
    obtain ⟨base, absBase, absReq, hbase, habs, habsReq, heq⟩ :=
      shortCut_physicalMatch hfs hcwd hscope hreq h hplace
    rw [patternMatches_eq habs habsReq, ← heq] at hmatch
    exact ⟨base, place, hbase, hplace, hmatch⟩

variable {g : Capability}

theorem namesPlace_iff {place : Text} (hfs : m.disk.fs = some t.fileSystem)
    (hplace : physicalPath m.toPlatform m.disk r = .path place) :
    g.NamesPlace m req place ↔ g.ty.covers req.ty ∧
      ∀ s, g.scope = some s → withinSlowly m.toPlatform m.disk s r = true := by
  refine and_congr_right fun _ => forall₂_congr fun s _ => ?_
  rw [withinSlowly_iff hfs, hplace]
  simp

theorem physicalScopePair_file (hg : g.ty ∈ fileTypes) (hty : req.ty ∈ fileTypes) :
    g.physicalScopePair req = true := by
  have hpath {ty : CapabilityType} (h : ty ∈ fileTypes) :
      ty.isPath = true ∧ (ty == .db) = false := by
    simp only [fileTypes, List.mem_cons, not_mem_nil, or_false] at h
    rcases h with rfl | rfl | rfl <;> exact ⟨rfl, rfl⟩
  obtain ⟨hgpath, hgdb⟩ := hpath hg
  obtain ⟨hrpath, hrdb⟩ := hpath hty
  simp only [physicalScopePair, hgpath, hgdb, hrpath, hrdb, Bool.false_and, Bool.not_false,
    Bool.and_self]

theorem coversPhysically_file_iff (hg : g.ty ∈ fileTypes) (hty : req.ty ∈ fileTypes)
    (hr : req.scope = some r) :
    g.coversPhysically m req ↔ g.ty.covers req.ty ∧
      ∀ s, g.scope = some s → pathWithinPhysically m.toPlatform m.disk s r = true := by
  unfold coversPhysically
  rw [physicalScopePair_file hg hty, hr, Bool.and_true, Bool.and_eq_true]
  refine and_congr_right fun _ => ?_
  cases g.scope with
  | none | some s => simp

theorem coversPhysically_of_covers (hg : g.ty ∈ fileTypes) (hty : req.ty ∈ fileTypes)
    (hr : req.scope = some r) (h : g.covers m req) : g.coversPhysically m req = true := by
  unfold covers at h
  rw [physicalScopePair_file hg hty, hr, Bool.and_eq_true] at h
  refine (coversPhysically_file_iff hg hty hr).mpr ⟨ty_covers_of_coversByName h.1, fun s hs => ?_⟩
  rw [hs] at h
  exact h.2

theorem layerCovers_file_iff (hlayer : ∀ g ∈ layer, g.ty ∈ fileTypes) (hty : req.ty ∈ fileTypes)
    (hr : req.scope = some r) :
    layerCovers m layer req ↔
      (∃ g ∈ layer, g.coversByName m.toPlatform req) ∧
        ∃ g ∈ layer, g.coversPhysically m req = true := by
  unfold layerCovers layerCoversSplit
  simp only [Bool.or_eq_true, Bool.and_eq_true, any_eq_true]
  constructor
  · rintro (⟨g, hg, hcov⟩ | ⟨⟨g, hg, -, hname⟩, hphys⟩)
    · refine ⟨⟨g, hg, ?_⟩, g, hg, coversPhysically_of_covers (hlayer g hg) hty hr hcov⟩
      unfold covers at hcov
      rw [Bool.and_eq_true] at hcov
      exact hcov.1
    · exact ⟨⟨g, hg, hname⟩, hphys⟩
  · rintro ⟨⟨g, hg, hname⟩, hphys⟩
    exact .inr ⟨⟨g, hg, physicalScopePair_file (hlayer g hg) hty, hname⟩, hphys⟩

theorem reaches_iff {place : Text} (hfs : m.disk.fs = some t.fileSystem)
    (hcwd : CwdAbsolute m.toPlatform)
    (hscope : ∀ s, g.scope = some s → NoDrive m.toPlatform (splitScope m.toPlatform s).1)
    (hr : NoDrive m.toPlatform r) (hplace : physicalPath m.toPlatform m.disk r = .path place) :
    g.reaches m req r ↔ g.NamesPlace m req place := by
  rw [namesPlace_iff hfs hplace, reaches, Bool.and_eq_true]
  refine and_congr_right fun _ => ?_
  cases hs : g.scope with
  | none => simp
  | some s =>
    simp only [Option.some.injEq, forall_eq']
    split
    · rename_i hshort
      rw [withinSlowly_of_shortCut hfs hcwd (hscope s hs) hr hshort]
      exact ⟨fun hmatch => ⟨⟨place, hplace⟩, hmatch⟩, And.right⟩
    · rfl

/-- **When a granted path leads inside a grant.** -/
theorem placeNamed_iff (m : Machine) (t : UnixTree) (hfs : m.disk.fs = some t.fileSystem)
    (hcwd : CwdAbsolute m.toPlatform) (layer : List Capability)
    (hlayer : ∀ g ∈ layer, g.ty ∈ fileTypes)
    (hscopes : ∀ g ∈ layer, ∀ s, g.scope = some s →
      NoDrive m.toPlatform (splitScope m.toPlatform s).1)
    (ty : CapabilityType) (hty : ty ∈ fileTypes) (r : Text) (hr : NoDrive m.toPlatform r) :
    (PlaceNamed m layer ⟨ty, some r⟩ r ↔ ShortCutCovered m layer ⟨ty, some r⟩ r) ∧
      ∀ g ∈ layer, ∀ s, g.scope = some s →
        (ShortCutSound m s r ↔ (shortCut m.toPlatform m.disk s r = true →
          (∃ place, physicalPath m.toPlatform m.disk r = .path place) ∧
            patternMatches m.toPlatform s r = true)) := by
  refine ⟨⟨?_, ?_⟩, fun g hg s hs => forall_congr' fun hshort =>
    withinSlowly_of_shortCut hfs hcwd (hscopes g hg s hs) hr hshort⟩
  · rintro hnamed ⟨place, hplace⟩ hname ⟨g, hg, hcov, s, hs, hshort⟩
    have hwithin : pathWithinPhysically m.toPlatform m.disk s r := by
      rw [pathWithinPhysically_eq, hshort, Bool.true_or]
    have hphys : g.coversPhysically m ⟨ty, some r⟩ := by
      refine (coversPhysically_file_iff (hlayer g hg) hty rfl).mpr ⟨hcov, fun s' hs' => ?_⟩
      rw [hs] at hs'
      cases hs'
      exact hwithin
    obtain ⟨g', hg', hplaced⟩ :=
      hnamed place hplace ((layerCovers_file_iff hlayer hty rfl).mpr ⟨hname, g, hg, hphys⟩)
    exact ⟨g', hg', (reaches_iff hfs hcwd (hscopes g' hg') hr hplace).mpr hplaced⟩
  · intro hcovered place hplace hlayerCovers
    obtain ⟨hname, g, hg, hphys⟩ := (layerCovers_file_iff hlayer hty rfl).mp hlayerCovers
    obtain ⟨hcov, hwithin⟩ := (coversPhysically_file_iff (hlayer g hg) hty rfl).mp hphys
    by_cases hshort : ∃ s, g.scope = some s ∧ shortCut m.toPlatform m.disk s r = true
    · obtain ⟨s, hs, hshort⟩ := hshort
      obtain ⟨g', hg', hreach⟩ := hcovered ⟨place, hplace⟩ hname ⟨g, hg, hcov, s, hs, hshort⟩
      exact ⟨g', hg', (reaches_iff hfs hcwd (hscopes g' hg') hr hplace).mp hreach⟩
    · -- the grant was asked for the place itself
      refine ⟨g, hg, (namesPlace_iff hfs hplace).mpr ⟨hcov, fun s hs => ?_⟩⟩
      have hslow := hwithin s hs
      rw [pathWithinPhysically_eq, Bool.or_eq_true] at hslow
      exact hslow.resolve_left fun h => hshort ⟨s, hs, h⟩

/-! ## A link as a base -/

/-- `/proj/out` is a link to `/outside`, where a file is. -/
def linkedEntries : List (List Text × Entry Text) :=
  [([], .dir), (["proj"], .dir),
    (["proj", "out"], .link "/outside"),
    (["outside"], .dir), (["outside", "secret.txt"], .file)]

theorem mem_linkedEntries {p : List Text} {e : Entry Text} (h : linkedEntries.lookup p = some e) :
    (p, e) ∈ linkedEntries := by
  obtain ⟨l₁, l₂, heq, -⟩ := lookup_eq_some_iff.mp h
  rw [heq]
  exact mem_append_right _ mem_cons_self

/-- The disk of `linkedEntries`, a link read from the root where it starts at `/`. -/
def linkedDirs : Tree Text Text where
  entry p := linkedEntries.lookup p
  read target := (startsWith "/" target, stepsOf target)
  root := rfl
  closed p n h := by
    obtain ⟨e, he⟩ := Option.ne_none_iff_exists'.mp h
    have hdir : ∀ x ∈ linkedEntries, linkedEntries.lookup x.1.dropLast = some .dir := by
      intro x hx
      simp only [linkedEntries, List.mem_cons, not_mem_nil, or_false] at hx
      rcases hx with rfl | rfl | rfl | rfl | rfl <;> rfl
    have hp := hdir _ (mem_linkedEntries he)
    rwa [dropLast_concat] at hp

theorem leads_out : Leads linkedDirs [] (names ["proj", "out"]) ["outside"] := by
  have hlink : linkedDirs.entry ["proj", "out"] = some (.link "/outside") := rfl
  refine .into (p := []) (e := .dir) rfl nofun (.follow (p := ["proj".toList]) hlink ?_)
  exact .into (p := []) (e := .dir) rfl nofun (.here _)

def linkedTree : UnixTree where
  tree := linkedDirs
  read_eq _ := rfl
  names p h := by
    obtain ⟨e, he⟩ := Option.ne_none_iff_exists'.mp h
    have hnames : ∀ x ∈ linkedEntries, ∀ n ∈ x.1, IsName n := by
      intro x hx
      simp only [linkedEntries, List.mem_cons, not_mem_nil, or_false] at hx
      rcases hx with rfl | rfl | rfl | rfl | rfl <;> decide
    exact hnames _ (mem_linkedEntries he)
  broken p n target h _ := by
    have hmem := mem_linkedEntries h
    simp only [linkedEntries, List.mem_cons, not_mem_nil, or_false, Prod.mk.injEq, reduceCtorEq,
      and_false, false_or] at hmem
    obtain ⟨-, htarget⟩ := hmem
    cases htarget
    decide

theorem leads_secret : Leads linkedDirs []
    (names ["proj", "out", "secret.txt"])
    ["outside", "secret.txt"] :=
  leads_out.trans (b := names ["secret.txt".toList])
    (.into (p := ["outside".toList]) (e := .file) rfl nofun (.here _))

/-- A machine at the root of that disk. -/
noncomputable def linkedMachine : Machine :=
  { bareMachine with
    currentDir := some "/".toList
    disk := { fs := some linkedTree.fileSystem, physicalOverride := none } }

def linkedLayer : List Capability :=
  [⟨.fileRead, some "/proj/**".toList⟩, ⟨.fileRead, some "/proj/out/*.csv".toList⟩]

theorem placeNamed_iff_linked :
    (PlaceNamed linkedMachine linkedLayer ⟨.fileRead, some "/proj/out/secret.txt".toList⟩
        "/proj/out/secret.txt" ↔
      ShortCutCovered linkedMachine linkedLayer ⟨.fileRead, some "/proj/out/secret.txt".toList⟩
        "/proj/out/secret.txt") ∧
      ∀ g ∈ linkedLayer, ∀ s, g.scope = some s →
        (ShortCutSound linkedMachine s "/proj/out/secret.txt" ↔
          (shortCut linkedMachine.toPlatform linkedMachine.disk s
              "/proj/out/secret.txt" = true →
            (∃ place, physicalPath linkedMachine.toPlatform linkedMachine.disk
              "/proj/out/secret.txt" = .path place) ∧
            patternMatches linkedMachine.toPlatform s "/proj/out/secret.txt" = true)) := by
  have hscopes : ∀ g ∈ linkedLayer, ∀ s, g.scope = some s →
      NoDrive linkedMachine.toPlatform (splitScope linkedMachine.toPlatform s).1 := by
    intro g hg s hs
    simp only [linkedLayer, List.mem_cons, not_mem_nil, or_false] at hg
    rcases hg with rfl | rfl
    · cases hs
      exact fun _ => rfl
    · cases hs
      exact fun _ => rfl
  have hcwd : CwdAbsolute linkedMachine.toPlatform := by
    rintro cwd hcwd
    cases hcwd
    rfl
  exact placeNamed_iff linkedMachine linkedTree rfl hcwd linkedLayer (by decide) hscopes .fileRead
    (by decide) _ fun _ => rfl

theorem physicalPath_proj : physicalPath linkedMachine.toPlatform linkedMachine.disk
    "/proj" = .path (absText ["proj"]) := by
  have hleads : Leads linkedTree.tree [] (names ["proj"]) ["proj"] :=
    leads_names_self rfl
  exact physicalPath_of_resolve rfl rfl (a := ["proj"]) rfl (by decide) hleads

theorem physicalPath_out : physicalPath linkedMachine.toPlatform linkedMachine.disk
    "/proj/out" = .path (absText ["outside"]) :=
  physicalPath_of_resolve (t := linkedTree) rfl rfl (a := ["proj", "out"]) rfl
    (by decide) leads_out

theorem physicalPath_secret : physicalPath linkedMachine.toPlatform linkedMachine.disk
    "/proj/out/secret.txt" = .path (absText ["outside", "secret.txt"]) :=
  physicalPath_of_resolve (t := linkedTree) rfl rfl
    (a := ["proj", "out", "secret.txt"]) rfl (by decide) leads_secret

theorem shortCut_out : shortCut linkedMachine.toPlatform linkedMachine.disk
    "/proj/out/*.csv" "/proj/out/secret.txt" = true := by
  have hfile : linkedTree.fileSystem.isSymlink "/proj/out/secret.txt" = some false := by
    have hlook : linkedTree.tree.lookup ["proj", "out"] "secret.txt" =
        some .file :=
      Tree.lookup_eq_some.mpr ⟨["outside"], leads_out, rfl⟩
    refine (UnixTree.isSymlink_absText (d := ["proj", "out"])
      (n := "secret.txt") (by decide)).trans ?_
    rw [hlook]
    rfl
  have hlinks : linkAmong linkedTree.fileSystem "/proj/out/" ["secret.txt"] =
      false := by
    rw [linkAmong, show (if endsWith "/" "/proj/out/" then _ else _) ++ _ =
      "/proj/out/secret.txt".toList by decide]
    rw [hfile]
    rfl
  change (some (linkAmong linkedTree.fileSystem "/proj/out/" ["secret.txt"]) ==
    some false) = true
  rw [hlinks]
  rfl

/-- The file outside is granted: by name it is below `/proj`, and below `/proj/out` there is no
link.  No grant names `/outside/secret.txt`. -/
theorem not_placeNamed :
    ¬ ∀ (m : Machine) (t : UnixTree), m.disk.fs = some t.fileSystem → ∀ layer : List Capability,
      (∀ g ∈ layer, g.ty ∈ fileTypes) → ∀ ty ∈ fileTypes, ∀ r,
        PlaceNamed m layer ⟨ty, some r⟩ r := by
  intro h
  have hlayer : ∀ g ∈ linkedLayer, g.ty ∈ fileTypes := by decide
  have hcovers : layerCovers linkedMachine linkedLayer
      ⟨.fileRead, some "/proj/out/secret.txt".toList⟩ = true := by
    refine (layerCovers_file_iff hlayer (by decide) rfl).mpr
      ⟨⟨_, mem_cons_self, by decide⟩, _, mem_cons_of_mem _ mem_cons_self, ?_⟩
    refine (coversPhysically_file_iff (by decide) (by decide) rfl).mpr ⟨rfl, fun s hs => ?_⟩
    cases hs
    rw [pathWithinPhysically_eq, shortCut_out, Bool.true_or]
  obtain ⟨g, hg, -, hplace⟩ := h linkedMachine linkedTree rfl linkedLayer hlayer .fileRead
    (by decide) "/proj/out/secret.txt" _ physicalPath_secret hcovers
  simp only [linkedLayer, List.mem_cons, not_mem_nil, or_false] at hg
  rcases hg with rfl | rfl
  · obtain ⟨base, hbase, hmatch⟩ := hplace _ rfl
    change physicalPath _ _ "/proj" = _ at hbase
    rw [physicalPath_proj] at hbase
    cases hbase
    exact absurd hmatch (by decide)
  · obtain ⟨base, hbase, hmatch⟩ := hplace _ rfl
    change physicalPath _ _ "/proj/out" = _ at hbase
    rw [physicalPath_out] at hbase
    cases hbase
    exact absurd hmatch (by decide)

end Synsema.Capability
