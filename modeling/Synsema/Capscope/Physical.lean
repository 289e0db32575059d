import Synsema.Capscope.Path

/-!
# Paths on disk

Where a path leads on disk once its links are followed, and whether that place is
inside what a scope names (`synsema-core/src/capscope.rs`, `resolve_physical` and
below).

The disk is a parameter: `FileSystem` holds the three calls the code makes.  Without
one (the code compiled for wasm) the comparison by name decides.
-/

namespace Synsema

/-- What the code asks of the disk, of an absolute path. -/
structure FileSystem where
  /-- `std::fs::canonicalize`. -/
  canonicalize : Text → Option Text
  /-- `std::fs::symlink_metadata`: whether the path, which exists, is a link. -/
  isSymlink : Text → Option Bool
  /-- `std::fs::read_link`. -/
  readLink : Text → Option Text

/-- The disk, and the place of a file already open (`with_physical`). -/
structure Disk where
  fs : Option FileSystem
  /-- The absolute path and the place on disk that stands for it. -/
  physicalOverride : Option (Text × Text)

namespace Capscope

open Text

/-- Where a path leads on disk. -/
inductive Physical where
  | path (p : Text)
  /-- There is no disk. -/
  | noFs
  | unresolved
deriving DecidableEq

/-- How many links are followed before giving up. -/
def maxLinkHops : Nat := 40

/-- How many components below the base the quick test looks at. -/
def fastPathDepth : Nat := 4

/-! ## Resolution -/

/-- The absolute lexical path: the current directory and the normalised path. -/
def absoluteLexical (m : Platform) (p : Text) : Option Text :=
  let norm := normalizePath m (cleanVerbatim p)
  if isRooted norm then some (driveRoot norm)
  else m.currentDir.map fun cwd => normalizePath m (cleanVerbatim cwd ++ "/" ++ norm)

/-- The literal part of a scope, up to its first segment with a wildcard, and the
pattern behind it. -/
def splitScope (m : Platform) (scope : Text) : Text × Option Text :=
  let norm := normalizePath m scope
  let segs := split '/' norm
  match segs.findIdx? wild with
  | none => (driveRoot norm, none)
  | some i =>
    let literal := join "/".toList (segs.take i)
    let literal :=
      if literal.isEmpty then if startsWith "/".toList norm then "/".toList else ".".toList
      else driveRoot literal
    (literal, some (join "/".toList (segs.drop i)))

/-- The place that `with_physical` fixes for an absolute path. -/
def overridden (d : Disk) (abs : Text) : Option Text :=
  (d.physicalOverride.filter fun o => o.1 == abs).map Prod.snd

/-- A scope whose literal part is the path of `with_physical` is judged by its place,
with the pattern behind. -/
def overriddenBase (m : Platform) (d : Disk) (abs : Text) : Option Text :=
  match splitScope m abs with
  | (_, none) => none
  | (literal, some pattern) =>
    (overridden d literal).map fun real =>
      trimEndMatches (· == '/') real ++ "/" ++ pattern

/-- A path with more segments behind it. -/
def pushSegments (out : Text) (rest : List Text) : Text :=
  rest.foldl (fun out seg ↦ (if endsWith "/" out then out else out ++ "/") ++ seg) out

/-- What stands at the deepest ancestor of a path that exists. -/
inductive Ancestor where
  /-- Its place on disk, and the segments below it. -/
  | real (p : Text) (rest : List Text)
  /-- A link that does not resolve, its directory, and the segments below it. -/
  | link (p dir : Text) (rest : List Text)
  | unresolved

/-- The deepest existing ancestor of `root` and the segments, the last one first. -/
def deepestAncestor (fs : FileSystem) (root : Text) : List Text → List Text → Ancestor
  | segs, rest =>
    let cur := root ++ join "/" segs.reverse
    match fs.canonicalize cur with
    | some real => .real real rest
    | none =>
      match fs.isSymlink cur, segs with
      | some true, segs => .link cur (root ++ join "/" segs.tail.reverse) rest
      | some false, _ => .unresolved
      | none, [] => .unresolved
      | none, name :: segs => deepestAncestor fs root segs (name :: rest)

/-- The path that a link's target names, below the link's directory on disk.  A `..`
after a name of the target is not interpreted. -/
def linkTarget (m : Platform) (fs : FileSystem) (dir rawTarget : Text) : Option Text :=
  let target := cleanVerbatim rawTarget
  let segs := (split '/' target).filter fun s => !s.isEmpty && s ≠ ".".toList
  if (segs.dropWhile (· == "..".toList)).contains "..".toList then none
  else if isRooted target then some (driveRoot (normalizePath m target))
  else
    (fs.canonicalize dir).map fun real =>
      driveRoot (normalizePath m (cleanVerbatim real ++ "/" ++ join "/" segs))

/-- The place of an absolute path on disk, after at most `hops` links. -/
def resolvePhysical (m : Platform) (fs : FileSystem) : Nat → Text → Physical
  | 0, _ => .unresolved
  | hops + 1, abs =>
    let (root, segs) := splitPath abs
    match deepestAncestor fs root segs.reverse [] with
    | .real real rest => .path (pushSegments (cleanVerbatim real) rest)
    | .link p dir rest =>
      match fs.readLink p >>= linkTarget m fs dir with
      | some next => resolvePhysical m fs hops (pushSegments next rest)
      | none => .unresolved
    | .unresolved => .unresolved

/-- Where the path leads on disk. -/
def physicalPath (m : Platform) (d : Disk) (p : Text) : Physical :=
  match d.fs with
  | none => .noFs
  | some fs =>
    match absoluteLexical m p with
    | none => .unresolved
    | some abs =>
      match (overridden d abs).or (overriddenBase m d abs) with
      | some real => .path real
      | none => resolvePhysical m fs maxLinkHops abs

/-! ## Scopes on disk -/

/-- The literal base of the scope on disk, and the pattern behind it. -/
def physicalScopeParts (m : Platform) (d : Disk) (scope : Text) :
    Except Physical (Text × Option Text) :=
  let (literal, pattern) := splitScope m scope
  match physicalPath m d literal with
  | .path base => .ok (base, pattern)
  | other => .error other

/-- The rest of `r` below the base `b`, which ends at a `/`. -/
def beneath (b r : Text) : Option Text :=
  if r == b then some []
  else
    match stripPrefix b r with
    | some rest => if startsWith "/" rest || b.isEmpty then some rest else none
    | none => none

/-- Is the path under the base, and does its rest match the pattern? -/
def physicalMatch (base : Text) (pattern : Option Text) (r : Text) : Bool :=
  match beneath (trimEndMatches (· == '/') base) r with
  | none => false
  | some rest =>
    let rest := rest.dropWhile (· == '/')
    match pattern with
    | none => rest.isEmpty
    | some p => pathGlob rest p

/-- Is one of the components below `cur` a link?  Up to the first that does not
exist. -/
def linkAmong (fs : FileSystem) (cur : Text) : List Text → Bool
  | [] => false
  | seg :: rest =>
    let cur := (if endsWith "/" cur then cur else cur ++ "/") ++ seg
    match fs.isSymlink cur with
    | some true => true
    | some false => linkAmong fs cur rest
    | none => false

/-- Is there a link between the literal base of a scope and the requested path?
`none` leaves the answer to the slow test. -/
def linkBelowBase (m : Platform) (d : Disk) (base req : Text) : Option Bool :=
  match d.fs with
  | none => some false
  | some fs => do
    let base ← absoluteLexical m base
    let req ← absoluteLexical m req
    let b := trimEndMatches (· == '/') base
    let below ← if req == b then some []
      else (stripPrefix b req).filter fun r => startsWith "/" r
    let rest := (split '/' below).filter fun s => !s.isEmpty
    if fastPathDepth < rest.length then none
    else return linkAmong fs (b ++ "/") rest

/-- Is the requested path, on disk, inside the scope? -/
def pathWithinPhysically (m : Platform) (d : Disk) (scope req : Text) : Bool :=
  if d.physicalOverride.isNone
      && linkBelowBase m d (splitScope m scope).1 req == some false then true
  else
    match physicalScopeParts m d scope, physicalPath m d req with
    | .error .noFs, _ => true
    | _, .noFs => true
    | .ok (base, pattern), .path r => physicalMatch base pattern r
    | _, _ => false

/-- Does the requested path reach, on disk, what a denied scope names? -/
def pathReachesPhysically (m : Platform) (d : Disk) (scope req : Text) : Bool :=
  match physicalScopeParts m d scope, physicalPath m d req with
  | .error .noFs, _ => false
  | _, .noFs => false
  | .ok (base, pattern), .path r => physicalMatch base pattern r
  | .error _, _ => false
  | .ok _, .unresolved => true

end Capscope

end Synsema
