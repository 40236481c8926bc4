import Versioning.Version.PreRelease

/-!
Versions. A version has a core of three components, perhaps a pre-release, and perhaps build
metadata. Build metadata has no part in precedence, so what precedence sees of a version is a type
of its own, the point: ranges and comparators are made of points.
-/

namespace Versioning

def isBuildText (text : List Char) : Bool :=
  (text.splitOn '.').all fun part => !part.isEmpty && part.all isIdentifierChar

@[ext]
structure BuildMetadata where
  text : String
  valid : isBuildText text.toList = true
deriving DecidableEq

def BuildMetadata.ofString? (text : String) : Option BuildMetadata :=
  if valid : isBuildText text.toList = true then some ⟨text, valid⟩ else none

@[ext]
structure Core where
  major : Component
  minor : Component
  patch : Component
deriving DecidableEq

/-- A place in the order of precedence. -/
@[ext]
structure Point extends Core where
  preRelease : Option PreRelease
deriving DecidableEq

@[ext]
structure Version extends Point where
  build : Option BuildMetadata
deriving DecidableEq

def Core.text (core : Core) : String := s!"{core.major}.{core.minor}.{core.patch}"

instance : ToString Core := ⟨Core.text⟩

def Core.toPoint (core : Core) : Point := ⟨core, none⟩

namespace Point

def text (point : Point) : String :=
  match point.preRelease with
  | none => point.toCore.text
  | some preRelease => s!"{point.toCore}-{preRelease}"

instance : ToString Point := ⟨text⟩

def least : Point := ⟨⟨0, 0, 0⟩, some .least⟩

def isPreRelease (point : Point) : Bool := point.preRelease.isSome

def toVersion (point : Point) : Version := ⟨point, none⟩

/-- The same point if it is a pre-release, else the least pre-release of its core. -/
def withLeastPreRelease (point : Point) : Point :=
  { point with preRelease := some (point.preRelease.getD .least) }

/-- The next point in the order of precedence: nothing stands between the two. The release with the
greatest patch of its line has none. -/
def next (point : Point) : Except VersionError Point :=
  match point.preRelease with
  | none => do
      let patch ← point.patch.next
      return ⟨⟨point.major, point.minor, patch⟩, some .least⟩
  | some preRelease => .ok ⟨point.toCore, some preRelease.next⟩

end Point

namespace Version

def text (version : Version) : String :=
  match version.build with
  | none => version.toPoint.text
  | some build =>
      let mark := build.text
      s!"{version.toPoint}+{mark}"

instance : ToString Version := ⟨text⟩

def release (major minor patch : Component) : Version := ⟨⟨⟨major, minor, patch⟩, none⟩, none⟩

def least : Version := Point.least.toVersion

def isStable (version : Version) : Bool := 0 < version.major.value && !version.isPreRelease

def withoutBuild (version : Version) : Version := version.toPoint.toVersion

def withoutSuffixes (version : Version) : Version := version.toCore.toPoint.toVersion

def next (version : Version) : Except VersionError Version :=
  version.toPoint.next.map Point.toVersion

def ofParts (major minor patch : Component) (preRelease build : Option String) :
    Except VersionError Version := do
  let preRelease ← preRelease.mapM PreRelease.parse
  let build ← build.mapM fun text =>
    match BuildMetadata.ofString? text with
    | some build => .ok build
    | none => .error (.invalidBuildMetadata text)
  return ⟨⟨⟨major, minor, patch⟩, preRelease⟩, build⟩

end Version

end Versioning
