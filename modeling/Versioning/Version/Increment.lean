import Versioning.Version.Order

/-!
Increments. Each of them leads to a version that stands above the one it starts from, and none
keeps build metadata.
-/

namespace Versioning

inductive Increment
  | major
  | minor
  | patch
  | preRelease
deriving DecidableEq

namespace Version

def nextMajor (version : Version) (requested : Option String) : Except VersionError Version := do
  let preRelease ← requested.mapM PreRelease.parse
  let major ← version.major.next
  return ⟨⟨⟨major, 0, 0⟩, preRelease⟩, none⟩

def nextMinor (version : Version) (requested : Option String) : Except VersionError Version := do
  let preRelease ← requested.mapM PreRelease.parse
  let minor ← version.minor.next
  return ⟨⟨⟨version.major, minor, 0⟩, preRelease⟩, none⟩

/-- The next patch version, a pre-release of it if one is requested. Where none is, a pre-release
leads to the release of its own core. -/
def nextPatch (version : Version) (requested : Option String) : Except VersionError Version :=
  if requested.isNone && version.isPreRelease then .ok version.withoutSuffixes
  else do
    let patch ← version.patch.next
    let preRelease ← requested.mapM PreRelease.parse
    return ⟨⟨⟨version.major, version.minor, patch⟩, preRelease⟩, none⟩

/-- The next pre-release. A release leads to the requested pre-release of the next patch version, or
to the least one. A pre-release leads to the requested one if that is above it, else to the one that
follows in its series. -/
def nextPreRelease (version : Version) (requested : Option String) :
    Except VersionError Version := do
  let requested ← requested.mapM PreRelease.parse
  match version.preRelease with
  | none =>
      let patch ← version.patch.next
      return ⟨⟨⟨version.major, version.minor, patch⟩, some (requested.getD .least)⟩, none⟩
  | some current =>
      let following :=
        match requested with
        | some preRelease =>
            if compare preRelease current = .gt then preRelease else current.increment
        | none => current.increment
      return ⟨⟨version.toCore, some following⟩, none⟩

def increment (version : Version) (part : Increment) (requested : Option String) :
    Except VersionError Version :=
  match part with
  | .major => version.nextMajor requested
  | .minor => version.nextMinor requested
  | .patch => version.nextPatch requested
  | .preRelease => version.nextPreRelease requested

end Version

end Versioning
