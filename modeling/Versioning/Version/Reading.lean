import Versioning.Version.Basic
import Versioning.Version.Spelling

/-!
Reading versions. A text is first cut into fields; then the pre-release, the build metadata and the
three numbers get their values in this order, and the first that has none is the error.
-/

namespace Versioning

namespace Version

def readComponent : Option (List Char) → Except VersionError Component
  | none => .ok 0
  | some digits =>
      match Component.ofDigits? digits with
      | some component => .ok component
      | none => .error (.componentOverflow (String.ofList digits))

def readBuild (source : String) (text : List Char) : Except VersionError BuildMetadata :=
  match BuildMetadata.ofString? (String.ofList text) with
  | some build => .ok build
  | none => .error (.invalidVersion source)

def ofFields (source : String) (fields : Fields) : Except VersionError Version := do
  let preRelease ← fields.preRelease.mapM fun text => PreRelease.parse (String.ofList text)
  let build ← fields.build.mapM (readBuild source)
  let major ← readComponent (some fields.major)
  let minor ← readComponent fields.minor
  let patch ← readComponent fields.patch
  return ⟨⟨⟨major, minor, patch⟩, preRelease⟩, build⟩

def parse (source : String) : Except VersionError Version :=
  match Spelling.strict.read? source.toList with
  | some fields => ofFields source fields
  | none => .error (.invalidVersion source)

def parseLeniently (source : String) : Except VersionError Version :=
  match Spelling.lenient.read? (Text.trim source.toList) with
  | some fields => ofFields source fields
  | none => .error (.invalidVersion source)

end Version

end Versioning
