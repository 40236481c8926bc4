import Versioning.Version.Order
import Versioning.Version.Spelling
import Versioning.Constraint.Error

/-!
Descriptors: versions of which a part may be left open, such as `1`, `1.x` or `1.2.3-rc.1`. What the
open part stands for is up to the grammar that the descriptor is used in.
-/

namespace Versioning

inductive Wildcard
  | lowerX
  | upperX
  | star
deriving DecidableEq

def Wildcard.text : Wildcard → String
  | .lowerX => "x"
  | .upperX => "X"
  | .star => "*"

inductive Position
  | number (component : Component)
  | wildcard (mark : Wildcard)
deriving DecidableEq

namespace Position

def text : Position → String
  | .number component => component.text
  | .wildcard mark => mark.text

instance : ToString Position := ⟨text⟩

def isNumber : Position → Bool
  | .number _ => true
  | .wildcard _ => false

def component : Position → Component
  | .number component => component
  | .wildcard _ => 0

def ofChars? : List Char → Option Position
  | ['x'] => some (.wildcard .lowerX)
  | ['X'] => some (.wildcard .upperX)
  | ['*'] => some (.wildcard .star)
  | digits => (Component.ofDigits? digits).map .number

end Position

/-- One, two or three positions; suffixes follow three positions only. -/
inductive Descriptor
  | one (major : Position)
  | two (major minor : Position)
  | three (major minor patch : Position) (preRelease : Option PreRelease)
      (build : Option BuildMetadata)
deriving DecidableEq

namespace Descriptor

inductive Dialect
  | npm
  | npmLoose
  | maven
deriving DecidableEq

def Dialect.spelling : Dialect → Spelling
  | .npm =>
      { marks := true, leadingZeros := false, wildcards := true, incomplete := true
        suffixesOnIncomplete := false, bareSuffix := false, build := true }
  | .npmLoose =>
      { marks := true, leadingZeros := true, wildcards := true, incomplete := true
        suffixesOnIncomplete := false, bareSuffix := true, build := true }
  | .maven =>
      { marks := false, leadingZeros := false, wildcards := false, incomplete := true
        suffixesOnIncomplete := false, bareSuffix := false, build := false }

def positions : Descriptor → List Position
  | .one major => [major]
  | .two major minor => [major, minor]
  | .three major minor patch _ _ => [major, minor, patch]

def major : Descriptor → Component
  | .one major => major.component
  | .two major _ => major.component
  | .three major _ _ _ _ => major.component

def minor : Descriptor → Component
  | .one _ => 0
  | .two _ minor => minor.component
  | .three _ minor _ _ _ => minor.component

def patch : Descriptor → Component
  | .one _ => 0
  | .two _ _ => 0
  | .three _ _ patch _ _ => patch.component

def preRelease : Descriptor → Option PreRelease
  | .three _ _ _ preRelease _ => preRelease
  | _ => none

def build : Descriptor → Option BuildMetadata
  | .three _ _ _ _ build => build
  | _ => none

/-- How many numbers lead the descriptor before the first open position. -/
def precision (descriptor : Descriptor) : Nat :=
  (descriptor.positions.takeWhile Position.isNumber).length

def isComplete (descriptor : Descriptor) : Bool := descriptor.precision == 3

def hasWildcard (descriptor : Descriptor) : Bool :=
  descriptor.positions.any fun position => !position.isNumber

/-- The least point described, open positions standing at zero. A pre-release counts only in a
complete descriptor. -/
def floor (descriptor : Descriptor) : Point :=
  ⟨⟨descriptor.major, descriptor.minor, descriptor.patch⟩,
    if descriptor.isComplete then descriptor.preRelease else none⟩

def nextMajor (descriptor : Descriptor) : Except VersionError Point := do
  let major ← descriptor.major.next
  return ⟨⟨major, 0, 0⟩, some .least⟩

def nextMinor (descriptor : Descriptor) : Except VersionError Point := do
  let minor ← descriptor.minor.next
  return ⟨⟨descriptor.major, minor, 0⟩, some .least⟩

def nextPatch (descriptor : Descriptor) : Except VersionError Point := do
  let patch ← descriptor.patch.next
  return ⟨⟨descriptor.major, descriptor.minor, patch⟩, some .least⟩

def text (descriptor : Descriptor) : String :=
  let numbers := ".".intercalate (descriptor.positions.map Position.text)
  let preRelease := descriptor.preRelease.elim "" fun preRelease => "-" ++ preRelease.text
  let build := descriptor.build.elim "" fun build => "+" ++ build.text
  numbers ++ preRelease ++ build

instance : ToString Descriptor := ⟨text⟩

def ofFields (source : String) (fields : Fields) : Except ConstraintError Descriptor := do
  let preRelease ← fields.preRelease.mapM fun text =>
    (PreRelease.parse (String.ofList text)).mapError ConstraintError.version
  let build ← fields.build.mapM fun text =>
    orInvalid (BuildMetadata.ofString? (String.ofList text))
  let major ← orInvalid (Position.ofChars? fields.major)
  let minor ← fields.minor.mapM fun text => orInvalid (Position.ofChars? text)
  let patch ← fields.patch.mapM fun text => orInvalid (Position.ofChars? text)
  match minor, patch with
  | none, _ => return .one major
  | some minor, none => return .two major minor
  | some minor, some patch => return .three major minor patch preRelease build
where
  orInvalid {α : Type} : Option α → Except ConstraintError α
    | some value => .ok value
    | none => .error (.invalidDescriptor source)

def ofChars (dialect : Dialect) (text : List Char) : Except ConstraintError Descriptor :=
  match dialect.spelling.read? text with
  | some fields => ofFields (String.ofList text) fields
  | none => .error (.invalidDescriptor (String.ofList text))

def parse (dialect : Dialect) (source : String) : Except ConstraintError Descriptor :=
  ofChars dialect source.toList

end Descriptor

end Versioning
