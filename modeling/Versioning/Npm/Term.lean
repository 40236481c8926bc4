import Versioning.Npm.Sigil
import Versioning.Predicate

/-!
The meaning of npm terms. A sigil and a descriptor come down to conditions, most of them bounded by
the least point of a line: `~1.2` is from `1.2.0` on and below `1.3.0-0`. What a term says depends
on how many numbers lead its descriptor.
-/

namespace Versioning

namespace Npm

/-- `loose` accepts leading zeros and pre-releases without a hyphen. With `includePreRelease` ranges
begin at the least pre-release of their lower bound. -/
structure Options where
  loose : Bool
  includePreRelease : Bool
deriving DecidableEq

def Options.standard : Options := ⟨false, false⟩

def Options.dialect (options : Options) : Descriptor.Dialect :=
  if options.loose then .npmLoose else .npm

/-- Where a range begins that is described by its lower end; one without numbers has no start. -/
def lowerBound (options : Options) (descriptor : Descriptor) : Option Point :=
  if descriptor.precision = 0 then none
  else if options.includePreRelease then some descriptor.floor.withLeastPreRelease
  else some descriptor.floor

def bounded (start stop : Option Point) : Except ConstraintError Branch := do
  let range ← Range.between (start.map Point.toVersion) (stop.map Point.toVersion)
  match range.start.toList.map Condition.atLeast ++ range.stop.toList.map Condition.below with
  | [] => return [.any]
  | conditions => return conditions.map Predicate.condition

def single (condition : Condition) : Branch := [.condition condition]

def comparison (operator : Operator) (point : Point) : Except ConstraintError Branch :=
  (Condition.make operator point.toVersion).map single

/-- The first point past the line that an incomplete descriptor leaves open. -/
def nextLine (descriptor : Descriptor) : Except ConstraintError Point :=
  (if descriptor.precision = 1 then descriptor.nextMajor else descriptor.nextMinor).mapError
    ConstraintError.version

def plain (options : Options) (descriptor : Descriptor) : Except ConstraintError Branch := do
  match descriptor.precision with
  | 0 => return [.any]
  | 1 | 2 => bounded (lowerBound options descriptor) (some (← nextLine descriptor))
  | _ => return single (.exactly descriptor.floor)

def tilde (options : Options) (descriptor : Descriptor) : Except ConstraintError Branch := do
  if descriptor.precision = 0 then return [.any]
  else bounded (lowerBound options descriptor) (some (← nextLine descriptor))

/-- The first point past the line in which nothing up to the left-most number other than zero
changes. -/
def caretStop (descriptor : Descriptor) : Except VersionError Point :=
  if descriptor.major ≠ 0 ∨ descriptor.precision = 1 then descriptor.nextMajor
  else if descriptor.minor ≠ 0 ∨ descriptor.precision = 2 then descriptor.nextMinor
  else descriptor.nextPatch

/-- The term `^1.2.3`: all may rise that stands after the left-most number other than zero. -/
def caret (options : Options) (descriptor : Descriptor) : Except ConstraintError Branch := do
  if descriptor.precision = 0 then return [.any]
  else
    let stop ← (caretStop descriptor).mapError ConstraintError.version
    bounded (lowerBound options descriptor) (some stop)

/-- The term `!=1.2.3`: one version is excluded, so no wildcard may follow a number. -/
def notEqual (source : String) (descriptor : Descriptor) : Except ConstraintError Branch :=
  if descriptor.precision = 0 then .ok (single .nothing)
  else if descriptor.hasWildcard then .error (.malformed source (.wildcardExcluded descriptor.text))
  else .ok (single (.excluding descriptor.floor))

/-- The term `<1.2.3`; an incomplete descriptor stands for the start of its line. -/
def less (descriptor : Descriptor) : Branch :=
  match descriptor.precision with
  | 0 => single .nothing
  | 3 => single (.below descriptor.floor)
  | _ => single (.below descriptor.floor.withLeastPreRelease)

def atMost (descriptor : Descriptor) : Except ConstraintError Branch := do
  match descriptor.precision with
  | 0 => return [.any]
  | 3 => comparison .atMost descriptor.floor
  | _ => return single (.below (← nextLine descriptor))

def greater (descriptor : Descriptor) : Except ConstraintError Branch := do
  match descriptor.precision with
  | 0 => return single .nothing
  | 3 => comparison .greater descriptor.floor
  | _ => return single (.atLeast (← nextLine descriptor))

def atLeast (options : Options) (descriptor : Descriptor) : Except ConstraintError Branch :=
  match descriptor.precision with
  | 0 => .ok [.any]
  | 3 => .ok (single (.atLeast descriptor.floor))
  | _ => bounded (lowerBound options descriptor) none

def term (options : Options) (source : String) (sigil : Sigil) (descriptor : Descriptor) :
    Except ConstraintError Branch :=
  match sigil with
  | .plain => plain options descriptor
  | .tilde => tilde options descriptor
  | .caret => caret options descriptor
  | .notEqual => notEqual source descriptor
  | .less => .ok (less descriptor)
  | .atMost => atMost descriptor
  | .greater => greater descriptor
  | .atLeast => atLeast options descriptor

def hyphenStop (high : Descriptor) : Except VersionError (Option Point) :=
  match high.precision with
  | 0 => .ok none
  | 1 => high.nextMajor.map some
  | 2 => high.nextMinor.map some
  | _ => high.floor.next.map some

/-- The range `1.2.3 - 2.3.4`: from the lower end on, up to the whole of what the upper end
describes. -/
def hyphen (options : Options) (low high : Descriptor) : Except ConstraintError Branch := do
  let stop ← (hyphenStop high).mapError ConstraintError.version
  let branch ← bounded (lowerBound options low) stop
  if high.isComplete then
    let last ← comparison .atMost high.floor
    return branch.dropLast ++ last
  else return branch

end Npm

end Versioning
