import Versioning.Constraint.Basic
import Versioning.Range.Lookup
import Versioning.Version.Latest

/-!
Satisfaction. A version must lie in one of a constraint's ranges. A pre-release must moreover be
asked for: by the caller, or by a bound of its range that is a pre-release of the same core.
-/

namespace Versioning

def Range.namesPreReleaseOf (range : Range) (core : Core) : Bool :=
  let names := fun (bound : Point) => bound.isPreRelease && bound.toCore == core
  range.start.any names || range.stop.any names

namespace Constraint

/-- Decides a constraint. The flag says whether pre-releases are asked for in general. -/
def admits (constraint : Constraint) (includePreRelease : Bool) (version : Version) : Bool :=
  match Range.lookup? constraint.ranges version.toPoint with
  | none => false
  | some range =>
      !version.isPreRelease || includePreRelease || range.namesPreReleaseOf version.toCore

def isSatisfiedBy (constraint : Constraint) (version : Version) : Bool :=
  constraint.admits false version

def isSatisfiedByAll (constraint : Constraint) (versions : List Version) : Bool :=
  versions.all constraint.isSatisfiedBy

def isSatisfiedByAny (constraint : Constraint) (versions : List Version) : Bool :=
  versions.any constraint.isSatisfiedBy

/-- Picks a satisfying candidate: the first that compares equal to the preferred version, else the
latest. -/
def select (constraint : Constraint) (candidates : List Version) : Option Version :=
  let satisfying := candidates.filter constraint.isSatisfiedBy
  let favoured := constraint.preferred.bind fun preferred =>
    satisfying.find? fun candidate => compare candidate preferred == .eq
  favoured.or (Version.latest? satisfying)

end Constraint

namespace Version

def satisfies (version : Version) (constraint : Constraint) : Bool :=
  constraint.isSatisfiedBy version

def satisfiesAll (version : Version) (constraints : List Constraint) : Bool :=
  constraints.all version.satisfies

def satisfiesAny (version : Version) (constraints : List Constraint) : Bool :=
  constraints.any version.satisfies

end Version

end Versioning
