import Versioning.Range.Union

/-!
Conjunctions of comparators. A conjunction admits what all of its comparators admit; that is one
interval without some points, hence a list of ranges. It has none where some point is both required
and excluded, or where the bounds leave nothing between them.
-/

namespace Versioning

abbrev Conjunction := List Comparator

namespace Conjunction

def admits (conjunction : Conjunction) (version : Version) : Bool :=
  conjunction.all fun comparator => comparator.admits version

def references (relation : Relation) (conjunction : Conjunction) : List Point :=
  (conjunction.filter fun comparator => comparator.relation = relation).map Comparator.reference

def clash? (conjunction : Conjunction) : Option Point :=
  (conjunction.references .equal).find? fun point =>
    (conjunction.references .notEqual).contains point

/-- The greatest lower bound; one at the least point bounds nothing. -/
def lower? (conjunction : Conjunction) : Option Point :=
  (conjunction.references .atLeast ++ conjunction.references .equal).max?.filter (· ≠ .least)

/-- The least upper bound. A required point bounds by the point after it, which may be missing. -/
def upper (conjunction : Conjunction) : Except VersionError (Option Point) := do
  let stops ← (conjunction.references .equal).mapM Point.next
  return (conjunction.references .below ++ stops).min?

/-- Takes a point out of the first range that contains it. What is left of that range goes behind
the others. -/
def exclude (point : Point) (ranges : List Range) : Except VersionError (List Range) :=
  match ranges.find? fun range => range.contains point with
  | none => .ok ranges
  | some range => do
      let pieces ← range.without point
      return (ranges.eraseP fun range => range.contains point) ++ pieces

def excludeAll (ranges : List Range) : List Point → Except VersionError (List Range)
  | [] => .ok ranges
  | point :: rest => do
      let remaining ← exclude point ranges
      excludeAll remaining rest

/-- The ranges that a conjunction admits. It fails where a point that has to be stepped over has no
next one. -/
def ranges (conjunction : Conjunction) : Except VersionError (List Range) :=
  match conjunction.clash? with
  | some _ => .ok []
  | none => do
      let upper ← conjunction.upper
      match Range.spanning? conjunction.lower? upper with
      | none => return []
      | some interval => excludeAll [interval] (conjunction.references .notEqual)

end Conjunction

/-- The ranges that at least one of some conjunctions admits, in normal form. -/
def normalize (conjunctions : List Conjunction) : Except ConstraintError (List Range) := do
  let ranges ← (conjunctions.mapM Conjunction.ranges).mapError ConstraintError.version
  return Range.union ranges.flatten

end Versioning
