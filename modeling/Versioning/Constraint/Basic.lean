import Versioning.Grammar

/-!
Constraints: a disjunction of branches together with the ranges that it comes down to. The ranges
are the normal form of the branches, so constraints that admit the same versions have the same
ranges, however they are written.
-/

namespace Versioning

structure Constraint where
  branches : List Branch
  grammar : Grammar
  preferred : Option Version
  ranges : Array Range
  ranges_eq : normalize (branches.map Branch.conjunction) = .ok ranges.toList

namespace Constraint

/-- The constraint of some branches. There must be a predicate in them, and each point that has to
be stepped over must have a next one. -/
def ofBranches (branches : List Branch) (grammar : Grammar) (preferred : Option Version) :
    Except ConstraintError Constraint :=
  if branches.all List.isEmpty then .error (.invalidConstraint (grammar.render branches))
  else
    match normal : normalize (branches.map Branch.conjunction) with
    | .ok ranges => .ok ⟨branches, grammar, preferred, ranges.toArray, normal⟩
    | .error error => .error error

/-- Reads a constraint. Branches that make none are reported as an error of the whole text. -/
def parse (grammar : Grammar) (source : String) : Except ConstraintError Constraint := do
  let reading ← grammar.read source
  (ofBranches reading.branches grammar reading.preferred).mapError
    fun _ => .invalidConstraint source

def text (constraint : Constraint) : String := constraint.grammar.render constraint.branches

instance : ToString Constraint := ⟨text⟩

/-- Constraints count as equal when their ranges and their preferred versions are, whatever their
branches and grammars. -/
instance : BEq Constraint :=
  ⟨fun a b => a.ranges == b.ranges && a.preferred == b.preferred⟩

/-- What a hash of a constraint is taken of. Of the preferred version only the point counts. -/
def hashed (constraint : Constraint) : Array Range × Option Point :=
  (constraint.ranges, constraint.preferred.map Version.toPoint)

/-! ### Constraints from constraints -/

def or (constraint other : Constraint) : Except ConstraintError Constraint :=
  ofBranches (constraint.branches ++ other.branches) constraint.grammar constraint.preferred

def and (constraint other : Constraint) : Except ConstraintError Constraint :=
  ofBranches (constraint.branches.map (· ++ other.branches.flatten)) constraint.grammar
    constraint.preferred

def take (constraint : Constraint) (count : Nat) : Except ConstraintError Constraint :=
  ofBranches (constraint.branches.take count) constraint.grammar constraint.preferred

def prefer (constraint : Constraint) (preferred : Option Version) : Constraint :=
  { constraint with preferred }

def inGrammar (constraint : Constraint) (grammar : Grammar) : Constraint :=
  { constraint with grammar }

end Constraint

end Versioning
