import Versioning.Comparator
import Versioning.Constraint.Error

/-!
Conditions: an operator and a version. Every condition comes down to one comparator. The operators
that draw their line just above the version need the next point, so a condition with one of them
exists only where there is a next point.
-/

namespace Versioning

inductive Operator
  | equal
  | notEqual
  | less
  | atMost
  | greater
  | atLeast
deriving DecidableEq

namespace Operator

def text : Operator → String
  | .equal => "="
  | .notEqual => "!="
  | .less => "<"
  | .atMost => "<="
  | .greater => ">"
  | .atLeast => ">="

instance : ToString Operator := ⟨text⟩

def spellings : List (String × Operator) :=
  [("=", .equal), ("==", .equal), ("!=", .notEqual), ("<", .less), ("<=", .atMost),
    ("=<", .atMost), (">", .greater), (">=", .atLeast), ("=>", .atLeast)]

def parse (source : String) : Except ConstraintError Operator :=
  match spellings.lookup source with
  | some operator => .ok operator
  | none => .error (.invalidOperator source)

def comparator (operator : Operator) (point : Point) : Except VersionError Comparator :=
  match operator with
  | .equal => .ok ⟨.equal, point⟩
  | .notEqual => .ok ⟨.notEqual, point⟩
  | .less => .ok ⟨.below, point⟩
  | .atMost => point.next.map (Comparator.mk .below)
  | .greater => point.next.map (Comparator.mk .atLeast)
  | .atLeast => .ok ⟨.atLeast, point⟩

end Operator

@[ext]
structure Condition where
  operator : Operator
  version : Version
  comparator : Comparator
  comparator_eq : operator.comparator version.toPoint = .ok comparator
deriving DecidableEq

namespace Condition

def make (operator : Operator) (version : Version) : Except ConstraintError Condition :=
  match same : operator.comparator version.toPoint with
  | .ok comparator => .ok ⟨operator, version, comparator, same⟩
  | .error error => .error (.version error)

def exactly (point : Point) : Condition := ⟨.equal, point.toVersion, ⟨.equal, point⟩, rfl⟩

def excluding (point : Point) : Condition := ⟨.notEqual, point.toVersion, ⟨.notEqual, point⟩, rfl⟩

def below (point : Point) : Condition := ⟨.less, point.toVersion, ⟨.below, point⟩, rfl⟩

def atLeast (point : Point) : Condition := ⟨.atLeast, point.toVersion, ⟨.atLeast, point⟩, rfl⟩

def nothing : Condition := below .least

def text (condition : Condition) : String := condition.operator.text ++ condition.version.text

end Condition

end Versioning
