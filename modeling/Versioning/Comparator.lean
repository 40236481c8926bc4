import Versioning.Version.Order

/-!
Comparators. Four relations to a point are enough to express every condition on versions: to be at
most a point is to be below the next one, and to be above it is to be at least the next one.
-/

namespace Versioning

inductive Relation
  | equal
  | notEqual
  | below
  | atLeast
deriving DecidableEq

def Relation.text : Relation → String
  | .equal => "="
  | .notEqual => "!="
  | .below => "<"
  | .atLeast => ">="

def Relation.holds (relation : Relation) (point reference : Point) : Bool :=
  match relation with
  | .equal => point == reference
  | .notEqual => point != reference
  | .below => point < reference
  | .atLeast => reference ≤ point

@[ext]
structure Comparator where
  relation : Relation
  reference : Point
deriving DecidableEq

namespace Comparator

/-- The comparator for a version; its build metadata has no part in it. -/
def ofVersion (relation : Relation) (version : Version) : Comparator :=
  ⟨relation, version.toPoint⟩

def text (comparator : Comparator) : String :=
  comparator.relation.text ++ comparator.reference.text

instance : ToString Comparator := ⟨text⟩

def admits (comparator : Comparator) (version : Version) : Bool :=
  comparator.relation.holds version.toPoint comparator.reference

end Comparator

end Versioning
