import Versioning.Constraint.Satisfaction
import Versioning.Constraint.Journal
import Versioning.Version.Reading

/-!
Queries on plain text. Versions are read leniently and constraints in the standard grammar. What
cannot be read satisfies nothing and is left out of results; what is returned comes back as given.
-/

namespace Versioning

namespace Query

def readable (versions : List String) : List (String × Version) :=
  versions.filterMap fun source =>
    (Version.parseLeniently source).toOption.map fun version => (source, version)

def satisfies (version constraint : String) : Bool :=
  match Version.parseLeniently version, Constraint.parse .standard constraint with
  | .ok version, .ok constraint => constraint.isSatisfiedBy version
  | _, _ => false

/-- What answering `satisfies` reports. The constraint is not read for a version that cannot be. -/
def satisfiesJournal (version constraint : String) : List JournalEntry :=
  match Version.parseLeniently version with
  | .error _ => []
  | .ok _ =>
      Constraint.journal .standard constraint ++
        match Constraint.parse .standard constraint with
        | .ok _ => []
        | .error error => [.ignored constraint error]

def satisfying (versions : List String) (constraint : String) : List (String × Version) :=
  match Constraint.parse .standard constraint with
  | .ok constraint => (readable versions).filter fun item => constraint.isSatisfiedBy item.2
  | .error _ => []

def satisfiedBy (versions : List String) (constraint : String) : List String :=
  (satisfying versions constraint).map Prod.fst

def maxSatisfying (versions : List String) (constraint : String) : Option String :=
  (Version.latestBy? Prod.snd (satisfying versions constraint)).map Prod.fst

/-- The readable texts in ascending order of their versions, equal ones as they came. -/
def sort (versions : List String) : List String :=
  ((readable versions).mergeSort fun a b => (compare a.2 b.2).isLE).map Prod.fst

def sortDescending (versions : List String) : List String :=
  ((readable versions).mergeSort fun a b => (compare b.2 a.2).isLE).map Prod.fst

end Query

end Versioning
