import Versioning.Condition
import Versioning.Conjunction
import Versioning.Maven.Restriction

/-!
Predicates, the terms that constraints are made of. Each comes down to comparators that must all
hold, and is written in the form of its grammar.
-/

namespace Versioning

inductive Predicate
  | any
  | condition (term : Condition)
  | range (term : Range)
  | restriction (term : Maven.Restriction)
deriving DecidableEq

namespace Predicate

def comparators : Predicate → List Comparator
  | .any => []
  | .condition term => [term.comparator]
  | .range term => term.comparators
  | .restriction term => term.range.comparators

def text : Predicate → String
  | .any => "*"
  | .condition term => term.text
  | .range term => term.text
  | .restriction term => term.text

def admits (predicate : Predicate) (version : Version) : Bool :=
  Conjunction.admits predicate.comparators version

end Predicate

abbrev Branch := List Predicate

namespace Branch

def conjunction (branch : Branch) : Conjunction := branch.flatMap Predicate.comparators

def admits (branch : Branch) (version : Version) : Bool :=
  branch.all fun predicate => predicate.admits version

end Branch

end Versioning
