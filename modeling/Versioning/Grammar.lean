import Versioning.Npm.Grammar
import Versioning.Maven.Grammar
import Versioning.Simple

/-!
The grammars that constraints are read in, and written back in.
-/

namespace Versioning

inductive Grammar
  | npm (options : Npm.Options)
  | maven
  | simple
deriving DecidableEq

/-- What a grammar reads from a text: alternatives, each a list of predicates that must all hold,
and the version to favour among those that satisfy them, if the text names one. -/
structure Reading where
  branches : List Branch
  preferred : Option Version
deriving DecidableEq

namespace Grammar

def standard : Grammar := .npm .standard

def name : Grammar → String
  | .npm _ => "npm"
  | .maven => "maven"
  | .simple => "simple"

def predicateSeparator : Grammar → String
  | .npm _ => " "
  | .maven => ","
  | .simple => " "

def branchSeparator : Grammar → String
  | .npm _ => " || "
  | .maven => ","
  | .simple => " || "

def render (grammar : Grammar) (branches : List Branch) : String :=
  grammar.branchSeparator.intercalate (branches.map fun branch =>
    grammar.predicateSeparator.intercalate (branch.map Predicate.text))

def read (grammar : Grammar) (source : String) : Except ConstraintError Reading :=
  match grammar with
  | .npm options => do
      let branches ← Npm.read options source
      return ⟨branches, none⟩
  | .maven => do
      let (restrictions, preferred) ← Maven.read source
      return ⟨restrictions.map fun restriction => [.restriction restriction], preferred⟩
  | .simple => do
      let branches ← Simple.read source
      return ⟨branches, none⟩

end Grammar

end Versioning
