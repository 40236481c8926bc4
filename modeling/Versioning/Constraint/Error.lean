import Versioning.Version.Basic

/-!
Why a text is no constraint, and why terms make none.
-/

namespace Versioning

/-- How a text breaks the grammar that it is read in. Indices count bytes of UTF-8. -/
inductive GrammarFault
  | blank
  | emptyAlternative
  | emptySideOfBar (piece : String)
  | wildcardExcluded (descriptor : String)
  | unmatchedOpening (opening : Char) (index : Nat)
  | missingInclusiveLower
  | missingInclusiveUpper
  | exclusiveBoundAlone (body : String)
  | expectedMore (found : Char) (index : Nat)
  | expectedMoreAtEnd
  | trailingInput (index : Nat)
deriving DecidableEq

def GrammarFault.message : GrammarFault → String
  | .blank => "constraint strings may not be blank"
  | .emptyAlternative => "empty alternative"
  | .emptySideOfBar piece => s!"empty alternative around '|' in \"{piece}\""
  | .wildcardExcluded descriptor =>
      s!"\"!={descriptor}\": != excludes one exact version and takes no wildcard"
  | .unmatchedOpening opening index =>
      s!"unmatched opening character '{opening}' at index {index}"
  | .missingInclusiveLower => "interval with unspecified inclusive lower bound"
  | .missingInclusiveUpper => "interval with unspecified inclusive upper bound"
  | .exclusiveBoundAlone body =>
      s!"range with exclusive bound requires two version descriptors: {body}"
  | .expectedMore found index =>
      s!"expecting more version descriptors but got '{found}' at index {index}"
  | .expectedMoreAtEnd => "expecting more version descriptors but reached end of input"
  | .trailingInput index => s!"unexpected trailing input at index {index}"

inductive ConstraintError
  | invalidConstraint (source : String)
  | invalidDescriptor (source : String)
  | invalidOperator (source : String)
  | malformed (source : String) (fault : GrammarFault)
  | invalidRange (start stop : Version)
  | version (error : VersionError)
deriving DecidableEq

def ConstraintError.message : ConstraintError → String
  | .invalidConstraint source => s!"Invalid constraint \"{source}\""
  | .invalidDescriptor source => s!"Invalid version descriptor \"{source}\""
  | .invalidOperator source => s!"Invalid operator \"{source}\""
  | .malformed source fault =>
      let reason := fault.message
      s!"Could not parse version constraint {source}: {reason}"
  | .invalidRange start stop =>
      s!"Invalid range: lower bound {start} is not below upper bound {stop}"
  | .version error => error.message

end Versioning
