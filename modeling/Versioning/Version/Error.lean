/-!
Why a text is no version, and why a version has no successor of some kind.
-/

namespace Versioning

inductive PreReleaseFault
  | blank
  | emptyIdentifier
  | foreignCharacter (identifier : String)
  | leadingZero (identifier : String)
deriving DecidableEq

def PreReleaseFault.message : PreReleaseFault → String
  | .blank => "pre-release must not be blank"
  | .emptyIdentifier => "identifiers must not be empty"
  | .foreignCharacter identifier =>
      s!"identifier \"{identifier}\" contains characters outside [0-9A-Za-z-]"
  | .leadingZero identifier => s!"numeric identifier \"{identifier}\" has a leading zero"

inductive VersionError
  | invalidVersion (source : String)
  | invalidPreRelease (source : String) (fault : PreReleaseFault)
  | invalidBuildMetadata (source : String)
  | componentOverflow (component : String)
deriving DecidableEq

def VersionError.message : VersionError → String
  | .invalidVersion source => s!"Invalid version \"{source}\""
  | .invalidPreRelease source fault =>
      let reason := fault.message
      s!"Invalid pre-release \"{source}\": {reason}"
  | .invalidBuildMetadata source => s!"Invalid build metadata \"{source}\""
  | .componentOverflow component => s!"Version component \"{component}\" is out of range"

end Versioning
