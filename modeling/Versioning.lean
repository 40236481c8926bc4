import Versioning.Version.Increment
import Versioning.Query
import Versioning.Proofs.Constraint.Disjunction
import Versioning.Proofs.Constraint.Equality
import Versioning.Proofs.Constraint.RoundTrip
import Versioning.Proofs.Npm.Releases
import Versioning.Proofs.Version.Next
import Versioning.Proofs.Version.Precedence
import Versioning.Proofs.Version.Parsing
import Versioning.Proofs.Npm.Acceptance
import Versioning.Proofs.Npm.SingleTerm
import Versioning.Proofs.Constraint.InclusiveBounds
import Versioning.Proofs.Constraint.Rereading
import Versioning.Proofs.Maven.Intervals
import Versioning.Proofs.Npm.Layout
import Versioning.Proofs.Constraint.Sublanguage
import Versioning.Proofs.Version.Increment
import Versioning.Proofs.Maven.Exactness
import Versioning.Proofs.Conjunction.Existence
import Versioning.Proofs.Conjunction.Lowering
import Versioning.Proofs.Npm.Lowering
import Versioning.Proofs.Constraint.NormalForm
import Versioning.Proofs.Npm.Hyphen
import Versioning.Proofs.Npm.OpenPositions
import Versioning.Proofs.Constraint.Flattening
import Versioning.Proofs.Conjunction.Overflow
import Versioning.Proofs.Constraint.BoundOrigins
import Versioning.Proofs.Npm.Loose
import Versioning.Proofs.Version.Lenient
import Versioning.Proofs.Query
import Versioning.Proofs.Npm.Overflow
import Versioning.Proofs.Range.Intersection
import Versioning.Proofs.Conjunction.Splitting
import Versioning.Proofs.Npm.Tokens
import Versioning.Proofs.Npm.Faults
