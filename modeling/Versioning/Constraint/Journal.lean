import Versioning.Constraint.Basic
import Versioning.Reduction

/-!
Journals: what reading a constraint has to report, line by line. Reductions are traces, written also
when normalization fails after them; a finished constraint is summed up in one more entry.
-/

namespace Versioning

inductive JournalEntry
  | reduced (reduction : Reduction)
  | parsed (grammar : Grammar) (source : String) (branches ranges : Nat)
  | ignored (source : String) (error : ConstraintError)
deriving DecidableEq

namespace JournalEntry

def level : JournalEntry → String
  | .reduced _ => "TRACE"
  | .parsed _ _ _ _ => "DEBUG"
  | .ignored _ _ => "DEBUG"

def message : JournalEntry → String
  | .reduced reduction => reduction.message
  | .parsed grammar source branches ranges =>
      let name := grammar.name
      s!"Parsed {name} constraint \"{source}\" into {branches} branch(es), {ranges} range(s)"
  | .ignored source error =>
      let reason := error.message
      s!"Ignoring invalid constraint \"{source}\": {reason}"

def line (entry : JournalEntry) : String := entry.level ++ " " ++ entry.message

end JournalEntry

namespace Constraint

/-- What reading a constraint reports. A text that its grammar refuses leaves no entry. -/
def journal (grammar : Grammar) (source : String) : List JournalEntry :=
  match grammar.read source with
  | .error _ => []
  | .ok reading =>
      let traces := (reductions (reading.branches.map Branch.conjunction)).map JournalEntry.reduced
      match ofBranches reading.branches grammar reading.preferred with
      | .error _ => traces
      | .ok constraint =>
          traces ++
            [.parsed grammar source constraint.branches.length constraint.ranges.size]

end Constraint

end Versioning
