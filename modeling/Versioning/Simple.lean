import Versioning.Predicate
import Versioning.Text.Cut
import Versioning.Version.Reading

/-!
The simple grammar: alternatives between double bars, and in each the word `*` or conditions with
complete versions, set apart by blanks.
-/

namespace Versioning

namespace Simple

/-- Takes an operator off the front of a word, as long as something is left after it. Without one
the word stands for equality. -/
def splitOperator : List Char → Operator × List Char
  | '<' :: '=' :: c :: rest => (.atMost, c :: rest)
  | '>' :: '=' :: c :: rest => (.atLeast, c :: rest)
  | '!' :: '=' :: c :: rest => (.notEqual, c :: rest)
  | '<' :: c :: rest => (.less, c :: rest)
  | '>' :: c :: rest => (.greater, c :: rest)
  | '=' :: c :: rest => (.equal, c :: rest)
  | word => (.equal, word)

def readTerm (word : List Char) : Except ConstraintError Predicate := do
  let (operator, rest) := splitOperator word
  let version ← (Version.parse (String.ofList rest)).mapError ConstraintError.version
  let condition ← Condition.make operator version
  return .condition condition

def readBranch (source : String) (text : List Char) : Except ConstraintError Branch :=
  match Text.words text with
  | [] => .error (.malformed source .emptyAlternative)
  | [['*']] => .ok [.any]
  | words => words.mapM readTerm

def read (source : String) : Except ConstraintError (List Branch) :=
  if Text.isBlankText source.toList then .error (.malformed source .blank)
  else (Text.cutAtDoubleBars source.toList).mapM (readBranch source)

end Simple

end Versioning
