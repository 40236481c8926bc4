import Versioning.Text.DecimalDigit
import Versioning.Text.Blank
import Versioning.Version.PreRelease

/-!
Spellings of versions. Strict and lenient versions, and the partial versions of the constraint
grammars, are all written as numbers, a pre-release and build metadata in this order. They differ in
a few permissions, which a spelling collects. One reader serves them all; it cuts a text into fields
and gives none of them a value yet.
-/

namespace Versioning

/-- What may be written. `marks` are blanks, `v` and `=` in front, `leadingZeros` admit digits of
any script too, and a `bareSuffix` is a pre-release that begins with a letter, without a hyphen. -/
structure Spelling where
  marks : Bool
  leadingZeros : Bool
  wildcards : Bool
  incomplete : Bool
  suffixesOnIncomplete : Bool
  bareSuffix : Bool
  build : Bool
deriving DecidableEq

@[ext]
structure Fields where
  major : List Char
  minor : Option (List Char)
  patch : Option (List Char)
  preRelease : Option (List Char)
  build : Option (List Char)
deriving DecidableEq

namespace Spelling

def isMark (c : Char) : Bool := c == 'v' || c == '=' || Text.isBlank c

def isWildcard (c : Char) : Bool := c == 'x' || c == 'X' || c == '*'

def isSuffixChar (c : Char) : Bool := isIdentifierChar c || c == '.'

def number? (spelling : Spelling) : List Char → Option (List Char × List Char)
  | [] => none
  | c :: rest =>
      if spelling.wildcards && isWildcard c then some ([c], rest)
      else if c == '0' && !spelling.leadingZeros then some ([c], rest)
      else if c.isDigit || (spelling.leadingZeros && Text.isDecimalDigit c) then
        some (c :: rest.takeWhile Text.isDecimalDigit, rest.dropWhile Text.isDecimalDigit)
      else none

def position? (spelling : Spelling) : List Char → Option (Option (List Char) × List Char)
  | '.' :: rest => (spelling.number? rest).map fun (number, rest) => (some number, rest)
  | text => some (none, text)

def suffix? (text : List Char) : Option (Option (List Char) × List Char) :=
  let run := text.takeWhile isSuffixChar
  if run.isEmpty then none else some (some run, text.dropWhile isSuffixChar)

def preRelease? (spelling : Spelling) : List Char → Option (Option (List Char) × List Char)
  | [] => some (none, [])
  | c :: rest =>
      if c == '-' then suffix? rest
      else if spelling.bareSuffix && c.isAlpha then suffix? (c :: rest)
      else some (none, c :: rest)

def build? (spelling : Spelling) : List Char → Option (Option (List Char) × List Char)
  | [] => some (none, [])
  | c :: rest =>
      if spelling.build && c == '+' then suffix? rest else some (none, c :: rest)

/-- Cuts a text into its fields, if the whole of it is written in this spelling. -/
def read? (spelling : Spelling) (text : List Char) : Option Fields := do
  let text := if spelling.marks then text.dropWhile isMark else text
  let (major, text) ← spelling.number? text
  let (minor, text) ← spelling.position? text
  let (patch, text) ← spelling.position? text
  guard (patch.isSome || spelling.incomplete)
  guard (text.isEmpty || patch.isSome || spelling.suffixesOnIncomplete)
  let (preRelease, text) ← spelling.preRelease? text
  let (build, text) ← spelling.build? text
  guard text.isEmpty
  return ⟨major, minor, patch, preRelease, build⟩

def strict : Spelling :=
  { marks := false, leadingZeros := false, wildcards := false, incomplete := false
    suffixesOnIncomplete := false, bareSuffix := false, build := true }

/-- Versions as people write them: `v1`, `=1.2`, `1.0.0beta`. -/
def lenient : Spelling :=
  { marks := true, leadingZeros := false, wildcards := false, incomplete := true
    suffixesOnIncomplete := true, bareSuffix := true, build := true }

end Spelling

end Versioning
