import Versioning.Npm.Term
import Versioning.Text.Cut

/-!
The npm grammar: alternatives between bars, terms between blanks. A text is cut into alternatives as
a whole before any of them is read.
-/

namespace Versioning

namespace Npm

abbrev Word := List Char

/-- The words of the alternatives in a piece of text without double bars. An alternative between
double bars may be blank, but next to a single bar none may. -/
def alternativesOfPiece (source : String) (piece : List Char) :
    Except ConstraintError (List (List Word)) :=
  if piece.contains '|' then
    (piece.splitOn '|').mapM fun side =>
      match Text.words side with
      | [] =>
          let collapsed := [' '].intercalate (Text.words piece)
          .error (.malformed source (.emptySideOfBar (String.ofList collapsed)))
      | words => .ok words
  else .ok [Text.words piece]

def alternatives (source : String) : Except ConstraintError (List (List Word)) :=
  ((Text.cutAtDoubleBars source.toList).mapM (alternativesOfPiece source)).map List.flatten

/-- Glues sigils and marks that stand alone to the word that follows. -/
def glue (pending : Word) : List Word → List Word
  | [] => if pending.isEmpty then [] else [pending]
  | word :: rest =>
      let token := pending ++ word
      if Sigil.standsAlone token then glue token rest else token :: glue [] rest

def readTerm (options : Options) (source : String) (token : Word) :
    Except ConstraintError Branch := do
  let (sigil, rest) := Sigil.read token
  let descriptor ← Descriptor.ofChars options.dialect rest
  term options source sigil descriptor

def readTokens (options : Options) (source : String) : List Word → Except ConstraintError Branch
  | [low, ['-'], high] => do
      let low ← Descriptor.ofChars options.dialect low
      let high ← Descriptor.ofChars options.dialect high
      hyphen options low high
  | tokens => (tokens.mapM (readTerm options source)).map List.flatten

def readBranch (options : Options) (source : String) : List Word → Except ConstraintError Branch
  | [] => .ok [.any]
  | words => readTokens options source (glue [] words)

def read (options : Options) (source : String) : Except ConstraintError (List Branch) := do
  let alternatives ← alternatives source
  alternatives.mapM (readBranch options source)

end Npm

end Versioning
