import Versioning.Maven.Restriction
import Versioning.Text.Blank
import Versioning.Text.Cut

/-!
The maven grammar: a list of restrictions in brackets with commas between them, or a single
descriptor without brackets, which is a soft requirement. Brackets may face either way; only `[` as
an opening and `]` as a closing character include their bound.
-/

namespace Versioning

namespace Maven

def isOpening (c : Char) : Bool := c == '(' || c == '[' || c == ']'

def isClosing (c : Char) : Bool := c == ')' || c == ']' || c == '['

def readSide (text : List Char) : Except ConstraintError (Option Descriptor) :=
  if Text.isBlankText text then .ok none
  else (Descriptor.ofChars .maven (Text.trim text)).map some

def limit (source : String) (missing : GrammarFault) (inclusive : Bool) :
    Option Descriptor → Except ConstraintError Limit
  | none => if inclusive then .error (.malformed source missing) else .ok .absent
  | some descriptor => .ok (if inclusive then .inclusive descriptor else .exclusive descriptor)

def readForm (source : String) (opening closing : Char) (body : List Char) :
    Except ConstraintError Form := do
  let lowerInclusive := opening == '['
  let upperInclusive := closing == ']'
  match Text.cutOnce? ',' body with
  | some (lower, upper) =>
      let lower ← readSide lower
      let upper ← readSide upper
      let lower ← limit source .missingInclusiveLower lowerInclusive lower
      let upper ← limit source .missingInclusiveUpper upperInclusive upper
      return .interval lower upper
  | none =>
      if lowerInclusive && upperInclusive then
        let descriptor ← Descriptor.ofChars .maven (Text.trim body)
        return .exact descriptor
      else .error (.malformed source (.exclusiveBoundAlone (String.ofList body)))

/-- Where a scan stands: before a restriction, inside one that was opened at an index, with its body
so far in reverse, or behind one. -/
inductive Place
  | before
  | inside (opening : Char) (openedAt : Nat) (body : List Char)
  | behind
deriving DecidableEq

/-- Reads the restrictions of what remains of a source from an index on. -/
def readRestrictions (source : String) (place : Place) (index : Nat) :
    List Char → Except ConstraintError (List Restriction)
  | [] =>
      match place with
      | .before => .error (.malformed source .expectedMoreAtEnd)
      | .inside opening openedAt _ =>
          .error (.malformed source (.unmatchedOpening opening openedAt))
      | .behind => .ok []
  | c :: rest =>
      match place with
      | .before =>
          if isOpening c then
            readRestrictions source (.inside c index []) (index + c.utf8Size) rest
          else .error (.malformed source (.expectedMore c index))
      | .inside opening openedAt body =>
          if isClosing c then do
            let form ← readForm source opening c body.reverse
            let restriction ← Restriction.ofForm form
            let restrictions ← readRestrictions source .behind (index + 1) rest
            return restriction :: restrictions
          else
            readRestrictions source (.inside opening openedAt (c :: body)) (index + c.utf8Size) rest
      | .behind =>
          if c == ',' then readRestrictions source .before (index + 1) rest
          else .error (.malformed source (.trailingInput index))

/-- A single descriptor, which asks for at least its version and prefers it. -/
def readSoftRequirement (text : List Char) :
    Except ConstraintError (List Restriction × Option Version) := do
  let descriptor ← Descriptor.ofChars .maven (Text.trim text)
  let restriction ← Restriction.ofForm (.minimum descriptor)
  return ([restriction], some descriptor.floor.toVersion)

def read (source : String) : Except ConstraintError (List Restriction × Option Version) :=
  let text := source.toList
  if Text.isBlankText text then .error (.malformed source .blank)
  else if text.head?.any isOpening then
    (readRestrictions source .before 0 text).map fun restrictions => (restrictions, none)
  else readSoftRequirement text

end Maven

end Versioning
