import Versioning.Text.Blank
import Versioning.Version.Component

/-!
Pre-releases: dot-separated identifiers such as `alpha.1`. Numeric identifiers compare as numbers
and stand below alphanumeric ones, which compare in ASCII order; of two lists of which one begins
the other, the shorter stands below.
-/

namespace Versioning

def isIdentifierChar (c : Char) : Bool := c.isAlphanum || c == '-'

def isAlphanumericText (text : String) : Bool :=
  text.toList.all isIdentifierChar && !text.toList.all Char.isDigit

inductive Identifier
  | numeric (value : Nat)
  | alphanumeric (text : String) (valid : isAlphanumericText text = true)
deriving DecidableEq

namespace Identifier

def text : Identifier → String
  | .numeric value => toString value
  | .alphanumeric text _ => text

instance : ToString Identifier := ⟨text⟩

def ofChars (text : List Char) : Except PreReleaseFault Identifier :=
  if text.isEmpty then .error .emptyIdentifier
  else if valid : text.all isIdentifierChar then
    if digits : text.all Char.isDigit then
      if 1 < text.length ∧ text.head? = some '0' then
        .error (.leadingZero (String.ofList text))
      else .ok (.numeric (Nat.ofDigitChars 10 text 0))
    else .ok (.alphanumeric (String.ofList text) (by simp [isAlphanumericText, valid, digits]))
  else .error (.foreignCharacter (String.ofList text))

protected def compare : Identifier → Identifier → Ordering
  | .numeric a, .numeric b => Ord.compare a b
  | .numeric _, .alphanumeric _ _ => .lt
  | .alphanumeric _ _, .numeric _ => .gt
  | .alphanumeric a _, .alphanumeric b _ => Ord.compare a b

instance : Ord Identifier := ⟨Identifier.compare⟩

instance : Std.TransOrd Identifier where
  eq_swap {a b} :=
    match a, b with
    | .numeric _, .numeric _ => Std.OrientedOrd.eq_swap (α := Nat)
    | .numeric _, .alphanumeric _ _ => rfl
    | .alphanumeric _ _, .numeric _ => rfl
    | .alphanumeric _ _, .alphanumeric _ _ => Std.OrientedOrd.eq_swap (α := String)
  isLE_trans {a b c} first second :=
    match a, b, c with
    | .numeric _, .numeric _, .numeric _ => Std.TransOrd.isLE_trans (α := Nat) first second
    | .numeric _, _, .alphanumeric _ _ => rfl
    | .alphanumeric _ _, .alphanumeric _ _, .alphanumeric _ _ =>
        Std.TransOrd.isLE_trans (α := String) first second
    | .numeric _, .alphanumeric _ _, .numeric _ => absurd second Bool.false_ne_true
    | .alphanumeric _ _, .numeric _, _ => absurd first Bool.false_ne_true
    | .alphanumeric _ _, .alphanumeric _ _, .numeric _ => absurd second Bool.false_ne_true

instance : Std.LawfulEqOrd Identifier where
  compare_self {a} :=
    match a with
    | .numeric _ => Std.ReflOrd.compare_self (α := Nat)
    | .alphanumeric _ _ => Std.ReflOrd.compare_self (α := String)
  eq_of_compare {a b} same :=
    match a, b with
    | .numeric _, .numeric _ =>
        congrArg Identifier.numeric (Std.LawfulEqOrd.eq_of_compare (α := Nat) same)
    | .numeric _, .alphanumeric _ _ => absurd same Ordering.noConfusion
    | .alphanumeric _ _, .numeric _ => absurd same Ordering.noConfusion
    | .alphanumeric _ _, .alphanumeric _ _ => by
        obtain rfl := Std.LawfulEqOrd.eq_of_compare (α := String) same
        rfl

end Identifier

@[ext]
structure PreRelease where
  identifiers : List Identifier
  identifiers_ne_nil : identifiers ≠ []
deriving DecidableEq

namespace PreRelease

instance : Ord PreRelease := ⟨compareOn identifiers⟩

instance : Std.TransOrd PreRelease := inferInstanceAs (Std.TransCmp (compareOn identifiers))

instance : Std.LawfulEqOrd PreRelease where
  eq_of_compare same := PreRelease.ext (Std.LawfulEqOrd.eq_of_compare (α := List Identifier) same)

def text (preRelease : PreRelease) : String :=
  ".".intercalate (preRelease.identifiers.map Identifier.text)

instance : ToString PreRelease := ⟨text⟩

def least : PreRelease := ⟨[.numeric 0], by decide⟩

def leading (preRelease : PreRelease) : Identifier :=
  preRelease.identifiers.head preRelease.identifiers_ne_nil

private theorem ne_nil_of_mapM {f : List Char → Except PreReleaseFault Identifier}
    {pieces : List (List Char)} {identifiers : List Identifier}
    (read : pieces.mapM f = .ok identifiers) (some_piece : pieces ≠ []) : identifiers ≠ [] := by
  cases pieces with
  | nil => exact absurd rfl some_piece
  | cons piece rest =>
      rintro rfl
      rw [List.mapM_cons] at read
      cases first : f piece with
      | error => simp [first, bind, Except.bind] at read
      | ok value =>
          cases others : rest.mapM f with
          | error => simp [first, others, bind, Except.bind] at read
          | ok values => simp [first, others, bind, Except.bind, pure, Except.pure] at read

def ofChars (text : List Char) : Except PreReleaseFault PreRelease :=
  if Text.isBlankText text then .error .blank
  else
    match read : (text.splitOn '.').mapM Identifier.ofChars with
    | .error fault => .error fault
    | .ok identifiers =>
        .ok ⟨identifiers, ne_nil_of_mapM read (List.splitOn_ne_nil _ _)⟩

def parse (source : String) : Except VersionError PreRelease :=
  (ofChars source.toList).mapError (VersionError.invalidPreRelease source)

/-- Adds one to the last number that is below the component limit. -/
def bumpLastNumber? : List Identifier → Option (List Identifier)
  | [] => none
  | identifier :: rest =>
      match bumpLastNumber? rest with
      | some bumped => some (identifier :: bumped)
      | none =>
          match identifier with
          | .numeric value =>
              if value < Component.limit then some (.numeric (value + 1) :: rest) else none
          | .alphanumeric _ _ => none

private theorem bumpLastNumber?_ne_nil {identifiers bumped : List Identifier}
    (found : bumpLastNumber? identifiers = some bumped) : bumped ≠ [] := by
  rintro rfl
  cases identifiers with
  | nil => contradiction
  | cons identifier rest =>
      unfold bumpLastNumber? at found
      repeat' split at found
      all_goals simp at found

/-- This pre-release with `.0` appended: nothing stands between the two. -/
def next (preRelease : PreRelease) : PreRelease :=
  ⟨preRelease.identifiers ++ [.numeric 0], by simp⟩

/-- The pre-release that follows in a series: `alpha.2` after `alpha.1`, `alpha.0` after `alpha`. -/
def increment (preRelease : PreRelease) : PreRelease :=
  match bumped : bumpLastNumber? preRelease.identifiers with
  | some identifiers => ⟨identifiers, bumpLastNumber?_ne_nil bumped⟩
  | none => preRelease.next

end PreRelease

end Versioning
