import Versioning.Descriptor
import Versioning.Range.Basic

/-!
Restrictions, the terms of the maven grammar. A restriction keeps the form it was written in, and
the range that this form stands for.
-/

namespace Versioning

namespace Maven

inductive Limit
  | absent
  | inclusive (descriptor : Descriptor)
  | exclusive (descriptor : Descriptor)
deriving DecidableEq

def Limit.text : Limit → String
  | .absent => ""
  | .inclusive descriptor => descriptor.text
  | .exclusive descriptor => descriptor.text

def Limit.isInclusive : Limit → Bool
  | .inclusive _ => true
  | _ => false

inductive Form
  | minimum (descriptor : Descriptor)
  | exact (descriptor : Descriptor)
  | interval (lower upper : Limit)
deriving DecidableEq

namespace Form

def text : Form → String
  | .minimum descriptor => descriptor.text
  | .exact descriptor => "[" ++ descriptor.text ++ "]"
  | .interval lower upper =>
      (if lower.isInclusive then "[" else "(") ++ lower.text ++ "," ++ upper.text ++
        (if upper.isInclusive then "]" else ")")

def start : Limit → Except VersionError (Option Point)
  | .absent => .ok none
  | .inclusive descriptor => .ok (some descriptor.floor)
  | .exclusive descriptor => descriptor.floor.next.map some

def stop : Limit → Except VersionError (Option Point)
  | .absent => .ok none
  | .inclusive descriptor => descriptor.floor.next.map some
  | .exclusive descriptor => .ok (some descriptor.floor)

/-- The range that a form stands for, if it holds any version and its bounds exist. -/
def range (form : Form) : Except ConstraintError Range := do
  let (start, stop) ← match form with
    | .minimum descriptor => .ok (some descriptor.floor, none)
    | .exact descriptor => bounds (.inclusive descriptor) (.inclusive descriptor)
    | .interval lower upper => bounds lower upper
  Range.between (start.map Point.toVersion) (stop.map Point.toVersion)
where
  bounds (lower upper : Limit) : Except ConstraintError (Option Point × Option Point) := do
    let start ← (Form.start lower).mapError ConstraintError.version
    let stop ← (Form.stop upper).mapError ConstraintError.version
    return (start, stop)

end Form

@[ext]
structure Restriction where
  form : Form
  range : Range
  range_eq : form.range = .ok range
deriving DecidableEq

namespace Restriction

def ofForm (form : Form) : Except ConstraintError Restriction :=
  match same : form.range with
  | .ok range => .ok ⟨form, range, same⟩
  | .error error => .error error

def text (restriction : Restriction) : String := restriction.form.text

end Restriction

end Maven

end Versioning
