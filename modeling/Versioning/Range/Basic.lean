import Versioning.Comparator
import Versioning.Constraint.Error

/-!
Half-open ranges of points. The start belongs to a range and the stop does not; a bound that is
missing bounds nothing. The start is below the stop where both are present, so a range is empty only
if it stops at the least point.
-/

namespace Versioning

@[ext]
structure Range where
  start : Option Point
  stop : Option Point
  start_lt_stop : ∀ a ∈ start, ∀ b ∈ stop, a < b
deriving DecidableEq

namespace Range

def any : Range := ⟨none, none, by simp⟩

def startingAt (start : Point) : Range := ⟨some start, none, by simp⟩

def stoppingAt (stop : Point) : Range := ⟨none, some stop, by simp⟩

def segment (start stop : Point) (below : start < stop) : Range :=
  ⟨some start, some stop, by simpa using below⟩

/-- The range of no point, `<0.0.0-0`. -/
def empty : Range := stoppingAt .least

/-- The range between two versions, refused unless the first is below the second. -/
def between : Option Version → Option Version → Except ConstraintError Range
  | none, none => .ok any
  | some start, none => .ok (startingAt start.toPoint)
  | none, some stop => .ok (stoppingAt stop.toPoint)
  | some start, some stop =>
      if below : start.toPoint < stop.toPoint then .ok (segment start.toPoint stop.toPoint below)
      else .error (.invalidRange start stop)

def text (range : Range) : String :=
  match range.start, range.stop with
  | none, none => "*"
  | some start, none => s!">={start}"
  | none, some stop => s!"<{stop}"
  | some start, some stop => s!">={start} <{stop}"

instance : ToString Range := ⟨text⟩

def comparators (range : Range) : List Comparator :=
  (range.start.map (Comparator.mk .atLeast)).toList ++
    (range.stop.map (Comparator.mk .below)).toList

def contains (range : Range) (point : Point) : Bool :=
  range.start.all (fun start => start ≤ point) && range.stop.all (fun stop => point < stop)

def floor (range : Range) : Point := range.start.getD .least

def startsBelowStopOf (range other : Range) : Bool :=
  range.start.all fun start => other.stop.all fun stop => start < stop

def intersects (range other : Range) : Bool :=
  range.startsBelowStopOf other && other.startsBelowStopOf range

def isAdjacentTo (range other : Range) : Bool :=
  range.stop.any fun stop => other.start.any fun start => stop == start

def laterStop : Option Point → Option Point → Option Point
  | some a, some b => some (max a b)
  | _, _ => none

private theorem lt_laterStop {a b : Option Point} {start : Point}
    (below : ∀ stop ∈ a, start < stop) :
    ∀ stop ∈ laterStop a b, start < stop := by
  intro stop member
  match a, b with
  | some x, some y =>
      simp only [laterStop, Option.mem_def, Option.some.injEq] at member
      subst member
      have first : start < x := below x rfl
      change start < if x ≤ y then y else x
      split
      · next later => exact Point.lt_of_lt_of_le first later
      · exact first
  | none, _ => simp [laterStop] at member
  | some _, none => simp [laterStop] at member

def extendedBy (range other : Range) : Range :=
  ⟨range.start, laterStop range.stop other.stop,
    fun start member => lt_laterStop (range.start_lt_stop start member)⟩

/-- The range from a lower to an upper bound, if it holds any point. -/
def spanning? (lower upper : Option Point) : Option Range :=
  if below : ∀ stop ∈ upper, lower.getD .least < stop then
    some ⟨lower, upper, by rintro start rfl; exact below⟩
  else none

def before? (range : Range) (point : Point) : Option Range :=
  spanning? range.start (some point)

def after? (range : Range) (point : Point) : Option Range :=
  spanning? (some point) range.stop

def without (range : Range) (point : Point) : Except VersionError (List Range) := do
  let resume ← point.next
  return (range.before? point).toList ++ (range.after? resume).toList

/-- Orders ranges by start and then by stop, missing bounds first. -/
def compareBounds : Range → Range → Ordering := compareLex (compareOn start) (compareOn stop)

end Range

end Versioning
