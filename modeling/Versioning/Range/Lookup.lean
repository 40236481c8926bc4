import Versioning.Range.Basic

/-!
Looking up the range that contains a point, by bisection. The ranges have to be in ascending order
and apart from each other, as those of a union are.
-/

namespace Versioning

namespace Range

def standing (range : Range) (point : Point) : Ordering :=
  if range.contains point then .eq
  else if range.start.any fun start => point < start then .gt
  else .lt

def lookupBetween? (ranges : Array Range) (point : Point) (low high : Nat)
    (bound : high ≤ ranges.size) : Option Range :=
  if nonempty : low < high then
    let middle := low + (high - low) / 2
    have inside : middle < ranges.size := by omega
    match ranges[middle].standing point with
    | .eq => some ranges[middle]
    | .gt => lookupBetween? ranges point low middle (by omega)
    | .lt => lookupBetween? ranges point (middle + 1) high bound
  else none
termination_by high - low

def lookup? (ranges : Array Range) (point : Point) : Option Range :=
  lookupBetween? ranges point 0 ranges.size (Nat.le_refl _)

end Range

end Versioning
