import Versioning.Range.Basic

/-!
Unions of ranges. The union of a list of ranges is written as ranges in ascending order that neither
overlap nor touch.
-/

namespace Versioning

namespace Range

def meets (range next : Range) : Bool := range.intersects next || range.isAdjacentTo next

def coalesceFrom (current : Range) : List Range → List Range
  | [] => [current]
  | next :: rest =>
      if current.meets next then coalesceFrom (current.extendedBy next) rest
      else current :: coalesceFrom next rest

def coalesce : List Range → List Range
  | [] => []
  | range :: rest => coalesceFrom range rest

def inOrder (ranges : List Range) : List Range :=
  ranges.mergeSort fun a b => (compareBounds a b).isLE

/-- The union of ranges. Where there are none it is the empty range. -/
def union (ranges : List Range) : List Range :=
  match coalesce (inOrder ranges) with
  | [] => [empty]
  | joined => joined

end Range

end Versioning
