import Versioning.Conjunction

/-!
Reductions: the steps in which conjunctions lose something on the way to their ranges. They are
recorded in the order in which they happen, up to the step that fails if one does.
-/

namespace Versioning

inductive Reduction
  | clash (point : Point)
  | hollow (floor stop : Point)
  | split (range : Range) (excluded : Point)
deriving DecidableEq

def Reduction.message : Reduction → String
  | .clash point => s!"Dropping conjunction requiring both =={point} and !={point}"
  | .hollow floor stop => s!"Dropping empty conjunction [{floor}, {stop})"
  | .split range excluded => s!"Splitting {range} around !={excluded}"

namespace Conjunction

def splits (ranges : List Range) : List Point → List Reduction
  | [] => []
  | point :: rest =>
      let split := (ranges.find? fun range => range.contains point).map (Reduction.split · point)
      let later :=
        match exclude point ranges with
        | .ok remaining => splits remaining rest
        | .error _ => []
      split.toList ++ later

def reductions (conjunction : Conjunction) : List Reduction :=
  match conjunction.clash? with
  | some point => [.clash point]
  | none =>
      match conjunction.upper with
      | .error _ => []
      | .ok upper =>
          match Range.spanning? conjunction.lower? upper with
          | some interval => splits [interval] (conjunction.references .notEqual)
          | none => upper.toList.map (Reduction.hollow (conjunction.lower?.getD .least))

end Conjunction

def reductions : List Conjunction → List Reduction
  | [] => []
  | conjunction :: rest =>
      conjunction.reductions ++
        match conjunction.ranges with
        | .ok _ => reductions rest
        | .error _ => []

end Versioning
