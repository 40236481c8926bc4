import Versioning.Proofs.Conjunction.Existence
import Versioning.Proofs.Normalization

/-!
Conjunctions of two bounds. A half-open interval names no point that would have to be stepped over,
so it always has ranges, and its bounds can be told from the points that it holds. The comparators
of a range are such a conjunction; hence ranges in normal form are their own normal form.
-/

namespace Versioning

open Range (Covers IsCanonical)

namespace Conjunction

/-- From a start on and below a stop. A bound that is missing bounds nothing. -/
def interval (start stop : Option Point) : Conjunction :=
  (start.map (Comparator.mk .atLeast)).toList ++ (stop.map (Comparator.mk .below)).toList

variable {start stop : Option Point} {point first last : Point} {range : Range}

theorem holdsAt_interval_iff : (interval start stop).HoldsAt point ↔
    (∀ bound ∈ start, bound ≤ point) ∧ ∀ bound ∈ stop, point < bound := by
  cases start <;> cases stop <;> simp [HoldsAt, interval, Relation.holds]

theorem exists_ranges_of_bounds {conjunction : Conjunction}
    (bounding : ∀ comparator ∈ conjunction,
      comparator.relation = .atLeast ∨ comparator.relation = .below) :
    ∃ ranges, Conjunction.ranges conjunction = .ok ranges := by
  refine exists_ranges_iff.mpr (.inr ⟨fun point member => ?_, fun point member => ?_⟩)
  · exact absurd (bounding _ (mem_references_iff.mp member)) (by simp)
  · exact absurd (bounding _ (mem_references_iff.mp member)) (by simp)

theorem relation_of_mem_interval {comparator : Comparator}
    (member : comparator ∈ interval start stop) :
    comparator.relation = .atLeast ∨ comparator.relation = .below := by
  rcases List.mem_append.mp member with starts | stops
  · obtain ⟨point, -, rfl⟩ := Option.map_eq_some_iff.mp (Option.mem_toList.mp starts)
    exact .inl rfl
  · obtain ⟨point, -, rfl⟩ := Option.map_eq_some_iff.mp (Option.mem_toList.mp stops)
    exact .inr rfl

theorem exists_ranges_interval (start stop : Option Point) :
    ∃ ranges, Conjunction.ranges (interval start stop) = .ok ranges :=
  exists_ranges_of_bounds fun _ => relation_of_mem_interval

/-- An interval that stops above the least point holds some point exactly if it starts below its
stop. -/
theorem exists_holdsAt_interval_iff (positive : ∀ bound ∈ stop, Point.least < bound) :
    (∃ point, (interval start stop).HoldsAt point) ↔
      ∀ first ∈ start, ∀ last ∈ stop, first < last := by
  simp only [holdsAt_interval_iff]
  constructor
  · rintro ⟨point, above, below⟩ first starts last stops
    exact (above first starts).trans_lt (below last stops)
  · intro ordered
    cases start with
    | none => exact ⟨.least, by simp, positive⟩
    | some first => exact ⟨first, by simp, ordered first rfl⟩

theorem start_eq_of_holdsAt_iff (below : ∀ bound ∈ stop, first < bound)
    (belowOther : ∀ bound ∈ stop, last < bound)
    (same : ∀ point, (interval (some first) stop).HoldsAt point ↔
      (interval (some last) stop).HoldsAt point) : first = last := by
  simp only [holdsAt_interval_iff, Option.mem_some_iff, forall_eq'] at same
  apply le_antisymm
  · exact ((same last).mpr ⟨le_rfl, belowOther⟩).1
  · exact ((same first).mp ⟨le_rfl, below⟩).1

theorem stop_eq_of_holdsAt_iff (same : ∀ point, (interval none (some first)).HoldsAt point ↔
    (interval none (some last)).HoldsAt point) : first = last := by
  simp only [holdsAt_interval_iff, Option.mem_some_iff, forall_eq', Option.not_mem_none,
    false_implies, implies_true, true_and] at same
  apply le_antisymm
  · exact not_lt.mp fun above => lt_irrefl last ((same last).mp above)
  · exact not_lt.mp fun above => lt_irrefl first ((same first).mpr above)

/-! ### Ranges as intervals -/

theorem holdsAt_comparators_iff :
    HoldsAt range.comparators point ↔ range.contains point = true := by
  have same : range.comparators = interval range.start range.stop := rfl
  rw [same, holdsAt_interval_iff, Range.contains]
  simp only [Bool.and_eq_true, Option.all_eq_true, Option.mem_def, decide_eq_true_eq]

theorem admits_comparators_iff {version : Version} :
    Conjunction.admits range.comparators version = true ↔
      range.contains version.toPoint = true :=
  admits_iff.trans holdsAt_comparators_iff

theorem exists_ranges_comparators (range : Range) :
    ∃ ranges, Conjunction.ranges range.comparators = .ok ranges :=
  exists_ranges_interval range.start range.stop

end Conjunction

/-- Ranges in normal form are left as they are. -/
theorem normalize_comparators {ranges : List Range} (canonical : IsCanonical ranges) :
    normalize (ranges.map Range.comparators) = .ok ranges := by
  obtain ⟨others, normal⟩ : ∃ others, normalize (ranges.map Range.comparators) = .ok others :=
    exists_normalize_iff.mpr (List.forall_mem_map.mpr fun range _ =>
      Conjunction.exists_ranges_comparators range)
  have same : others = ranges := by
    apply (isCanonical_normalize normal).eq_of_covers_iff canonical
    intro point
    rw [covers_normalize normal]
    simp only [List.mem_map, exists_exists_and_eq_and, Conjunction.holdsAt_comparators_iff, Covers]
  rw [normal, same]

end Versioning
