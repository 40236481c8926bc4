import Versioning.Proofs.Range.Union

/-!
Which ranges intersect. Ranges that are not empty have a point in common exactly if either begins
below the stop of the other. A missing start stands below all points in this comparison, even below
the stop of the empty range, so two ranges without a start intersect also where one of them is
empty.
-/

namespace Versioning

namespace Range

variable {range other : Range}

theorem floor_lt_stop_of_ne_empty (nonempty : range ≠ empty) :
    ∀ stop ∈ range.stop, range.floor < stop := by
  intro stop stops
  cases starts : range.start with
  | some start =>
      rw [floor, starts]
      exact range.start_lt_stop start starts stop stops
  | none =>
      rw [floor, starts]
      apply lt_of_le_of_ne (Point.least_le stop)
      intro least
      apply nonempty
      apply Range.ext
      · exact starts
      · rw [stops, ← least]
        rfl

private theorem least_lt_stop_of_ne_empty (nonempty : range ≠ empty) :
    ∀ stop ∈ range.stop, Point.least < stop := by
  intro stop stops
  exact (Point.least_le range.floor).trans_lt (floor_lt_stop_of_ne_empty nonempty stop stops)

theorem exists_contains_iff (nonempty : range ≠ empty) (nonemptyOther : other ≠ empty) :
    (∃ point, range.contains point = true ∧ other.contains point = true) ↔
      (∀ stop ∈ other.stop, range.floor < stop) ∧ ∀ stop ∈ range.stop, other.floor < stop := by
  constructor
  · intro common
    obtain ⟨point, inside, within⟩ := common
    obtain ⟨above, below⟩ := contains_iff.mp inside
    obtain ⟨aboveOther, belowOther⟩ := contains_iff.mp within
    constructor
    · intro stop stops
      exact above.trans_lt (belowOther stop stops)
    · intro stop stops
      exact aboveOther.trans_lt (below stop stops)
  · intro ⟨begins, beginsOther⟩
    have own := floor_lt_stop_of_ne_empty nonempty
    have ownOther := floor_lt_stop_of_ne_empty nonemptyOther
    refine ⟨max range.floor other.floor, ?_, ?_⟩
    · apply contains_iff.mpr
      exact ⟨le_max_left _ _, fun stop stops => max_lt (own stop stops) (beginsOther stop stops)⟩
    · apply contains_iff.mpr
      exact ⟨le_max_right _ _, fun stop stops => max_lt (begins stop stops) (ownOther stop stops)⟩

private theorem intersects_iff_exists_contains (nonempty : range ≠ empty)
    (nonemptyOther : other ≠ empty) :
    range.intersects other = true ↔
      ∃ point, range.contains point = true ∧ other.contains point = true := by
  rw [intersects, Bool.and_eq_true, exists_contains_iff nonempty nonemptyOther,
    startsBelowStopOf_iff (least_lt_stop_of_ne_empty nonemptyOther),
    startsBelowStopOf_iff (least_lt_stop_of_ne_empty nonempty)]

private theorem intersects_comm (range other : Range) :
    range.intersects other = other.intersects range :=
  Bool.and_comm _ _

/-- The empty range stops below every start, and in this comparison below every start only. -/
theorem intersects_empty_iff : range.intersects empty = true ↔ range.start = none := by
  have always : empty.startsBelowStopOf range = true := rfl
  rw [intersects, always, Bool.and_true, startsBelowStopOf]
  cases range.start with
  | none => simp
  | some start => simpa [empty, stoppingAt] using Point.least_le start

/-- Two ranges intersect exactly if there is a version in both, or if one of them is empty and the
other has no start either. Which of the two comes first has no part in this. -/
theorem intersects_iff_exists_version (range other : Range) :
    (range.intersects other = true ↔
      (∃ version : Version, range.contains version.toPoint = true ∧
        other.contains version.toPoint = true) ∨
      (range = empty ∧ other.start = none ∨ other = empty ∧ range.start = none)) ∧
    range.intersects other = other.intersects range := by
  refine ⟨?_, intersects_comm range other⟩
  have common : (∃ version : Version, range.contains version.toPoint = true ∧
      other.contains version.toPoint = true) ↔
        ∃ point, range.contains point = true ∧ other.contains point = true := by
    constructor
    · intro ⟨version, both⟩
      exact ⟨version.toPoint, both⟩
    · intro ⟨point, both⟩
      exact ⟨point.toVersion, both⟩
  rw [common]
  by_cases hollow : range = empty
  · subst range
    have startless : other = empty → other.start = none := by
      intro same
      rw [same]
      rfl
    rw [intersects_comm, intersects_empty_iff]
    simp only [not_contains_empty, Bool.false_eq_true, false_and, exists_false, false_or, true_and]
    constructor
    · exact Or.inl
    · intro either
      exact either.elim id fun both => startless both.1
  · by_cases hollowOther : other = empty
    · subst other
      rw [intersects_empty_iff]
      simp only [not_contains_empty, Bool.false_eq_true, and_false, exists_false, false_or, hollow,
        false_and, true_and]
    · rw [intersects_iff_exists_contains hollow hollowOther]
      simp only [hollow, hollowOther, false_and, or_false]

/-- The range of all points intersects the empty one, though no version is in the latter. -/
theorem intersects_empty_without_common_version :
    any.intersects empty = true ∧
      ¬∃ version : Version, any.contains version.toPoint = true ∧
        empty.contains version.toPoint = true := by
  refine ⟨rfl, ?_⟩
  intro ⟨version, _, inside⟩
  exact not_contains_empty version.toPoint inside

end Range

end Versioning
