import Versioning.Proofs.Conjunction
import Versioning.Proofs.Version.Next

/-!
Which conjunctions have ranges. A point without a next one is in the way only where it has to be
stepped over: where it is required, or where it is excluded and the bounds admit it. In a clash
nothing is stepped over.
-/

namespace Versioning

open Range (Covers)

namespace Conjunction

variable {conjunction : Conjunction} {ranges : List Range} {point : Point}

/-! ### Excluded points -/

private theorem exists_exclude_iff :
    (∃ remaining, exclude point ranges = .ok remaining) ↔
      (Covers ranges point → ¬point.IsLastOfLine) := by
  rcases exclude_cases point ranges with
    ⟨outside, kept⟩ | ⟨front, range, back, split, -, inside, taken⟩
  · exact iff_of_true ⟨ranges, kept⟩ fun covered => (outside covered).elim
  · have covered : Covers ranges point := by
      rw [split, Range.covers_append, Range.covers_cons]
      exact .inr (.inl inside)
    rw [taken, forall_prop_of_true covered, ← Point.exists_next_iff]
    constructor
    · intro ⟨remaining, found⟩
      obtain ⟨pieces, removed, -⟩ := Outcome.map_eq_ok_iff.mp found
      obtain ⟨resume, next, -⟩ := Range.pieces_of_without removed
      exact ⟨resume, next⟩
    · intro ⟨resume, next⟩
      unfold Range.without
      rw [next]
      exact ⟨_, rfl⟩

theorem exists_excludeAll_iff {points : List Point} (fragments : Range.AreFragments ranges) :
    (∃ remaining, excludeAll ranges points = .ok remaining) ↔
      ∀ point ∈ points, Covers ranges point → ¬point.IsLastOfLine := by
  induction points generalizing ranges with
  | nil => exact iff_of_true ⟨ranges, rfl⟩ (List.forall_mem_nil _)
  | cons point rest ih =>
      rw [List.forall_mem_cons, ← exists_exclude_iff]
      constructor
      · rintro ⟨remaining, found⟩
        obtain ⟨between, removed, found⟩ := Outcome.bind_eq_ok_iff.mp found
        obtain ⟨fragmentsBetween, coveredBetween⟩ := exclude_fragments fragments removed
        refine ⟨⟨between, removed⟩, fun other member covered => ?_⟩
        by_cases same : other = point
        · subst same
          exact exists_exclude_iff.mp ⟨between, removed⟩ covered
        · exact (ih fragmentsBetween).mp ⟨remaining, found⟩ other member
            ((coveredBetween other).mpr ⟨covered, same⟩)
      · rintro ⟨⟨between, removed⟩, others⟩
        obtain ⟨fragmentsBetween, coveredBetween⟩ := exclude_fragments fragments removed
        obtain ⟨remaining, found⟩ := (ih fragmentsBetween).mpr fun other member covered =>
          others other member ((coveredBetween other).mp covered).1
        exact ⟨remaining, Outcome.bind_eq_ok_iff.mpr ⟨between, removed, found⟩⟩

/-! ### Bounds -/

/-- A conjunction without what it excludes. -/
def bounds (conjunction : Conjunction) : Conjunction :=
  conjunction.filter fun comparator => comparator.relation ≠ .notEqual

private theorem references_bounds {relation : Relation} (bounding : relation ≠ .notEqual) :
    conjunction.bounds.references relation = conjunction.references relation := by
  unfold references bounds
  rw [List.filter_filter]
  congr 2
  funext comparator
  by_cases related : comparator.relation = relation <;> simp [related, bounding]

private theorem notEqual_references_bounds : conjunction.bounds.references .notEqual = [] := by
  simp [references, bounds, List.filter_filter]

theorem covers_spanning?_iff {stop : Option Point} (found : conjunction.upper = .ok stop) :
    Covers (Range.spanning? conjunction.lower? stop).toList point ↔
      conjunction.bounds.HoldsAt point := by
  have lowers : conjunction.bounds.lower? = conjunction.lower? := by
    simp only [lower?, references_bounds, ne_eq, reduceCtorEq, not_false_eq_true]
  have uppers : conjunction.bounds.upper = conjunction.upper := by
    simp only [upper, references_bounds, ne_eq, reduceCtorEq, not_false_eq_true]
  rw [holdsAt_iff_covers (uppers.trans found), lowers, notEqual_references_bounds]
  exact (and_iff_left List.not_mem_nil).symm

private theorem exists_upper_iff :
    (∃ stop, conjunction.upper = .ok stop) ↔
      ∀ point ∈ conjunction.references .equal, ¬point.IsLastOfLine := by
  simp only [← Point.exists_next_iff]
  rw [← Outcome.exists_mapM_eq_ok_iff]
  constructor
  · rintro ⟨stop, found⟩
    obtain ⟨stops, next, -⟩ := Outcome.bind_eq_ok_iff.mp found
    exact ⟨stops, next⟩
  · rintro ⟨stops, next⟩
    exact ⟨_, Outcome.bind_eq_ok_iff.mpr ⟨stops, next, rfl⟩⟩

/-! ### Ranges -/

/-- A conjunction has ranges unless the last release of a line has to be stepped over. -/
theorem exists_ranges_iff :
    (∃ ranges, conjunction.ranges = .ok ranges) ↔ conjunction.clash?.isSome = true ∨
      (∀ point ∈ conjunction.references .equal, ¬point.IsLastOfLine) ∧
        ∀ point ∈ conjunction.references .notEqual,
          conjunction.bounds.HoldsAt point → ¬point.IsLastOfLine := by
  rw [← exists_upper_iff]
  unfold Conjunction.ranges
  cases clashes : conjunction.clash? with
  | some clash => exact iff_of_true ⟨[], rfl⟩ (.inl rfl)
  | none =>
      rw [or_iff_right (by decide)]
      cases stops : conjunction.upper with
      | error => exact iff_of_false nofun fun ⟨⟨_, found⟩, _⟩ => nomatch found
      | ok stop =>
          simp only [← covers_spanning?_iff stops]
          rw [and_iff_right ⟨stop, rfl⟩]
          dsimp only [bind, Except.bind]
          cases spans : Range.spanning? conjunction.lower? stop with
          | none =>
              exact iff_of_true ⟨[], rfl⟩ fun _ _ covered => (Range.covers_nil covered).elim
          | some interval =>
              have proper := Range.isProper_of_spanning? least_lt_of_lower? spans
              exact exists_excludeAll_iff (.singleton proper)

end Conjunction

end Versioning
