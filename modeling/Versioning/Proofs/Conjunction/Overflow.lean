import Versioning.Proofs.Conjunction.Existence
import Versioning.Proofs.Normalization

/-!
Disjunctions that have no normal form. The last release of a line has no next point, and a
disjunction fails exactly if one of its conjunctions would have to step over such a release. This is
a matter of which comparators there are and not of their order.
-/

namespace Versioning

theorem Component.eq_overflow_of_next {component : Component} {error : VersionError}
    (failed : component.next = .error error) :
    error = .componentOverflow "18446744073709551615 + 1" := by
  obtain ⟨greatest, rfl⟩ := next_eq_error_iff.mp failed
  obtain rfl : component = ⟨limit, le_rfl⟩ := Component.ext greatest
  rfl

theorem Point.eq_overflow_of_next {point : Point} {error : VersionError}
    (failed : point.next = .error error) :
    error = .componentOverflow "18446744073709551615 + 1" := by
  unfold Point.next at failed
  split at failed
  · rcases Outcome.bind_eq_error_iff.mp failed with bump | ⟨_, _, impossible⟩
    · exact Component.eq_overflow_of_next bump
    · cases impossible
  · cases failed

namespace Conjunction

variable {conjunction other : Conjunction} {ranges : List Range} {point : Point}
  {error : VersionError}

/-! ### Errors -/

private theorem next_of_exclude (failed : exclude point ranges = .error error) :
    point.next = .error error := by
  rcases exclude_cases point ranges with ⟨-, kept⟩ | ⟨front, range, back, -, -, -, taken⟩
  · rw [kept] at failed
    cases failed
  · rw [taken] at failed
    exact Outcome.bind_pure_eq_error_iff.mp (Outcome.map_eq_error_iff.mp failed)

private theorem exists_next_of_excludeAll {points : List Point}
    (failed : excludeAll ranges points = .error error) :
    ∃ point : Point, point.next = .error error := by
  induction points generalizing ranges with
  | nil => cases failed
  | cons point rest ih =>
      rcases Outcome.bind_eq_error_iff.mp failed with first | ⟨_, _, later⟩
      · exact ⟨point, next_of_exclude first⟩
      · exact ih later

private theorem exists_next_of_upper (failed : conjunction.upper = .error error) :
    ∃ point : Point, point.next = .error error := by
  rcases Outcome.bind_eq_error_iff.mp failed with stops | ⟨_, _, impossible⟩
  · obtain ⟨_, point, _, -, -, next⟩ := Outcome.mapM_eq_error_iff.mp stops
    exact ⟨point, next⟩
  · cases impossible

/-- The only error of a conjunction is that a point has no next one. -/
theorem exists_next_of_ranges (failed : conjunction.ranges = .error error) :
    ∃ point : Point, point.next = .error error := by
  unfold Conjunction.ranges at failed
  split at failed
  · cases failed
  · rcases Outcome.bind_eq_error_iff.mp failed with stop | ⟨_, _, found⟩
    · exact exists_next_of_upper stop
    · split at found
      · cases found
      · exact exists_next_of_excludeAll found

/-! ### Releases in the way -/

theorem isSome_clash?_iff : conjunction.clash?.isSome = true ↔
    ∃ point, ⟨.equal, point⟩ ∈ conjunction ∧ ⟨.notEqual, point⟩ ∈ conjunction := by
  rw [clash?, List.find?_isSome]
  simp only [List.contains_iff_mem, mem_references_iff]

private theorem holdsAt_bounds_iff : conjunction.bounds.HoldsAt point ↔
    ∀ comparator ∈ conjunction, comparator.relation ≠ .notEqual →
      comparator.relation.holds point comparator.reference = true := by
  simp only [HoldsAt, bounds, List.mem_filter, decide_eq_true_eq, and_imp]

/-- Whether the last release of a line has to be stepped over: no point is both required and
excluded, and such a release is required, or it is excluded and all other comparators admit it. -/
structure StepsOverLast (conjunction : Conjunction) : Prop where
  noClash : ∀ point, ⟨.equal, point⟩ ∈ conjunction → ⟨.notEqual, point⟩ ∉ conjunction
  last : (∃ point, ⟨.equal, point⟩ ∈ conjunction ∧ point.IsLastOfLine) ∨
    ∃ point, ⟨.notEqual, point⟩ ∈ conjunction ∧ point.IsLastOfLine ∧
      ∀ comparator ∈ conjunction, comparator.relation ≠ .notEqual →
        comparator.relation.holds point comparator.reference = true

theorem not_exists_ranges_iff :
    (¬∃ ranges, conjunction.ranges = .ok ranges) ↔ conjunction.StepsOverLast := by
  rw [exists_ranges_iff, isSome_clash?_iff]
  simp only [mem_references_iff, holdsAt_bounds_iff]
  constructor
  · intro none
    push Not at none
    obtain ⟨apart, steps⟩ := none
    refine ⟨apart, ?_⟩
    by_cases required : ∀ point, ⟨.equal, point⟩ ∈ conjunction → ¬point.IsLastOfLine
    · obtain ⟨point, excluded, inside, last⟩ := steps required
      exact .inr ⟨point, excluded, last, inside⟩
    · push Not at required
      exact .inl required
  · rintro ⟨apart, last⟩ (⟨point, required, excluded⟩ | ⟨required, excluded⟩)
    · exact apart point required excluded
    · rcases last with ⟨point, member, last⟩ | ⟨point, member, last, inside⟩
      · exact required point member last
      · exact excluded point member inside last

theorem StepsOverLast.of_mem_iff (steps : conjunction.StepsOverLast)
    (same : ∀ comparator, comparator ∈ conjunction ↔ comparator ∈ other) : other.StepsOverLast := by
  obtain ⟨apart, last⟩ := steps
  simp only [same] at apart last
  exact ⟨apart, last⟩

end Conjunction

/-! ### Disjunctions -/

variable {conjunctions others : List Conjunction} {error : ConstraintError}

private theorem eq_overflow_of_normalize (failed : normalize conjunctions = .error error) :
    error = .version (.componentOverflow "18446744073709551615 + 1") := by
  rcases Outcome.bind_eq_error_iff.mp failed with each | ⟨_, _, impossible⟩
  · cases found : conjunctions.mapM Conjunction.ranges with
    | ok lists =>
        rw [found] at each
        cases each
    | error cause =>
        rw [found] at each
        cases each
        obtain ⟨_, conjunction, _, -, -, first⟩ := Outcome.mapM_eq_error_iff.mp found
        obtain ⟨point, next⟩ := Conjunction.exists_next_of_ranges first
        rw [Point.eq_overflow_of_next next]
  · cases impossible

theorem exists_normalize_eq_error_iff : (∃ error, normalize conjunctions = .error error) ↔
    ∃ conjunction ∈ conjunctions, conjunction.StepsOverLast := by
  rw [Outcome.exists_eq_error_iff, exists_normalize_iff]
  push Not
  simp only [← Conjunction.not_exists_ranges_iff, not_exists]

private theorem exists_stepsOverLast_iff_of_reordered {reordered : List Conjunction}
    (each : List.Forall₂ List.Perm conjunctions reordered) (order : reordered.Perm others) :
    (∃ conjunction ∈ others, conjunction.StepsOverLast) ↔
      ∃ conjunction ∈ conjunctions, conjunction.StepsOverLast := by
  constructor
  · rintro ⟨conjunction, member, steps⟩
    obtain ⟨other, among, same⟩ := Outcome.exists_mem_of_forall₂ each (order.mem_iff.mpr member)
    exact ⟨other, among, steps.of_mem_iff fun _ => same.symm.mem_iff⟩
  · rintro ⟨conjunction, member, steps⟩
    obtain ⟨other, among, same⟩ := Outcome.exists_mem_of_forall₂ each.flip member
    exact ⟨other, order.mem_iff.mp among, steps.of_mem_iff fun _ => same.mem_iff⟩

/-- A disjunction has no normal form exactly if one of its conjunctions would have to step over the
last release of a line, and the error is always the same. The order of the conjunctions, and that of
the comparators in each of them, has no part in this. -/
theorem normalize_eq_error_iff (conjunctions : List Conjunction) (error : ConstraintError) :
    (normalize conjunctions = .error error ↔
      error = .version (.componentOverflow "18446744073709551615 + 1") ∧
        ∃ conjunction ∈ conjunctions, conjunction.StepsOverLast) ∧
    ∀ reordered others : List Conjunction, List.Forall₂ List.Perm conjunctions reordered →
      reordered.Perm others →
        (normalize others = .error error ↔ normalize conjunctions = .error error) := by
  have fails (list : List Conjunction) : normalize list = .error error ↔
      error = .version (.componentOverflow "18446744073709551615 + 1") ∧
        ∃ conjunction ∈ list, conjunction.StepsOverLast := by
    rw [← exists_normalize_eq_error_iff]
    constructor
    · intro failed
      exact ⟨eq_overflow_of_normalize failed, error, failed⟩
    · rintro ⟨rfl, cause, failed⟩
      rw [failed, eq_overflow_of_normalize failed]
  refine ⟨fails conjunctions, fun reordered others each order => ?_⟩
  rw [fails, fails, exists_stepsOverLast_iff_of_reordered each order]

theorem normalize_eq_error_iff_reordered :
    ∃ last : Point, last.IsLastOfLine ∧
      normalize [[⟨.atLeast, .least⟩, ⟨.notEqual, last⟩], [⟨.equal, .least⟩]] =
        .error (.version (.componentOverflow "18446744073709551615 + 1")) ∧
      normalize [[⟨.equal, .least⟩], [⟨.notEqual, last⟩, ⟨.atLeast, .least⟩]] =
        .error (.version (.componentOverflow "18446744073709551615 + 1")) := by
  let last : Point := Core.toPoint ⟨1, 0, ⟨Component.limit, le_rfl⟩⟩
  have isLast : last.IsLastOfLine := ⟨rfl, rfl⟩
  have steps : Conjunction.StepsOverLast [⟨.atLeast, .least⟩, ⟨.notEqual, last⟩] :=
    ⟨by simp, .inr ⟨last, by simp, isLast, by decide⟩⟩
  obtain ⟨fails, unordered⟩ := normalize_eq_error_iff
    [[⟨.atLeast, .least⟩, ⟨.notEqual, last⟩], [⟨.equal, .least⟩]]
    (.version (.componentOverflow "18446744073709551615 + 1"))
  have failed := fails.mpr ⟨rfl, _, List.mem_cons_self, steps⟩
  refine ⟨last, isLast, failed, (unordered _ _ ?_ (List.Perm.swap _ _ [])).mpr failed⟩
  exact .cons (List.Perm.swap _ _ []) (.cons (List.Perm.refl _) .nil)

end Versioning
