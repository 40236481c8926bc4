import Versioning.Predicate
import Versioning.Proofs.Version.Next

/-!
Conditions as they are meant. An operator says how a version has to compare to the one behind it.
The four relations of comparators express all six operators, because to be up to a point is to be
before the next one; where there is no next point the two operators that need it make no condition.
Build metadata is dropped where the version becomes a point.
-/

namespace Versioning

private theorem Version.withoutBuild_eq_iff {version other : Version} :
    version.withoutBuild = other.withoutBuild ↔ version.toPoint = other.toPoint :=
  ⟨congrArg Version.toPoint, congrArg Point.toVersion⟩

/-- A comparator keeps of a version all but the build metadata. -/
theorem Comparator.ofVersion_eq_iff {relation : Relation} {version other : Version} :
    ofVersion relation version = ofVersion relation other ↔
      version.withoutBuild = other.withoutBuild := by
  rw [Version.withoutBuild_eq_iff, ofVersion, ofVersion, Comparator.mk.injEq]
  exact and_iff_right rfl

/-- Whether an operator is met where a version compares so to the version behind the operator. -/
def Operator.allows : Operator → Ordering → Bool
  | .equal, comparison => comparison.isEq
  | .notEqual, comparison => comparison.isNe
  | .less, comparison => comparison.isLT
  | .atMost, comparison => comparison.isLE
  | .greater, comparison => comparison.isGT
  | .atLeast, comparison => comparison.isGE

/-- Whether an operator draws its line just above the version behind it. -/
def Operator.NeedsNext (operator : Operator) : Prop := operator = .atMost ∨ operator = .greater

namespace Operator

variable {operator : Operator} {point other : Point} {comparator : Comparator}
  {error : VersionError}

theorem comparator_eq_error_iff :
    operator.comparator point = .error error ↔ operator.NeedsNext ∧ point.next = .error error := by
  unfold NeedsNext
  cases operator with
  | equal => simp [Operator.comparator]
  | notEqual => simp [Operator.comparator]
  | less => simp [Operator.comparator]
  | atLeast => simp [Operator.comparator]
  | atMost => cases next : point.next <;> simp [Operator.comparator, Except.map, next]
  | greater => cases next : point.next <;> simp [Operator.comparator, Except.map, next]

theorem exists_comparator (operator : Operator) {next : Point} (following : point.next = .ok next) :
    ∃ comparator, operator.comparator point = .ok comparator := by
  by_contra none
  obtain ⟨error, failed⟩ := Outcome.exists_eq_error_iff.mpr none
  obtain ⟨-, missing⟩ := comparator_eq_error_iff.mp failed
  rw [following] at missing
  cases missing

theorem holds_comparator_iff (made : operator.comparator point = .ok comparator) :
    comparator.relation.holds other comparator.reference = true ↔
      operator.allows (compare other point) = true := by
  cases operator with
  | equal =>
      cases made
      change (other == point) = true ↔ (compare other point).isEq = true
      rw [beq_iff_eq, Ordering.isEq_iff_eq_eq, compare_eq_iff_eq]
  | notEqual =>
      cases made
      change (other != point) = true ↔ (compare other point).isNe = true
      rw [bne_iff_ne, Ordering.isNe_iff_ne_eq, ne_eq, compare_eq_iff_eq]
  | less =>
      cases made
      change decide (other < point) = true ↔ (compare other point).isLT = true
      rw [decide_eq_true_iff, Ordering.isLT_iff_eq_lt, compare_lt_iff_lt]
  | atLeast =>
      cases made
      change decide (point ≤ other) = true ↔ (compare other point).isGE = true
      rw [decide_eq_true_iff, Ordering.isGE_iff_ne_lt, compare_lt_iff_lt, not_lt]
  | atMost =>
      obtain ⟨next, following, rfl⟩ := Outcome.map_eq_ok_iff.mp made
      change decide (other < next) = true ↔ (compare other point).isLE = true
      rw [decide_eq_true_iff, Point.lt_next_iff following]
      exact Iff.rfl
  | greater =>
      obtain ⟨next, following, rfl⟩ := Outcome.map_eq_ok_iff.mp made
      change decide (next ≤ other) = true ↔ (compare other point).isGT = true
      rw [decide_eq_true_iff, Ordering.isGT_iff_eq_gt, compare_gt_iff_gt, ← not_lt,
        Point.lt_next_iff following, not_le]

end Operator

namespace Condition

variable {operator : Operator} {version other : Version} {condition : Condition}

theorem make_eq_ok (condition : Condition) :
    make condition.operator condition.version = .ok condition := by
  unfold make
  split
  · next comparator same =>
    rw [condition.comparator_eq] at same
    cases same
    rfl
  · next error failed =>
    rw [condition.comparator_eq] at failed
    cases failed

theorem eq_of_make (made : make operator version = .ok condition) :
    condition.operator = operator ∧ condition.version = version := by
  unfold make at made
  split at made
  · cases made
    exact ⟨rfl, rfl⟩
  · cases made

theorem make_eq_error_iff {error : ConstraintError} :
    make operator version = .error error ↔
      ∃ cause, operator.comparator version.toPoint = .error cause ∧ error = .version cause := by
  unfold make
  split
  · next comparator made => simp [made]
  · next cause failed => simp [failed, eq_comm]

private theorem map_comparator_make (operator : Operator) (version : Version) :
    (make operator version).map Condition.comparator =
      (operator.comparator version.toPoint).mapError ConstraintError.version := by
  unfold make
  split
  · next comparator made => exact congrArg (Except.mapError ConstraintError.version) made.symm
  · next cause failed => exact congrArg (Except.mapError ConstraintError.version) failed.symm

/-- The build metadata of a condition's version has no part in its comparator. -/
theorem map_comparator_make_withoutBuild (operator : Operator) (version : Version) :
    (make operator version.withoutBuild).map Condition.comparator =
      (make operator version).map Condition.comparator := by
  rw [map_comparator_make, map_comparator_make]
  rfl

theorem admits_iff (condition : Condition) : (Predicate.condition condition).admits other = true ↔
    condition.operator.allows (compare other condition.version) = true := by
  rw [Predicate.admits, Predicate.comparators, Conjunction.admits, List.all_cons, List.all_nil,
    Bool.and_true]
  exact Operator.holds_comparator_iff condition.comparator_eq

/-- An operator and a version make a condition, unless the operator draws its line above the
greatest patch of a line of releases, where there is no next version. A condition that is made is
met by the versions that compare to its own, in precedence, as the operator says. -/
theorem make_is_exact (operator : Operator) (version : Version) :
    (∀ error, make operator version = .error error ↔
      (operator = .atMost ∨ operator = .greater) ∧ version.isPreRelease = false ∧
        version.patch.value = Component.limit ∧
        error = .version (.componentOverflow s!"{version.patch} + 1")) ∧
    ((∃ error, make operator version = .error error) ∨
      ∃ condition, make operator version = .ok condition ∧
        ∀ other : Version, (Predicate.condition condition).admits other = true ↔
          operator.allows (compare other version) = true) := by
  constructor
  · intro error
    have nextFails (cause : VersionError) : version.toPoint.next = .error cause ↔
        version.isPreRelease = false ∧ version.patch.value = Component.limit ∧
          cause = .componentOverflow s!"{version.patch} + 1" := by
      rw [← Version.next_eq_error_iff, Version.next]
      cases version.toPoint.next <;> simp [Except.map]
    simp only [make_eq_error_iff, Operator.comparator_eq_error_iff, Operator.NeedsNext, nextFails]
    constructor
    · intro failed
      obtain ⟨cause, ⟨needs, release, greatest, same⟩, rfl⟩ := failed
      exact ⟨needs, release, greatest, by rw [same]⟩
    · intro last
      obtain ⟨needs, release, greatest, rfl⟩ := last
      exact ⟨_, ⟨needs, release, greatest, rfl⟩, rfl⟩
  · cases made : make operator version with
    | error error => exact .inl ⟨error, rfl⟩
    | ok condition =>
        obtain ⟨rfl, rfl⟩ := eq_of_make made
        exact .inr ⟨condition, rfl, fun other => condition.admits_iff⟩

end Condition

end Versioning
