import Versioning.Constraint.Satisfaction
import Versioning.Proofs.Normalization
import Versioning.Proofs.Range.Lookup

/-!
Satisfaction by the branches as written. Looking up a range decides what the predicates of some
branch decide together, and the pre-release rule asks about the one range that holds the version.
-/

namespace Versioning

private theorem Branch.holdsAt_conjunction_iff {branch : Branch} {version : Version} :
    branch.conjunction.HoldsAt version.toPoint ↔
      ∀ predicate ∈ branch, predicate.admits version = true := by
  rw [← Conjunction.admits_iff, conjunction, Conjunction.admits, List.all_flatMap]
  exact List.all_eq_true

theorem Range.namesPreReleaseOf_iff {range : Range} {core : Core} :
    range.namesPreReleaseOf core = true ↔
      ∃ bound, (bound ∈ range.start ∨ bound ∈ range.stop) ∧
        bound.isPreRelease = true ∧ bound.toCore = core := by
  unfold namesPreReleaseOf
  simp only [Bool.or_eq_true, Option.any_eq_true, Bool.and_eq_true, beq_iff_eq]
  constructor
  · intro named
    rcases named with ⟨bound, member, names⟩ | ⟨bound, member, names⟩
    · exact ⟨bound, .inl member, names⟩
    · exact ⟨bound, .inr member, names⟩
  · intro ⟨bound, member, names⟩
    rcases member with starts | stops
    · exact .inl ⟨bound, starts, names⟩
    · exact .inr ⟨bound, stops, names⟩

namespace Constraint

open Range (Covers IsCanonical StopsBefore)

theorem isCanonical (constraint : Constraint) : IsCanonical constraint.ranges.toList :=
  isCanonical_normalize constraint.ranges_eq

theorem ascending (constraint : Constraint) : constraint.ranges.toList.Pairwise StopsBefore :=
  constraint.isCanonical.pairwise

theorem covers_iff (constraint : Constraint) (version : Version) :
    Covers constraint.ranges.toList version.toPoint ↔
      ∃ branch ∈ constraint.branches, ∀ predicate ∈ branch, predicate.admits version = true := by
  rw [covers_normalize constraint.ranges_eq]
  simp only [List.mem_map, exists_exists_and_eq_and, Branch.holdsAt_conjunction_iff]

/-- A version is admitted through the one range that holds it. -/
theorem admits_eq_true_iff {constraint : Constraint} {includePreRelease : Bool}
    {version : Version} :
    constraint.admits includePreRelease version = true ↔
      ∃ range ∈ constraint.ranges, range.contains version.toPoint = true ∧
        (version.isPreRelease = false ∨ includePreRelease = true ∨
          range.namesPreReleaseOf version.toCore = true) := by
  have looked : constraint.admits includePreRelease version = true ↔
      ∃ range, Range.lookup? constraint.ranges version.toPoint = some range ∧
        (version.isPreRelease = false ∨ includePreRelease = true ∨
          range.namesPreReleaseOf version.toCore = true) := by
    unfold admits
    cases Range.lookup? constraint.ranges version.toPoint with
    | none => simp
    | some range => simp [or_assoc]
  rw [looked]
  simp only [Range.lookup?_eq_some_iff constraint.ascending, and_assoc]

theorem admits_including_iff {constraint : Constraint} {version : Version} :
    constraint.admits true version = true ↔
      Covers constraint.ranges.toList version.toPoint := by
  rw [admits_eq_true_iff]
  simp only [true_or, or_true, and_true, Covers, Array.mem_toList_iff]

theorem covers_of_admits {constraint : Constraint} {includePreRelease : Bool} {version : Version}
    (admitted : constraint.admits includePreRelease version = true) :
    Covers constraint.ranges.toList version.toPoint := by
  obtain ⟨range, member, inside, -⟩ := admits_eq_true_iff.mp admitted
  exact ⟨range, Array.mem_toList_iff.mpr member, inside⟩

theorem admits_iff_covers_of_release {constraint : Constraint} {includePreRelease : Bool}
    {version : Version} (release : version.isPreRelease = false) :
    constraint.admits includePreRelease version = true ↔
      Covers constraint.ranges.toList version.toPoint := by
  rw [admits_eq_true_iff]
  simp only [release, true_or, and_true, Covers, Array.mem_toList_iff]

private theorem eq_of_contains (constraint : Constraint) {range other : Range} {point : Point}
    (member : range ∈ constraint.ranges) (inside : range.contains point = true)
    (memberOther : other ∈ constraint.ranges) (within : other.contains point = true) :
    range = other := by
  have first := (Range.lookup?_eq_some_iff constraint.ascending).mpr ⟨member, inside⟩
  have second := (Range.lookup?_eq_some_iff constraint.ascending).mpr ⟨memberOther, within⟩
  rw [first] at second
  exact Option.some.inj second

/-- A version is admitted exactly if some branch has all of its predicates admit it and, where it is
a pre-release that is not asked for, a bound of the one range that holds it is a pre-release of the
same core. The ranges are split by the version in the way that bisection needs, and it finds what a
search from the front finds. -/
theorem admits_iff_exists_branch (constraint : Constraint) (includePreRelease : Bool)
    (version : Version) :
    (constraint.admits includePreRelease version = true ↔
      (∃ branch ∈ constraint.branches, ∀ predicate ∈ branch, predicate.admits version = true) ∧
        (version.isPreRelease = false ∨ includePreRelease = true ∨
          ∃ range ∈ constraint.ranges, range.contains version.toPoint = true ∧
            ∃ bound, (bound ∈ range.start ∨ bound ∈ range.stop) ∧
              bound.isPreRelease = true ∧ bound.toCore = version.toCore)) ∧
      (∀ range ∈ constraint.ranges, ∀ other ∈ constraint.ranges,
        range.contains version.toPoint = true → other.contains version.toPoint = true →
          range = other) ∧
      Range.IsSplitBy constraint.ranges version.toPoint ∧
      Range.lookup? constraint.ranges version.toPoint =
        constraint.ranges.find? fun range => range.contains version.toPoint := by
  refine ⟨?_, ?_, ?_, ?_⟩
  · rw [← covers_iff, admits_eq_true_iff]
    simp only [← Range.namesPreReleaseOf_iff, Covers, Array.mem_toList_iff]
    constructor
    · intro satisfied
      obtain ⟨range, member, inside, allowed⟩ := satisfied
      refine ⟨⟨range, member, inside⟩, ?_⟩
      rcases allowed with release | asked | names
      · exact .inl release
      · exact .inr (.inl asked)
      · exact .inr (.inr ⟨range, member, inside, names⟩)
    · intro satisfied
      obtain ⟨⟨range, member, inside⟩, allowed⟩ := satisfied
      rcases allowed with release | asked | ⟨other, memberOther, within, names⟩
      · exact ⟨range, member, inside, .inl release⟩
      · exact ⟨range, member, inside, .inr (.inl asked)⟩
      · exact ⟨other, memberOther, within, .inr (.inr names)⟩
  · intro range member other memberOther inside within
    exact constraint.eq_of_contains member inside memberOther within
  · exact Range.isSplitBy_of_pairwise constraint.ascending version.toPoint
  · exact Range.lookup?_eq_find? constraint.ascending

theorem admits_iff_exists_branch_atLeast :
    ∃ constraint : Constraint,
      constraint.branches = [[.condition (.atLeast ⟨⟨1, 0, 0⟩, some .least⟩)]] ∧
        constraint.admits false (Point.toVersion ⟨⟨1, 0, 0⟩, some .least⟩) = true := by
  have normal : normalize [[⟨.atLeast, ⟨⟨1, 0, 0⟩, some .least⟩⟩]] =
      .ok [.startingAt ⟨⟨1, 0, 0⟩, some .least⟩] :=
    normalize_atLeast (by decide)
  let constraint : Constraint :=
    { branches := [[.condition (.atLeast ⟨⟨1, 0, 0⟩, some .least⟩)]]
      grammar := .simple
      preferred := none
      ranges := #[.startingAt ⟨⟨1, 0, 0⟩, some .least⟩]
      ranges_eq := normal }
  refine ⟨constraint, rfl, (admits_iff_exists_branch constraint _ _).1.mpr ⟨?_, .inr (.inr ?_)⟩⟩
  · exact ⟨_, List.mem_singleton_self _, by decide⟩
  · exact ⟨_, Array.mem_singleton_self _, by decide, _, .inl rfl, rfl, rfl⟩

end Constraint

end Versioning
