import Versioning.Proofs.Conjunction
import Versioning.Proofs.Range.Canonical

/-!
The normal form of a disjunction. It holds the points that one of the conjunctions admits, and is
made of separated ranges unless it is the empty range alone.
-/

namespace Versioning

open Range (Covers IsCanonical)

variable {conjunctions : List Conjunction} {ranges : List Range}

theorem normalize_eq_ok_iff :
    normalize conjunctions = .ok ranges ↔
      ∃ lists, List.Forall₂ (fun conjunction list => conjunction.ranges = .ok list)
        conjunctions lists ∧ Range.union lists.flatten = ranges := by
  unfold normalize
  rw [Outcome.bind_eq_ok_iff]
  constructor
  · intro ⟨lists, found, same⟩
    have pairs := Outcome.mapM_eq_ok_iff.mp (Outcome.mapError_eq_ok_iff.mp found)
    exact ⟨lists, pairs, Outcome.pure_eq_ok_iff.mp same⟩
  · intro ⟨lists, pairs, same⟩
    refine ⟨lists, ?_, Outcome.pure_eq_ok_iff.mpr same⟩
    exact Outcome.mapError_eq_ok_iff.mpr (Outcome.mapM_eq_ok_iff.mpr pairs)

theorem exists_normalize_iff :
    (∃ ranges, normalize conjunctions = .ok ranges) ↔
      ∀ conjunction ∈ conjunctions, ∃ ranges, Conjunction.ranges conjunction = .ok ranges := by
  rw [← Outcome.exists_mapM_eq_ok_iff]
  simp only [normalize_eq_ok_iff, Outcome.mapM_eq_ok_iff]
  exact ⟨fun ⟨_, lists, pairs, _⟩ => ⟨lists, pairs⟩,
    fun ⟨lists, pairs⟩ => ⟨_, lists, pairs, rfl⟩⟩

theorem proper_flatten {lists : List (List Range)}
    (pairs : List.Forall₂ (fun conjunction list => conjunction.ranges = .ok list)
      conjunctions lists) :
    ∀ range ∈ lists.flatten, range.IsProper := by
  induction pairs with
  | nil =>
      intro range member
      cases member
  | cons first later ih =>
      rw [List.flatten_cons]
      have fragments := (Conjunction.ranges_fragments first).1
      exact List.forall_mem_append.mpr ⟨fragments.proper, ih⟩

private theorem covers_flatten_iff {lists : List (List Range)} {point : Point}
    (pairs : List.Forall₂ (fun conjunction list => conjunction.ranges = .ok list)
      conjunctions lists) :
    Covers lists.flatten point ↔ ∃ conjunction ∈ conjunctions, conjunction.HoldsAt point := by
  induction pairs with
  | nil => simp
  | cons first later ih =>
      have covered := (Conjunction.ranges_fragments first).2 point
      rw [List.flatten_cons, Range.covers_append, covered, ih]
      simp only [List.mem_cons, exists_eq_or_imp]

theorem covers_normalize (normal : normalize conjunctions = .ok ranges) (point : Point) :
    Covers ranges point ↔ ∃ conjunction ∈ conjunctions, conjunction.HoldsAt point := by
  obtain ⟨lists, pairs, same⟩ := normalize_eq_ok_iff.mp normal
  rw [← same, Range.covers_union (proper_flatten pairs)]
  exact covers_flatten_iff pairs

theorem isCanonical_normalize (normal : normalize conjunctions = .ok ranges) :
    IsCanonical ranges := by
  obtain ⟨lists, pairs, same⟩ := normalize_eq_ok_iff.mp normal
  rw [← same]
  exact Range.isCanonical_union (proper_flatten pairs)

theorem normalize_atLeast {point : Point} (positive : .least < point) :
    normalize [[⟨.atLeast, point⟩]] = .ok [.startingAt point] := by
  refine normalize_eq_ok_iff.mpr ⟨[[.startingAt point]], .cons ?_ .nil, Range.union_singleton _⟩
  simp [Conjunction.ranges, Conjunction.clash?, Conjunction.references, Conjunction.upper,
    Conjunction.lower?, Conjunction.excludeAll, Range.spanning?, Range.startingAt, positive.ne']

/-- Normalizing loses no version and gains none: the ranges contain what one of the conjunctions
admits by all of its comparators. -/
theorem exists_contains_iff_exists_admits (normal : normalize conjunctions = .ok ranges)
    (version : Version) :
    (∃ range ∈ ranges, range.contains version.toPoint = true) ↔
      ∃ conjunction ∈ conjunctions, ∀ comparator ∈ conjunction,
        comparator.admits version = true :=
  covers_normalize normal version.toPoint

theorem exists_contains_iff_exists_admits_excluding :
    ∃ ranges, normalize [[⟨.notEqual, Core.toPoint ⟨1, 0, 0⟩⟩]] = .ok ranges ∧
      (∃ range ∈ ranges, range.contains (Version.release 1 1 0).toPoint = true) ∧
      ¬∃ range ∈ ranges, range.contains (Version.release 1 0 0).toPoint = true := by
  obtain ⟨ranges, normal⟩ :
      ∃ ranges, normalize [[⟨.notEqual, Core.toPoint ⟨1, 0, 0⟩⟩]] = .ok ranges := ⟨_, rfl⟩
  refine ⟨ranges, normal, ?_, ?_⟩
  · rw [exists_contains_iff_exists_admits normal]
    decide
  · rw [exists_contains_iff_exists_admits normal]
    decide

/-- The normal form is the empty range alone, or proper ranges with a gap between each and the next
one. Hence ranges are in order, apart and not adjacent, and only the outermost bounds may be
missing. -/
theorem normalize_canonical (normal : normalize conjunctions = .ok ranges) :
    ranges ≠ [] ∧
      (ranges = [.empty] ∨
        (∀ range ∈ ranges,
          (∀ start ∈ range.start, .least < start) ∧
          (∀ stop ∈ range.stop, .least < stop) ∧
          (∀ start ∈ range.start, ∀ stop ∈ range.stop, start < stop) ∧
          ∀ bound ∈ range.start.toList ++ range.stop.toList, bound.toVersion.build = none) ∧
        ranges.IsChain fun range next =>
          ∃ stop ∈ range.stop, ∃ start ∈ next.start, stop < start) ∧
      ranges.Pairwise (fun range next =>
        range.compareBounds next = .lt ∧ range.intersects next = false ∧
          range.isAdjacentTo next = false) ∧
      (∀ range ∈ ranges.tail, range.start.isSome = true) ∧
      ∀ range ∈ ranges.dropLast, range.stop.isSome = true := by
  have canonical := isCanonical_normalize normal
  have ascending := canonical.pairwise
  refine ⟨canonical.ne_nil, ?_, ?_, ?_, ?_⟩
  · rcases canonical with alone | ⟨-, separated⟩
    · exact .inl alone
    · refine .inr ⟨fun range member => ?_, separated.chain⟩
      have proper := separated.proper range member
      exact ⟨proper.least_lt_start, proper.least_lt_stop, range.start_lt_stop, fun _ _ => rfl⟩
  · apply ascending.imp
    intro range next before
    exact ⟨before.compareBounds_eq, before.intersects_eq, before.isAdjacentTo_eq⟩
  · exact Range.start_isSome_of_mem_tail ascending
  · exact Range.stop_isSome_of_mem_dropLast ascending

theorem normalize_canonical_excluding :
    normalize [[⟨.notEqual, Core.toPoint ⟨0, 0, 0⟩⟩]] =
        .ok [.stoppingAt (Core.toPoint ⟨0, 0, 0⟩), .startingAt ⟨⟨0, 0, 1⟩, some .least⟩] ∧
      [Range.stoppingAt (Core.toPoint ⟨0, 0, 0⟩),
          .startingAt ⟨⟨0, 0, 1⟩, some .least⟩].IsChain fun range next =>
        ∃ stop ∈ range.stop, ∃ start ∈ next.start, stop < start := by
  have normal : normalize [[⟨.notEqual, Core.toPoint ⟨0, 0, 0⟩⟩]] =
      .ok [.stoppingAt (Core.toPoint ⟨0, 0, 0⟩), .startingAt ⟨⟨0, 0, 1⟩, some .least⟩] := by
    refine normalize_eq_ok_iff.mpr ⟨[[_, _]], .cons rfl .nil, ?_⟩
    rw [Range.union, Range.inOrder, List.mergeSort_of_pairwise (by decide)]
    rfl
  have several := (normalize_canonical normal).2.1.resolve_left (by decide)
  exact ⟨normal, several.2⟩

end Versioning
