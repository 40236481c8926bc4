import Mathlib.Data.Finset.Card
import Mathlib.Data.Finset.Dedup
import Versioning.Proofs.Conjunction.Overflow

/-!
The ranges of a conjunction one by one. Each excluded point that is still inside splits one range
in two at most and leaves a gap between the parts. Hence the ranges are, but for their order, the
normal form of what the conjunction admits, and how the comparators are arranged and repeated has no
part in them.
-/

namespace Versioning

open Range (Covers AreFragments)

namespace Range

variable {range other piece : Range} {point : Point} {pieces ranges others : List Range}

/-! ### Gaps -/

/-- Whether there is a gap between two ranges, whichever of them comes first. -/
def IsSeparateFrom (range other : Range) : Prop :=
  range.StopsBefore other ∨ other.StopsBefore range

theorem IsSeparateFrom.symm (separate : range.IsSeparateFrom other) :
    other.IsSeparateFrom range := Or.symm separate

theorem IsSeparateFrom.of_without (separate : range.IsSeparateFrom other)
    (inside : range.contains point = true) (removed : range.without point = .ok pieces) :
    ∀ piece ∈ pieces, piece.IsSeparateFrom other := by
  intro piece member
  obtain ⟨resume, next, same⟩ := pieces_of_without removed
  subst same
  rcases List.mem_append.mp member with before | after
  · obtain ⟨starts, stops⟩ := bounds_of_spanning? (Option.mem_toList.mp before)
    rcases separate with ⟨stop, isStop, start, isStart, below⟩ | first
    · have upTo : point < stop := (contains_iff.mp inside).2 stop isStop
      exact .inl ⟨point, stops, start, isStart, upTo.trans below⟩
    · exact .inr (first.of_start_eq starts)
  · obtain ⟨starts, stops⟩ := bounds_of_spanning? (Option.mem_toList.mp after)
    rcases separate with ⟨stop, isStop, start, isStart, below⟩ | first
    · exact .inl ⟨stop, stops ▸ isStop, start, isStart, below⟩
    · obtain ⟨stop, isStop, below⟩ := first.lt_of_contains inside
      exact .inr ⟨stop, isStop, resume, starts, (Point.lt_next_iff next).mpr below.le⟩

private theorem pairwise_isSeparateFrom_without (removed : range.without point = .ok pieces) :
    pieces.Pairwise IsSeparateFrom := by
  obtain ⟨resume, next, same⟩ := pieces_of_without removed
  subst same
  refine List.pairwise_append.mpr ⟨?_, ?_, ?_⟩
  · cases range.before? point <;> simp
  · cases range.after? resume <;> simp
  · intro front before back after
    have stops := (bounds_of_spanning? (Option.mem_toList.mp before)).2
    have starts := (bounds_of_spanning? (Option.mem_toList.mp after)).1
    exact .inl ⟨point, stops, resume, starts, (Point.lt_next_iff next).mpr le_rfl⟩

private theorem length_without_le (removed : range.without point = .ok pieces) :
    pieces.length ≤ 2 := by
  obtain ⟨resume, next, same⟩ := pieces_of_without removed
  subst same
  rw [List.length_append]
  cases range.before? point <;> cases range.after? resume <;> simp

/-! ### Order -/

theorem areSeparated_inOrder (proper : ∀ range ∈ ranges, range.IsProper)
    (separate : ranges.Pairwise IsSeparateFrom) : AreSeparated (inOrder ranges) := by
  refine ⟨fun range member => proper range (List.mem_mergeSort.mp member), ?_⟩
  have sorted : (inOrder ranges).Pairwise fun a b => (compareBounds a b).isLE = true :=
    List.pairwise_mergeSort compareBounds_trans compareBounds_total ranges
  have apart : (inOrder ranges).Pairwise IsSeparateFrom :=
    separate.perm (List.mergeSort_perm ranges _).symm IsSeparateFrom.symm
  apply List.Pairwise.isChain
  refine sorted.imp₂ ?_ apart
  intro range next ordered separate
  apply separate.resolve_right
  intro before
  have swapped : compareBounds next range = (compareBounds range next).swap :=
    Std.OrientedCmp.eq_swap
  rw [before.compareBounds_eq] at swapped
  rw [Ordering.isLE_iff_ne_gt] at ordered
  apply ordered
  rw [← Ordering.swap_inj, ← swapped]
  rfl

/-- Ranges with gaps between them are settled by the points that they hold, but for their order. -/
theorem perm_of_covers_iff (proper : ∀ range ∈ ranges, range.IsProper)
    (properOthers : ∀ range ∈ others, range.IsProper) (separate : ranges.Pairwise IsSeparateFrom)
    (separateOthers : others.Pairwise IsSeparateFrom)
    (same : ∀ point, Covers ranges point ↔ Covers others point) : ranges.Perm others := by
  have ordered : inOrder ranges = inOrder others := by
    apply (areSeparated_inOrder proper separate).eq_of_covers_iff
    · exact areSeparated_inOrder properOthers separateOthers
    · intro point
      rw [covers_inOrder, covers_inOrder]
      exact same point
  have sorted : (inOrder ranges).Perm ranges := List.mergeSort_perm ranges _
  have sortedOthers : (inOrder others).Perm others := List.mergeSort_perm others _
  rw [ordered] at sorted
  exact sorted.symm.trans sortedOthers

end Range

namespace Conjunction

variable {conjunction other : Conjunction} {ranges remaining : List Range} {point : Point}
  {points : List Point}

/-! ### Excluded points -/

private theorem length_exclude_le (removed : exclude point ranges = .ok remaining) :
    remaining.length ≤ ranges.length + 1 := by
  by_cases covers : Covers ranges point
  · obtain ⟨range, others, pieces, -, without, order, left⟩ := perm_of_exclude covers removed
    have short := Range.length_without_le without
    rw [left.length_eq, order.length_eq, List.length_append, List.length_cons]
    omega
  · rw [exclude_of_not_covers covers] at removed
    cases removed
    exact Nat.le_succ _

private theorem exclude_isSeparateFrom (separate : ranges.Pairwise Range.IsSeparateFrom)
    (removed : exclude point ranges = .ok remaining) :
    remaining.Pairwise Range.IsSeparateFrom := by
  by_cases covers : Covers ranges point
  · obtain ⟨range, others, pieces, inside, without, order, left⟩ := perm_of_exclude covers removed
    obtain ⟨away, separateOthers⟩ :=
      List.pairwise_cons.mp (separate.perm order Range.IsSeparateFrom.symm)
    refine List.Pairwise.perm ?_ left.symm Range.IsSeparateFrom.symm
    refine List.pairwise_append.mpr
      ⟨Range.pairwise_isSeparateFrom_without without, separateOthers, ?_⟩
    intro piece ofPieces other ofOthers
    exact (away other ofOthers).of_without inside without piece ofPieces
  · rw [exclude_of_not_covers covers] at removed
    cases removed
    exact separate

private theorem excludeAll_isSeparateFrom (separate : ranges.Pairwise Range.IsSeparateFrom)
    (removed : excludeAll ranges points = .ok remaining) :
    remaining.Pairwise Range.IsSeparateFrom := by
  induction points generalizing ranges with
  | nil =>
      cases removed
      exact separate
  | cons point rest ih =>
      obtain ⟨between, first, later⟩ := Outcome.bind_eq_ok_iff.mp removed
      exact ih (exclude_isSeparateFrom separate first) later

/-- Each point adds one range at most, and only if it is covered; once it is out it is covered no
more. -/
theorem length_excludeAll_le {inside : Finset Point} (fragments : AreFragments ranges)
    (holds : ∀ point ∈ points, Covers ranges point → point ∈ inside)
    (removed : excludeAll ranges points = .ok remaining) :
    remaining.length ≤ ranges.length + inside.card := by
  induction points generalizing ranges inside with
  | nil =>
      cases removed
      exact Nat.le_add_right _ _
  | cons point rest ih =>
      obtain ⟨between, first, later⟩ := Outcome.bind_eq_ok_iff.mp removed
      obtain ⟨holdsFirst, holdsRest⟩ := List.forall_mem_cons.mp holds
      by_cases covered : Covers ranges point
      · obtain ⟨fragmentsBetween, coveredBetween⟩ := exclude_fragments fragments first
        have holdsLater : ∀ next ∈ rest, Covers between next → next ∈ inside.erase point := by
          intro next among coveredNext
          obtain ⟨coveredBefore, different⟩ := (coveredBetween next).mp coveredNext
          exact Finset.mem_erase.mpr ⟨different, holdsRest next among coveredBefore⟩
        have grown := length_exclude_le first
        have bounded := ih fragmentsBetween holdsLater later
        have fewer := Finset.card_erase_add_one (holdsFirst covered)
        omega
      · rw [exclude_of_not_covers covered] at first
        cases first
        exact ih fragments holdsRest later

/-! ### Ranges -/

private theorem ranges_isSeparateFrom (found : conjunction.ranges = .ok ranges) :
    ranges.Pairwise Range.IsSeparateFrom := by
  unfold Conjunction.ranges at found
  split at found
  · cases found
    exact .nil
  · obtain ⟨upper, -, found⟩ := Outcome.bind_eq_ok_iff.mp found
    split at found
    · cases found
      exact .nil
    · exact excludeAll_isSeparateFrom (List.pairwise_singleton _ _) found

private theorem length_ranges_le {inside : Finset Point}
    (holds : ∀ point ∈ conjunction.references .notEqual,
      conjunction.bounds.HoldsAt point → point ∈ inside)
    (found : conjunction.ranges = .ok ranges) : ranges.length ≤ 1 + inside.card := by
  unfold Conjunction.ranges at found
  split at found
  · cases found
    exact Nat.zero_le _
  · obtain ⟨upper, stop, found⟩ := Outcome.bind_eq_ok_iff.mp found
    split at found
    · cases found
      exact Nat.zero_le _
    · next interval spans =>
      have proper := Range.isProper_of_spanning? least_lt_of_lower? spans
      refine length_excludeAll_le (.singleton proper) ?_ found
      intro point excluded covered
      apply holds point excluded
      rw [← covers_spanning?_iff stop, spans]
      exact covered

theorem exists_ranges_perm (same : ∀ comparator, comparator ∈ other ↔ comparator ∈ conjunction)
    (found : conjunction.ranges = .ok ranges) :
    ∃ others, other.ranges = .ok others ∧ others.Perm ranges := by
  obtain ⟨others, foundOthers⟩ : ∃ others, other.ranges = .ok others := by
    by_contra none
    have steps := (not_exists_ranges_iff.mp none).of_mem_iff same
    exact not_exists_ranges_iff.mpr steps ⟨ranges, found⟩
  obtain ⟨fragments, covered⟩ := ranges_fragments found
  obtain ⟨fragmentsOthers, coveredOthers⟩ := ranges_fragments foundOthers
  refine ⟨others, foundOthers, ?_⟩
  apply Range.perm_of_covers_iff fragmentsOthers.proper fragments.proper
  · exact ranges_isSeparateFrom foundOthers
  · exact ranges_isSeparateFrom found
  · intro point
    rw [covered, coveredOthers]
    simp only [HoldsAt, same]

/-- The ranges of a conjunction admit what the conjunction admits. No version is in two of them, no
range is without a version, none holds an excluded point, and there is at most one range more than
there are excluded points among those that the bounds admit. Rearranging and repeating comparators
does not change which ranges there are. -/
theorem ranges_are_exact_pieces (found : conjunction.ranges = .ok ranges) :
    (∀ version : Version, (∃ range ∈ ranges, range.contains version.toPoint = true) ↔
      conjunction.admits version = true) ∧
    ranges.Pairwise (fun range next => ¬∃ version : Version,
      range.contains version.toPoint = true ∧ next.contains version.toPoint = true) ∧
    (∀ range ∈ ranges, ∃ version : Version, range.contains version.toPoint = true) ∧
    (∀ range ∈ ranges, ∀ point ∈ conjunction.references .notEqual,
      range.contains point = false) ∧
    ranges.length ≤ 1 + ((conjunction.references .notEqual).toFinset.filter fun point =>
      conjunction.bounds.admits point.toVersion = true).card ∧
    ∀ other : Conjunction, (∀ comparator, comparator ∈ other ↔ comparator ∈ conjunction) →
      ∃ others, other.ranges = .ok others ∧ others.Perm ranges := by
  obtain ⟨fragments, covered⟩ := ranges_fragments found
  refine ⟨?_, ?_, ?_, ?_, ?_, fun other same => exists_ranges_perm same found⟩
  · intro version
    rw [admits_iff]
    exact covered version.toPoint
  · apply fragments.apart.imp
    intro range next apart ⟨version, inside, within⟩
    exact apart version.toPoint inside within
  · intro range member
    exact ⟨range.floor.toVersion, (fragments.proper range member).contains_floor⟩
  · intro range member point excluded
    rw [Bool.eq_false_iff]
    intro inside
    have held := (covered point).mp ⟨range, member, inside⟩
    exact (holdsAt_iff.mp held).2.2.2 excluded
  · refine length_ranges_le ?_ found
    intro point excluded held
    exact Finset.mem_filter.mpr ⟨List.mem_toFinset.mpr excluded, admits_iff.mpr held⟩

theorem ranges_are_exact_pieces_rearranged :
    ∃ first second third : Point, first < second ∧ second < third ∧
      ∃ ranges others,
        Conjunction.ranges [⟨.atLeast, first⟩, ⟨.notEqual, second⟩, ⟨.below, third⟩,
          ⟨.notEqual, first⟩] = .ok ranges ∧
        Conjunction.ranges [⟨.notEqual, first⟩, ⟨.below, third⟩, ⟨.notEqual, second⟩,
          ⟨.atLeast, first⟩, ⟨.notEqual, second⟩] = .ok others ∧
        others.Perm ranges ∧ ranges.length = 2 ∧
        ∀ range ∈ ranges, ∃ version : Version, range.contains version.toPoint = true := by
  refine ⟨Core.toPoint ⟨0, 0, 1⟩, Core.toPoint ⟨0, 1, 0⟩, Core.toPoint ⟨1, 0, 0⟩, by decide,
    by decide, ?_⟩
  obtain ⟨ranges, found, count⟩ : ∃ ranges,
      Conjunction.ranges [⟨.atLeast, Core.toPoint ⟨0, 0, 1⟩⟩, ⟨.notEqual, Core.toPoint ⟨0, 1, 0⟩⟩,
        ⟨.below, Core.toPoint ⟨1, 0, 0⟩⟩, ⟨.notEqual, Core.toPoint ⟨0, 0, 1⟩⟩] = .ok ranges ∧
      ranges.length = 2 := ⟨_, rfl, rfl⟩
  obtain ⟨-, -, nonempty, -, -, rearranged⟩ := ranges_are_exact_pieces found
  obtain ⟨others, foundOthers, perm⟩ := rearranged
    [⟨.notEqual, Core.toPoint ⟨0, 0, 1⟩⟩, ⟨.below, Core.toPoint ⟨1, 0, 0⟩⟩,
      ⟨.notEqual, Core.toPoint ⟨0, 1, 0⟩⟩, ⟨.atLeast, Core.toPoint ⟨0, 0, 1⟩⟩,
      ⟨.notEqual, Core.toPoint ⟨0, 1, 0⟩⟩] (by simp; tauto)
  exact ⟨ranges, others, found, foundOthers, perm, count, nonempty⟩

end Conjunction

end Versioning
