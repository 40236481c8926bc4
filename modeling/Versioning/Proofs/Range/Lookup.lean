import Versioning.Proofs.Range.Canonical
import Versioning.Range.Lookup

/-!
Bisection among ranges in ascending order. Seen from a point, the ranges fall into those before it,
at most one around it, and those after it, in this order; so no bisection step loses the range that
contains the point.
-/

namespace Versioning

namespace Range

variable {range next : Range} {ranges : Array Range} {point : Point} {low high : Nat}
  {bound : high ≤ ranges.size}

/-! ### Where ranges stand -/

theorem standing_eq_iff : range.standing point = .eq ↔ range.contains point = true := by
  unfold standing
  split
  · next inside => simp [inside]
  · next outside => split <;> simp [outside]

theorem standing_gt_iff : range.standing point = .gt ↔ point < range.floor := by
  unfold standing floor
  split
  · next inside =>
    have above := (contains_iff.mp inside).1
    exact iff_of_false Ordering.noConfusion (not_lt.mpr above)
  · cases range.start with
    | none => simp [Point.least_le]
    | some start => simp

private theorem standing_lt_iff :
    range.standing point = .lt ↔ range.floor ≤ point ∧ ∃ stop ∈ range.stop, stop ≤ point := by
  have inside : range.contains point = true ↔ _ := contains_iff
  rw [← standing_eq_iff] at inside
  cases found : range.standing point with
  | lt =>
      have above : range.floor ≤ point := by
        rw [← not_lt, ← standing_gt_iff, found]
        exact Ordering.noConfusion
      rw [found] at inside
      have outside := mt inside.mpr Ordering.noConfusion
      push Not at outside
      exact iff_of_true rfl ⟨above, outside above⟩
  | eq =>
      rw [found] at inside
      refine iff_of_false Ordering.noConfusion ?_
      intro ⟨_, stop, member, past⟩
      exact not_lt.mpr past ((inside.mp rfl).2 stop member)
  | gt =>
      refine iff_of_false Ordering.noConfusion ?_
      intro ⟨above, _⟩
      exact not_lt.mpr above (standing_gt_iff.mp found)

theorem StopsBefore.standing (before : range.StopsBefore next) (point : Point) :
    range.standing point = .lt ∨ next.standing point = .gt := by
  obtain ⟨stop, stops, start, starts, below⟩ := before
  rcases lt_or_ge point next.floor with early | late
  · exact .inr (standing_gt_iff.mpr early)
  · have past : stop < point := by
      rw [floor, starts] at late
      exact below.trans_le late
    refine .inl (standing_lt_iff.mpr ⟨?_, stop, stops, past.le⟩)
    refine getD_least_le_iff.mpr fun own member => ?_
    exact ((range.start_lt_stop own member stop stops).trans past).le

/-! ### Bisection -/

def IsSplitBy (ranges : Array Range) (point : Point) : Prop :=
  ranges.toList.Pairwise fun range next =>
    range.standing point = .lt ∨ next.standing point = .gt

theorem isSplitBy_of_pairwise (ascending : ranges.toList.Pairwise StopsBefore) (point : Point) :
    IsSplitBy ranges point :=
  ascending.imp fun before => before.standing point

/-- Around the point at one index, where ranges stand is how their indices compare with it. -/
theorem IsSplitBy.standing_eq_compare (split : IsSplitBy ranges point) {index other : Nat}
    (inside : index < ranges.size) (within : other < ranges.size)
    (around : ranges[index].standing point = .eq) :
    ranges[other].standing point = compare other index := by
  have ordered := List.pairwise_iff_getElem.mp split
  rcases lt_trichotomy other index with less | same | greater
  · have apart := ordered other index within inside less
    rw [Nat.compare_eq_lt.mpr less]
    exact apart.resolve_right (around ▸ Ordering.noConfusion)
  · subst same
    rw [around, Nat.compare_eq_eq.mpr rfl]
  · have apart := ordered index other inside within greater
    rw [Nat.compare_eq_gt.mpr greater]
    exact apart.resolve_left (around ▸ Ordering.noConfusion)

private theorem lookupBetween?_eq_some (split : IsSplitBy ranges point) {index : Nat}
    (inside : index < ranges.size) (around : ranges[index].standing point = .eq)
    (reached : low ≤ index) (ahead : index < high) :
    lookupBetween? ranges point low high bound = some ranges[index] := by
  fun_induction lookupBetween? ranges point low high bound with
  | case1 low high bound nonempty middle within found =>
      rw [split.standing_eq_compare inside within around, Nat.compare_eq_eq] at found
      subst index
      rfl
  | case2 low high bound nonempty middle within found ih =>
      rw [split.standing_eq_compare inside within around, Nat.compare_eq_gt] at found
      exact ih reached found
  | case3 low high bound nonempty middle within found ih =>
      rw [split.standing_eq_compare inside within around, Nat.compare_eq_lt] at found
      exact ih found ahead
  | case4 low high bound hollow => omega

private theorem contains_of_lookupBetween?
    (found : lookupBetween? ranges point low high bound = some range) :
    range ∈ ranges ∧ range.contains point = true := by
  fun_induction lookupBetween? ranges point low high bound with
  | case1 low high bound nonempty middle within around =>
      cases found
      exact ⟨Array.getElem_mem within, standing_eq_iff.mp around⟩
  | case2 low high bound nonempty middle within early ih => exact ih found
  | case3 low high bound nonempty middle within late ih => exact ih found
  | case4 low high bound hollow => cases found

theorem lookup?_eq_some_iff (ascending : ranges.toList.Pairwise StopsBefore) :
    lookup? ranges point = some range ↔ range ∈ ranges ∧ range.contains point = true := by
  constructor
  · intro found
    exact contains_of_lookupBetween? found
  · intro ⟨member, inside⟩
    obtain ⟨index, within, same⟩ := Array.mem_iff_getElem.mp member
    subst same
    have around := standing_eq_iff.mpr inside
    exact lookupBetween?_eq_some (isSplitBy_of_pairwise ascending point) within around
      (Nat.zero_le index) within

/-- Bisection finds what a search from the front finds. -/
theorem lookup?_eq_find? (ascending : ranges.toList.Pairwise StopsBefore) :
    lookup? ranges point = ranges.find? fun range => range.contains point := by
  cases found : ranges.find? fun range => range.contains point with
  | none =>
      rw [Option.eq_none_iff_forall_ne_some]
      intro range present
      obtain ⟨member, inside⟩ := (lookup?_eq_some_iff ascending).mp present
      exact Array.find?_eq_none.mp found range member inside
  | some range =>
      have inside : range.contains point = true :=
        Array.find?_some (p := fun other : Range => other.contains point) found
      exact (lookup?_eq_some_iff ascending).mpr ⟨Array.mem_of_find?_eq_some found, inside⟩

end Range

end Versioning
