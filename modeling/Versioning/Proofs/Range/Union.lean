import Mathlib.Data.List.Chain
import Versioning.Proofs.Range.Membership

/-!
Unions in normal form. Joining ranges that are ordered by where they begin keeps their points, and
leaves ranges each of which stops strictly before the next one starts. Lists of this form are equal
as soon as they hold the same points.
-/

namespace Versioning

namespace Range

/-- Whether a range stops and another starts, and some point stands between the two bounds. -/
def StopsBefore (range next : Range) : Prop :=
  ∃ stop ∈ range.stop, ∃ start ∈ next.start, stop < start

structure AreSeparated (ranges : List Range) : Prop where
  proper : ∀ range ∈ ranges, range.IsProper
  chain : ranges.IsChain StopsBefore

/-- The normal form of a set of points: separated ranges, or the empty range alone. -/
def IsCanonical (ranges : List Range) : Prop :=
  ranges = [empty] ∨ ranges ≠ [] ∧ AreSeparated ranges

/-! ### Joining two ranges -/

theorem startsBelowStopOf_iff {range other : Range}
    (positive : ∀ stop ∈ other.stop, .least < stop) :
    range.startsBelowStopOf other = true ↔ ∀ stop ∈ other.stop, range.floor < stop := by
  unfold startsBelowStopOf floor
  simp only [Option.all_eq_true, decide_eq_true_eq]
  cases range.start with
  | none => simpa using positive
  | some start => simp

theorem start_eq_of_least_lt {range : Range} (above : .least < range.floor) :
    range.start = some range.floor := by
  unfold floor at above ⊢
  cases found : range.start with
  | none =>
      rw [found] at above
      exact absurd above (lt_irrefl _)
  | some start => rfl

theorem meets_iff {range next : Range} (proper : range.IsProper) (properNext : next.IsProper)
    (ordered : range.floor ≤ next.floor) :
    range.meets next = true ↔ ∀ stop ∈ range.stop, next.floor ≤ stop := by
  have begins : range.startsBelowStopOf next = true :=
    (startsBelowStopOf_iff properNext.least_lt_stop).mpr fun stop member =>
      lt_of_le_of_lt ordered (properNext.floor_lt_stop stop member)
  rw [meets, intersects, begins, Bool.true_and, Bool.or_eq_true,
    startsBelowStopOf_iff proper.least_lt_stop]
  simp only [isAdjacentTo, Option.any_eq_true, beq_iff_eq]
  constructor
  · intro either stop member
    rcases either with before | ⟨last, stops, start, starts, same⟩
    · exact (before stop member).le
    · cases Option.mem_unique stops member
      rw [floor, starts]
      exact same.ge
  · intro touches
    by_cases before : ∀ stop ∈ range.stop, next.floor < stop
    · exact .inl before
    · push Not at before
      obtain ⟨stop, member, above⟩ := before
      have same : stop = next.floor := le_antisymm above (touches stop member)
      have positive : Point.least < next.floor := same ▸ proper.least_lt_stop stop member
      exact .inr ⟨stop, member, next.floor, start_eq_of_least_lt positive, same⟩

private theorem stopsBefore_of_not_meets {range next : Range} (proper : range.IsProper)
    (properNext : next.IsProper) (ordered : range.floor ≤ next.floor)
    (apart : ¬range.meets next = true) : range.StopsBefore next := by
  rw [meets_iff proper properNext ordered] at apart
  push Not at apart
  obtain ⟨stop, member, below⟩ := apart
  have positive : Point.least < next.floor := lt_of_le_of_lt (Point.least_le stop) below
  exact ⟨stop, member, next.floor, start_eq_of_least_lt positive, below⟩

theorem lt_laterStop_iff {a b : Option Point} {point : Point} :
    (∀ stop ∈ laterStop a b, point < stop) ↔
      (∀ stop ∈ a, point < stop) ∨ ∀ stop ∈ b, point < stop := by
  cases a <;> cases b <;> simp [laterStop]

private theorem contains_extendedBy {range next : Range} {point : Point}
    (ordered : range.floor ≤ next.floor) (touches : ∀ stop ∈ range.stop, next.floor ≤ stop) :
    (range.extendedBy next).contains point = true ↔
      range.contains point = true ∨ next.contains point = true := by
  rw [contains_iff, contains_iff, contains_iff]
  change range.floor ≤ point ∧ (∀ stop ∈ laterStop range.stop next.stop, point < stop) ↔ _
  rw [lt_laterStop_iff]
  constructor
  · intro ⟨above, below⟩
    by_cases inside : ∀ stop ∈ range.stop, point < stop
    · exact .inl ⟨above, inside⟩
    · have later := below.resolve_left inside
      push Not at inside
      obtain ⟨stop, member, past⟩ := inside
      exact .inr ⟨(touches stop member).trans past, later⟩
  · intro either
    rcases either with ⟨above, below⟩ | ⟨above, below⟩
    · exact ⟨above, .inl below⟩
    · exact ⟨ordered.trans above, .inr below⟩

private theorem IsProper.extendedBy {range : Range} (proper : range.IsProper) (next : Range) :
    (range.extendedBy next).IsProper where
  least_lt_start := proper.least_lt_start
  least_lt_stop := lt_laterStop_iff.mpr (.inl proper.least_lt_stop)

/-! ### Joining along a list -/

/-- What a list of ranges has to keep while the ranges at its front are joined. -/
structure AreOrdered (ranges : List Range) : Prop where
  proper : ∀ range ∈ ranges, range.IsProper
  ascending : ranges.Pairwise fun range next => range.floor ≤ next.floor

theorem AreOrdered.tail {range : Range} {rest : List Range} (ordered : AreOrdered (range :: rest)) :
    AreOrdered rest :=
  ⟨(List.forall_mem_cons.mp ordered.proper).2, (List.pairwise_cons.mp ordered.ascending).2⟩

theorem AreOrdered.join {range next : Range} {rest : List Range}
    (ordered : AreOrdered (range :: next :: rest)) :
    AreOrdered (range.extendedBy next :: rest) := by
  obtain ⟨proper, later⟩ := List.forall_mem_cons.mp ordered.proper
  obtain ⟨first, ascending⟩ := List.pairwise_cons.mp ordered.ascending
  refine ⟨?_, ?_⟩
  · exact List.forall_mem_cons.mpr ⟨proper.extendedBy next, (List.forall_mem_cons.mp later).2⟩
  · refine List.pairwise_cons.mpr ⟨?_, (List.pairwise_cons.mp ascending).2⟩
    intro other member
    exact first other (List.mem_cons_of_mem next member)

private theorem covers_coalesceFrom {current : Range} {rest : List Range} {point : Point}
    (ordered : AreOrdered (current :: rest)) :
    Covers (coalesceFrom current rest) point ↔ Covers (current :: rest) point := by
  fun_induction coalesceFrom current rest with
  | case1 current => rfl
  | case2 current next rest meets ih =>
      obtain ⟨proper, later⟩ := List.forall_mem_cons.mp ordered.proper
      have below : current.floor ≤ next.floor :=
        (List.pairwise_cons.mp ordered.ascending).1 next List.mem_cons_self
      have touches := (meets_iff proper (later next List.mem_cons_self) below).mp meets
      rw [ih ordered.join]
      simp only [covers_cons, contains_extendedBy below touches, or_assoc]
  | case3 current next rest apart ih =>
      simp only [covers_cons, ih ordered.tail]

private theorem start_head_coalesceFrom (current : Range) (rest : List Range) :
    ∀ first ∈ (coalesceFrom current rest).head?, first.start = current.start := by
  fun_induction coalesceFrom current rest with
  | case1 current =>
      intro first same
      cases same
      rfl
  | case2 current next rest meets ih => exact ih
  | case3 current next rest apart ih =>
      intro first same
      cases same
      rfl

theorem StopsBefore.of_start_eq {range next other : Range} (before : range.StopsBefore next)
    (same : other.start = next.start) : range.StopsBefore other := by
  unfold StopsBefore
  rw [same]
  exact before

private theorem areSeparated_coalesceFrom {current : Range} {rest : List Range}
    (ordered : AreOrdered (current :: rest)) : AreSeparated (coalesceFrom current rest) := by
  fun_induction coalesceFrom current rest with
  | case1 current => exact ⟨ordered.proper, .singleton current⟩
  | case2 current next rest meets ih => exact ih ordered.join
  | case3 current next rest apart ih =>
      obtain ⟨proper, later⟩ := List.forall_mem_cons.mp ordered.proper
      have below : current.floor ≤ next.floor :=
        (List.pairwise_cons.mp ordered.ascending).1 next List.mem_cons_self
      have before :=
        stopsBefore_of_not_meets proper (later next List.mem_cons_self) below apart
      obtain ⟨properRest, chain⟩ := ih ordered.tail
      refine ⟨List.forall_mem_cons.mpr ⟨proper, properRest⟩, List.isChain_cons.mpr ⟨?_, chain⟩⟩
      intro first member
      exact before.of_start_eq (start_head_coalesceFrom next rest first member)

private theorem coalesceFrom_ne_nil (current : Range) (rest : List Range) :
    coalesceFrom current rest ≠ [] := by
  fun_induction coalesceFrom current rest with
  | case1 current => exact List.cons_ne_nil _ _
  | case2 current next rest meets ih => exact ih
  | case3 current next rest apart ih => exact List.cons_ne_nil _ _

/-! ### Putting ranges in order -/

instance : Std.TransCmp compareBounds :=
  inferInstanceAs (Std.TransCmp (compareLex (compareOn start) (compareOn stop)))

theorem compareBounds_total (range next : Range) :
    ((compareBounds range next).isLE || (compareBounds next range).isLE) = true := by
  have swapped : compareBounds next range = (compareBounds range next).swap :=
    Std.OrientedCmp.eq_swap
  rw [swapped]
  cases compareBounds range next <;> rfl

theorem compareBounds_trans (range between next : Range)
    (first : (compareBounds range between).isLE = true)
    (second : (compareBounds between next).isLE = true) :
    (compareBounds range next).isLE = true :=
  Std.TransCmp.isLE_trans first second

private theorem floor_le_of_compareBounds {range next : Range}
    (ordered : (range.compareBounds next).isLE = true) : range.floor ≤ next.floor := by
  have starts := Ordering.isLE_left_of_isLE_then ordered
  unfold floor
  cases first : range.start with
  | none => exact Point.least_le _
  | some start =>
      cases second : next.start with
      | none =>
          rw [compareOn, first, second] at starts
          cases starts
      | some other =>
          rw [compareOn, first, second] at starts
          exact starts

theorem areOrdered_inOrder {ranges : List Range} (proper : ∀ range ∈ ranges, range.IsProper) :
    AreOrdered (inOrder ranges) := by
  refine ⟨fun range member => proper range (List.mem_mergeSort.mp member), ?_⟩
  have sorted : (inOrder ranges).Pairwise fun a b => (compareBounds a b).isLE = true :=
    List.pairwise_mergeSort compareBounds_trans compareBounds_total ranges
  exact sorted.imp floor_le_of_compareBounds

theorem covers_inOrder {ranges : List Range} {point : Point} :
    Covers (inOrder ranges) point ↔ Covers ranges point := by
  simp only [Covers, inOrder, List.mem_mergeSort]

/-! ### Unions -/

theorem union_singleton (range : Range) : union [range] = [range] := by
  rw [union, inOrder, List.mergeSort_singleton]
  rfl

theorem not_contains_empty (point : Point) : ¬empty.contains point = true := by
  intro inside
  have below : point < .least := (contains_iff.mp inside).2 .least rfl
  exact absurd (Point.least_le point) (not_le.mpr below)

theorem not_covers_empty (point : Point) : ¬Covers [empty] point := by
  rw [covers_cons]
  intro covered
  exact covered.elim (not_contains_empty point) covers_nil

theorem covers_union {ranges : List Range} {point : Point}
    (proper : ∀ range ∈ ranges, range.IsProper) :
    Covers (union ranges) point ↔ Covers ranges point := by
  have ordered := areOrdered_inOrder proper
  refine Iff.trans ?_ covers_inOrder
  unfold union
  cases sorted : inOrder ranges with
  | nil => exact iff_of_false (not_covers_empty point) covers_nil
  | cons first rest =>
      rw [sorted] at ordered
      rw [coalesce, ← covers_coalesceFrom ordered]
      split
      · next none => exact absurd none (coalesceFrom_ne_nil first rest)
      · rfl

theorem isCanonical_union {ranges : List Range} (proper : ∀ range ∈ ranges, range.IsProper) :
    IsCanonical (union ranges) := by
  have ordered := areOrdered_inOrder proper
  unfold union
  cases sorted : inOrder ranges with
  | nil => exact .inl rfl
  | cons first rest =>
      rw [sorted] at ordered
      rw [coalesce]
      split
      · exact .inl rfl
      · next joined => exact .inr ⟨joined, areSeparated_coalesceFrom ordered⟩

end Range

end Versioning
