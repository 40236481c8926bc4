import Mathlib.Data.List.Pairwise
import Mathlib.Tactic.Order
import Versioning.Conjunction
import Versioning.Proofs.Precedence

/-!
The points that ranges contain. Every operation on ranges is described by the points of its result;
a range counts as proper if it holds a point and no bound of it stands at the least one.
-/

namespace Versioning

namespace Range

def Covers (ranges : List Range) (point : Point) : Prop :=
  ∃ range ∈ ranges, range.contains point = true

def Apart (range other : Range) : Prop :=
  ∀ point, range.contains point = true → ¬other.contains point = true

structure IsProper (range : Range) : Prop where
  least_lt_start : ∀ start ∈ range.start, Point.least < start
  least_lt_stop : ∀ stop ∈ range.stop, Point.least < stop

/-! ### Single ranges -/

theorem getD_least_le_iff {bound : Option Point} {point : Point} :
    bound.getD .least ≤ point ↔ ∀ start ∈ bound, start ≤ point := by
  cases bound with
  | none => simp [Point.least_le]
  | some start => simp

theorem contains_iff {range : Range} {point : Point} :
    range.contains point = true ↔ range.floor ≤ point ∧ ∀ stop ∈ range.stop, point < stop := by
  unfold contains floor
  rw [Bool.and_eq_true, getD_least_le_iff]
  simp only [Option.all_eq_true, Option.mem_def, decide_eq_true_eq]

theorem IsProper.floor_lt_stop {range : Range} (proper : range.IsProper) :
    ∀ stop ∈ range.stop, range.floor < stop := by
  intro stop member
  unfold floor
  cases found : range.start with
  | none => exact proper.least_lt_stop stop member
  | some start => exact range.start_lt_stop start found stop member

theorem IsProper.contains_floor {range : Range} (proper : range.IsProper) :
    range.contains range.floor = true :=
  contains_iff.mpr ⟨le_rfl, proper.floor_lt_stop⟩

theorem between_eq_ok_iff {start stop : Option Version} {range : Range} :
    between start stop = .ok range ↔
      range.start = start.map Version.toPoint ∧ range.stop = stop.map Version.toPoint := by
  have made (other : Range) : Except.ok (ε := ConstraintError) other = .ok range ↔
      range.start = other.start ∧ range.stop = other.stop := by
    rw [Except.ok.injEq, eq_comm, Range.ext_iff]
  match start, stop with
  | none, none => exact made any
  | some start, none => exact made (startingAt start.toPoint)
  | none, some stop => exact made (stoppingAt stop.toPoint)
  | some start, some stop =>
      rw [between]
      split
      · next below => exact made (segment start.toPoint stop.toPoint below)
      · next reached =>
        refine iff_of_false nofun fun ⟨starts, stops⟩ => reached ?_
        exact range.start_lt_stop _ starts _ stops

theorem between_eq_error_iff {start stop : Option Version} {error : ConstraintError} :
    between start stop = .error error ↔ ∃ first ∈ start, ∃ last ∈ stop,
      last.toPoint ≤ first.toPoint ∧ error = .invalidRange first last := by
  match start, stop with
  | none, none => simp [between]
  | some first, none => simp [between]
  | none, some last => simp [between]
  | some first, some last =>
      rw [between]
      split
      · next below => simp [below]
      · next reached => simp [not_lt.mp reached, eq_comm]

/-- The bounds of a range are the versions that it is made of, without their build metadata. -/
theorem toVersion_bounds_of_between {start stop : Option Version} {range : Range}
    (found : between start stop = .ok range) :
    range.start.map Point.toVersion = start.map Version.withoutBuild ∧
      range.stop.map Point.toVersion = stop.map Version.withoutBuild := by
  obtain ⟨starts, stops⟩ := between_eq_ok_iff.mp found
  rw [starts, stops, Option.map_map, Option.map_map]
  exact ⟨rfl, rfl⟩

theorem between_withoutBuild_eq_ok_iff {start stop : Option Version} {range : Range} :
    between (start.map Version.withoutBuild) (stop.map Version.withoutBuild) = .ok range ↔
      between start stop = .ok range := by
  rw [between_eq_ok_iff, between_eq_ok_iff, Option.map_map, Option.map_map]
  rfl

theorem bounds_of_between {start stop : Option Point} {range : Range}
    (found : between (start.map Point.toVersion) (stop.map Point.toVersion) = .ok range) :
    range.start = start ∧ range.stop = stop := by
  have same (bound : Option Point) : (bound.map Point.toVersion).map Version.toPoint = bound := by
    cases bound <;> rfl
  simpa only [same] using between_eq_ok_iff.mp found

/-! ### Lists of ranges -/

@[simp]
theorem covers_nil {point : Point} : ¬Covers [] point := by
  intro covered
  obtain ⟨range, member, -⟩ := covered
  cases member

@[simp]
theorem covers_cons {range : Range} {rest : List Range} {point : Point} :
    Covers (range :: rest) point ↔ range.contains point = true ∨ Covers rest point := by
  simp only [Covers, List.mem_cons, exists_eq_or_imp]

@[simp]
theorem covers_append {front back : List Range} {point : Point} :
    Covers (front ++ back) point ↔ Covers front point ∨ Covers back point := by
  simp only [Covers, List.mem_append, or_and_right, exists_or]

theorem covers_perm {ranges others : List Range} {point : Point} (order : ranges.Perm others) :
    Covers ranges point ↔ Covers others point := by
  simp only [Covers, order.mem_iff]

theorem Apart.symm {range other : Range} (apart : range.Apart other) : other.Apart range :=
  fun point within inside => apart point inside within

theorem pairwise_apart_append (front back : List Range) :
    (front ++ back).Pairwise Apart ↔ front.Pairwise Apart ∧ back.Pairwise Apart ∧
      ∀ point, Covers front point → ¬Covers back point := by
  rw [List.pairwise_append]
  refine and_congr_right fun _ => and_congr_right fun _ => ?_
  constructor
  · intro apart point coveredFront coveredBack
    obtain ⟨range, first, inside⟩ := coveredFront
    obtain ⟨other, second, within⟩ := coveredBack
    exact apart range first other second point inside within
  · intro apart range first other second point inside within
    exact apart point ⟨range, first, inside⟩ ⟨other, second, within⟩

theorem pairwise_apart_cons {range : Range} {rest : List Range} :
    (range :: rest).Pairwise Apart ↔ rest.Pairwise Apart ∧
      ∀ point, range.contains point = true → ¬Covers rest point := by
  simpa using pairwise_apart_append [range] rest

/-! ### Taking points out -/

theorem bounds_of_spanning? {lower upper : Option Point} {range : Range}
    (spans : range ∈ spanning? lower upper) : range.start = lower ∧ range.stop = upper := by
  unfold spanning? at spans
  split at spans
  · cases spans
    exact ⟨rfl, rfl⟩
  · cases spans

theorem covers_spanning? {lower upper : Option Point} {point : Point} :
    Covers (spanning? lower upper).toList point ↔
      lower.getD .least ≤ point ∧ ∀ stop ∈ upper, point < stop := by
  unfold spanning?
  split
  · simp [contains_iff, floor]
  · next hollow =>
    simp only [Option.toList_none, covers_nil, false_iff, not_and]
    intro above below
    exact hollow fun stop member => lt_of_le_of_lt above (below stop member)

theorem isProper_of_spanning? {lower upper : Option Point} {range : Range}
    (positive : ∀ start ∈ lower, Point.least < start) (spans : range ∈ spanning? lower upper) :
    range.IsProper := by
  unfold spanning? at spans
  split at spans
  · next below =>
    cases spans
    exact ⟨positive, fun stop member => lt_of_le_of_lt (Point.least_le _) (below stop member)⟩
  · cases spans

theorem pieces_of_without {range : Range} {point : Point} {pieces : List Range}
    (removed : range.without point = .ok pieces) :
    ∃ resume, point.next = .ok resume ∧
      (range.before? point).toList ++ (range.after? resume).toList = pieces := by
  obtain ⟨resume, next, same⟩ := Outcome.bind_eq_ok_iff.mp removed
  exact ⟨resume, next, Outcome.pure_eq_ok_iff.mp same⟩

/-- A range without a point is covered by what stands below the point and what stands from the next
point on. -/
theorem covers_without {range : Range} {point : Point} {pieces : List Range}
    (inside : range.contains point = true) (removed : range.without point = .ok pieces)
    (other : Point) :
    Covers pieces other ↔ range.contains other = true ∧ other ≠ point := by
  obtain ⟨resume, next, same⟩ := pieces_of_without removed
  subst same
  rw [covers_append, before?, after?, covers_spanning?, covers_spanning?, contains_iff]
  obtain ⟨-, beforeStop⟩ := contains_iff.mp inside
  have resumes : resume ≤ other ↔ point < other := by
    rw [← not_lt, Point.lt_next_iff next, not_le]
  change (range.floor ≤ other ∧ ∀ stop ∈ some point, other < stop) ∨
    (resume ≤ other ∧ ∀ stop ∈ range.stop, other < stop) ↔ _
  rw [resumes]
  constructor
  · intro either
    rcases either with ⟨above, below⟩ | ⟨above, below⟩
    · have before : other < point := below point rfl
      exact ⟨⟨above, fun stop member => before.trans (beforeStop stop member)⟩, before.ne⟩
    · exact ⟨⟨(contains_iff.mp inside).1.trans above.le, below⟩, above.ne'⟩
  · intro ⟨⟨above, below⟩, different⟩
    rcases lt_or_gt_of_ne different with before | after
    · exact .inl ⟨above, fun stop member => by cases member; exact before⟩
    · exact .inr ⟨after, below⟩

theorem IsProper.without {range : Range} {point : Point} {pieces : List Range}
    (proper : range.IsProper) (removed : range.without point = .ok pieces) :
    ∀ piece ∈ pieces, piece.IsProper := by
  obtain ⟨resume, next, same⟩ := pieces_of_without removed
  subst same
  intro piece member
  rcases List.mem_append.mp member with before | after
  · exact isProper_of_spanning? proper.least_lt_start (Option.mem_toList.mp before)
  · refine isProper_of_spanning? ?_ (Option.mem_toList.mp after)
    intro start same
    cases same
    exact (Point.lt_next_iff next).mpr (Point.least_le point)

theorem pairwise_apart_without {range : Range} {point : Point} {pieces : List Range}
    (removed : range.without point = .ok pieces) : pieces.Pairwise Apart := by
  obtain ⟨resume, next, same⟩ := pieces_of_without removed
  subst same
  rw [pairwise_apart_append]
  refine ⟨?_, ?_, ?_⟩
  · cases range.before? point <;> simp
  · cases range.after? resume <;> simp
  · intro other before after
    rw [before?, covers_spanning?] at before
    rw [after?, covers_spanning?] at after
    have below : other < resume :=
      (Point.lt_next_iff next).mpr (before.2 point rfl).le
    exact absurd after.1 (not_le.mpr below)

end Range

end Versioning
