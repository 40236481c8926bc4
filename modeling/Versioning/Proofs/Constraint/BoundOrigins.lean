import Versioning.Proofs.Constraint.Satisfaction

/-!
Where bounds come from. Normalizing selects, splits and joins, and does not make up a bound: each
one is the reference of a comparator or the point after it. Hence a pre-release satisfies a
constraint only if a comparator of the constraint names its core.
-/

namespace Versioning

/-- The bounds that a comparator can give to the start of a range. -/
inductive Comparator.Starts : Comparator → Point → Prop
  | atLeast (point : Point) : Starts ⟨.atLeast, point⟩ point
  | equal (point : Point) : Starts ⟨.equal, point⟩ point
  | afterNotEqual {point next : Point} (follows : point.next = .ok next) :
      Starts ⟨.notEqual, point⟩ next

/-- The bounds that a comparator can give to the stop of a range. -/
inductive Comparator.Stops : Comparator → Point → Prop
  | below (point : Point) : Stops ⟨.below, point⟩ point
  | notEqual (point : Point) : Stops ⟨.notEqual, point⟩ point
  | afterEqual {point next : Point} (follows : point.next = .ok next) :
      Stops ⟨.equal, point⟩ next

def Conjunction.Starts (conjunction : Conjunction) (point : Point) : Prop :=
  ∃ comparator ∈ conjunction, comparator.Starts point

def Conjunction.Stops (conjunction : Conjunction) (point : Point) : Prop :=
  ∃ comparator ∈ conjunction, comparator.Stops point

namespace Range

structure IsBoundedBy (starts stops : Point → Prop) (range : Range) : Prop where
  start_of : ∀ start ∈ range.start, starts start
  stop_of : ∀ stop ∈ range.stop, stops stop

variable {starts stops : Point → Prop} {range next : Range}

private theorem IsBoundedBy.mono {moreStarts moreStops : Point → Prop}
    (bounded : range.IsBoundedBy starts stops)
    (startsToo : ∀ point, starts point → moreStarts point)
    (stopsToo : ∀ point, stops point → moreStops point) :
    range.IsBoundedBy moreStarts moreStops where
  start_of := fun start member => startsToo start (bounded.start_of start member)
  stop_of := fun stop member => stopsToo stop (bounded.stop_of stop member)

theorem isBoundedBy_of_spanning? {lower upper : Option Point}
    (fromStart : ∀ start ∈ lower, starts start) (toStop : ∀ stop ∈ upper, stops stop)
    (spans : range ∈ spanning? lower upper) : range.IsBoundedBy starts stops := by
  obtain ⟨startsAt, stopsAt⟩ := bounds_of_spanning? spans
  subst startsAt stopsAt
  exact ⟨fromStart, toStop⟩

/-! ### Splitting -/

theorem IsBoundedBy.without {point : Point} {pieces : List Range}
    (bounded : range.IsBoundedBy starts stops) (stopsAt : stops point)
    (startsAfter : ∀ resume, point.next = .ok resume → starts resume)
    (removed : range.without point = .ok pieces) :
    ∀ piece ∈ pieces, piece.IsBoundedBy starts stops := by
  obtain ⟨resume, next, same⟩ := pieces_of_without removed
  subst same
  intro piece member
  rcases List.mem_append.mp member with before | after
  · refine isBoundedBy_of_spanning? bounded.start_of ?_ (Option.mem_toList.mp before)
    intro stop same
    cases same
    exact stopsAt
  · refine isBoundedBy_of_spanning? ?_ bounded.stop_of (Option.mem_toList.mp after)
    intro start same
    cases same
    exact startsAfter resume next

/-! ### Joining -/

private theorem mem_laterStop {first second : Option Point} {stop : Point}
    (member : stop ∈ laterStop first second) : stop ∈ first ∨ stop ∈ second := by
  match first, second with
  | some early, some late =>
      cases member
      rcases max_choice early late with same | same
      · exact .inl (congrArg some same.symm)
      · exact .inr (congrArg some same.symm)
  | none, _ => cases member
  | some _, none => cases member

private theorem IsBoundedBy.extendedBy (bounded : range.IsBoundedBy starts stops)
    (boundedNext : next.IsBoundedBy starts stops) :
    (range.extendedBy next).IsBoundedBy starts stops where
  start_of := bounded.start_of
  stop_of := fun stop member =>
    (mem_laterStop member).elim (bounded.stop_of stop) (boundedNext.stop_of stop)

private theorem isBoundedBy_of_mem_coalesceFrom {current : Range} {rest : List Range}
    (bounded : ∀ range ∈ current :: rest, range.IsBoundedBy starts stops) :
    ∀ range ∈ coalesceFrom current rest, range.IsBoundedBy starts stops := by
  fun_induction coalesceFrom current rest with
  | case1 current => exact bounded
  | case2 current next rest meets ih =>
      obtain ⟨first, others⟩ := List.forall_mem_cons.mp bounded
      obtain ⟨second, later⟩ := List.forall_mem_cons.mp others
      exact ih (List.forall_mem_cons.mpr ⟨first.extendedBy second, later⟩)
  | case3 current next rest apart ih =>
      obtain ⟨first, others⟩ := List.forall_mem_cons.mp bounded
      exact List.forall_mem_cons.mpr ⟨first, ih others⟩

private theorem isBoundedBy_of_mem_coalesce {ranges : List Range}
    (bounded : ∀ range ∈ ranges, range.IsBoundedBy starts stops) :
    ∀ range ∈ coalesce ranges, range.IsBoundedBy starts stops := by
  cases ranges with
  | nil => exact bounded
  | cons range rest => exact isBoundedBy_of_mem_coalesceFrom bounded

theorem isBoundedBy_of_mem_union {ranges : List Range}
    (bounded : ∀ range ∈ ranges, range.IsBoundedBy starts stops) :
    union ranges = [empty] ∨ ∀ range ∈ union ranges, range.IsBoundedBy starts stops := by
  have ordered : ∀ range ∈ inOrder ranges, range.IsBoundedBy starts stops := by
    intro range member
    exact bounded range (List.mem_mergeSort.mp member)
  have joined := isBoundedBy_of_mem_coalesce ordered
  unfold union
  split
  · exact .inl rfl
  · exact .inr joined

end Range

/-! ### Conjunctions -/

namespace Conjunction

variable {conjunction : Conjunction} {ranges remaining : List Range} {point : Point}

private theorem starts_of_lower? (member : point ∈ conjunction.lower?) :
    conjunction.Starts point := by
  obtain ⟨greatest, -⟩ := Option.mem_filter_iff.mp member
  rcases List.mem_append.mp (List.max?_mem greatest) with atLeast | equal
  · exact ⟨_, mem_references_iff.mp atLeast, .atLeast point⟩
  · exact ⟨_, mem_references_iff.mp equal, .equal point⟩

private theorem stops_of_upper {upper : Option Point} (found : conjunction.upper = .ok upper)
    (member : point ∈ upper) : conjunction.Stops point := by
  obtain ⟨stops, next, same⟩ := Outcome.bind_eq_ok_iff.mp found
  cases same
  rcases List.mem_append.mp (List.min?_mem member) with below | after
  · exact ⟨_, mem_references_iff.mp below, .below point⟩
  · obtain ⟨reference, required, follows⟩ :=
      Outcome.exists_mem_of_forall₂ (Outcome.mapM_eq_ok_iff.mp next) after
    exact ⟨_, mem_references_iff.mp required, .afterEqual follows⟩

private theorem isBoundedBy_of_exclude (excluded : point ∈ conjunction.references .notEqual)
    (bounded : ∀ range ∈ ranges, range.IsBoundedBy conjunction.Starts conjunction.Stops)
    (removed : exclude point ranges = .ok remaining) :
    ∀ range ∈ remaining, range.IsBoundedBy conjunction.Starts conjunction.Stops := by
  have written := mem_references_iff.mp excluded
  by_cases covers : Range.Covers ranges point
  · obtain ⟨range, others, pieces, -, without, order, left⟩ := perm_of_exclude covers removed
    simp only [order.mem_iff] at bounded
    obtain ⟨first, later⟩ := List.forall_mem_cons.mp bounded
    have split := first.without ⟨_, written, .notEqual point⟩
      (fun _ follows => ⟨_, written, .afterNotEqual follows⟩) without
    simp only [left.mem_iff]
    exact List.forall_mem_append.mpr ⟨split, later⟩
  · rw [exclude_of_not_covers covers] at removed
    cases removed
    exact bounded

private theorem isBoundedBy_of_excludeAll {points : List Point}
    (excluded : ∀ point ∈ points, point ∈ conjunction.references .notEqual)
    (bounded : ∀ range ∈ ranges, range.IsBoundedBy conjunction.Starts conjunction.Stops)
    (removed : excludeAll ranges points = .ok remaining) :
    ∀ range ∈ remaining, range.IsBoundedBy conjunction.Starts conjunction.Stops := by
  induction points generalizing ranges with
  | nil =>
      cases removed
      exact bounded
  | cons point rest ih =>
      obtain ⟨here, others⟩ := List.forall_mem_cons.mp excluded
      obtain ⟨between, first, later⟩ := Outcome.bind_eq_ok_iff.mp removed
      exact ih others (isBoundedBy_of_exclude here bounded first) later

theorem isBoundedBy_of_ranges (found : conjunction.ranges = .ok ranges) :
    ∀ range ∈ ranges, range.IsBoundedBy conjunction.Starts conjunction.Stops := by
  unfold Conjunction.ranges at found
  split at found
  · cases found
    exact List.forall_mem_nil _
  · obtain ⟨upper, stop, found⟩ := Outcome.bind_eq_ok_iff.mp found
    split at found
    · cases found
      exact List.forall_mem_nil _
    · next interval spans =>
      have bounded := Range.isBoundedBy_of_spanning? (fun _ member => starts_of_lower? member)
        (fun _ member => stops_of_upper stop member) spans
      exact isBoundedBy_of_excludeAll (fun _ member => member)
        (List.forall_mem_singleton.mpr bounded) found

end Conjunction

/-! ### Disjunctions -/

private theorem isBoundedBy_flatten {conjunctions : List Conjunction} {lists : List (List Range)}
    (pairs : List.Forall₂ (fun conjunction list => conjunction.ranges = .ok list)
      conjunctions lists) :
    ∀ range ∈ lists.flatten, range.IsBoundedBy
      (fun point => ∃ conjunction ∈ conjunctions, conjunction.Starts point)
      (fun point => ∃ conjunction ∈ conjunctions, conjunction.Stops point) := by
  intro range member
  obtain ⟨list, among, inside⟩ := List.mem_flatten.mp member
  obtain ⟨conjunction, written, found⟩ := Outcome.exists_mem_of_forall₂ pairs among
  exact (Conjunction.isBoundedBy_of_ranges found range inside).mono
    (fun _ starts => ⟨conjunction, written, starts⟩)
    (fun _ stops => ⟨conjunction, written, stops⟩)

theorem isBoundedBy_normalize {conjunctions : List Conjunction} {ranges : List Range}
    (normal : normalize conjunctions = .ok ranges) :
    ranges = [.empty] ∨ ∀ range ∈ ranges, range.IsBoundedBy
      (fun point => ∃ conjunction ∈ conjunctions, conjunction.Starts point)
      (fun point => ∃ conjunction ∈ conjunctions, conjunction.Stops point) := by
  obtain ⟨lists, pairs, same⟩ := normalize_eq_ok_iff.mp normal
  subst same
  exact Range.isBoundedBy_of_mem_union (isBoundedBy_flatten pairs)

theorem Constraint.exists_names_of_isSatisfiedBy {constraint : Constraint} {version : Version}
    (preRelease : version.isPreRelease = true)
    (satisfied : constraint.isSatisfiedBy version = true) :
    ∃ branch ∈ constraint.branches, ∃ comparator ∈ branch.conjunction, ∃ bound,
      (comparator.Starts bound ∨ comparator.Stops bound) ∧
        bound.isPreRelease = true ∧ bound.toCore = version.toCore := by
  obtain ⟨range, member, inside, allowed⟩ := admits_eq_true_iff.mp satisfied
  have named : range.namesPreReleaseOf version.toCore = true := by
    simpa [preRelease] using allowed
  obtain ⟨bound, among, names⟩ := Range.namesPreReleaseOf_iff.mp named
  have listed : range ∈ constraint.ranges.toList := Array.mem_toList_iff.mpr member
  rcases isBoundedBy_normalize constraint.ranges_eq with alone | bounded
  · rw [alone, List.mem_singleton] at listed
    subst listed
    exact absurd inside (Range.not_contains_empty _)
  · have source : ∃ conjunction ∈ constraint.branches.map Branch.conjunction,
        conjunction.Starts bound ∨ conjunction.Stops bound := by
      rcases among with starts | stops
      · obtain ⟨conjunction, written, gives⟩ := (bounded range listed).start_of bound starts
        exact ⟨conjunction, written, .inl gives⟩
      · obtain ⟨conjunction, written, gives⟩ := (bounded range listed).stop_of bound stops
        exact ⟨conjunction, written, .inr gives⟩
    obtain ⟨_, written, gives⟩ := source
    obtain ⟨branch, memberBranch, rfl⟩ := List.mem_map.mp written
    rcases gives with ⟨comparator, required, starts⟩ | ⟨comparator, required, stops⟩
    · exact ⟨branch, memberBranch, comparator, required, bound, .inl starts, names⟩
    · exact ⟨branch, memberBranch, comparator, required, bound, .inr stops, names⟩

/-- Normalizing makes up no bound: a start can be given by some comparator as a start, and a stop as
a stop, but for the stop of the empty range. Hence a pre-release satisfies a constraint only if some
comparator gives a bound that is a pre-release of the same core. -/
theorem bounds_come_from_comparators :
    (∀ (conjunctions : List Conjunction) (ranges : List Range),
      normalize conjunctions = .ok ranges → ∀ range ∈ ranges,
        (∀ start ∈ range.start, ∃ conjunction ∈ conjunctions, ∃ comparator ∈ conjunction,
          comparator.Starts start) ∧
        ∀ stop ∈ range.stop,
          (∃ conjunction ∈ conjunctions, ∃ comparator ∈ conjunction, comparator.Stops stop) ∨
            ranges = [.empty] ∧ stop = .least) ∧
    ∀ (constraint : Constraint) (version : Version), version.isPreRelease = true →
      constraint.isSatisfiedBy version = true →
        ∃ branch ∈ constraint.branches, ∃ comparator ∈ branch.conjunction, ∃ bound,
          (comparator.Starts bound ∨ comparator.Stops bound) ∧
            bound.isPreRelease = true ∧ bound.toCore = version.toCore := by
  refine ⟨?_, fun _ _ => Constraint.exists_names_of_isSatisfiedBy⟩
  intro conjunctions ranges normal range member
  rcases isBoundedBy_normalize normal with alone | bounded
  · rw [alone, List.mem_singleton] at member
    subst member
    refine ⟨fun _ impossible => (nomatch impossible), fun stop same => ?_⟩
    cases same
    exact .inr ⟨alone, rfl⟩
  · refine ⟨(bounded range member).start_of, fun stop stops => .inl ?_⟩
    exact (bounded range member).stop_of stop stops

theorem bounds_come_from_comparators_atLeast :
    (∃ comparator ∈ [Comparator.mk .atLeast ⟨⟨1, 0, 0⟩, some .least⟩],
      comparator.Starts ⟨⟨1, 0, 0⟩, some .least⟩) ∧
    ∃ constraint : Constraint,
      constraint.isSatisfiedBy (Point.toVersion ⟨⟨1, 0, 0⟩, some .least⟩) = true ∧
        ∃ branch ∈ constraint.branches, ∃ comparator ∈ branch.conjunction, ∃ bound,
          (comparator.Starts bound ∨ comparator.Stops bound) ∧
            bound.isPreRelease = true ∧ bound.toCore = ⟨1, 0, 0⟩ := by
  have normal : normalize [[⟨.atLeast, ⟨⟨1, 0, 0⟩, some .least⟩⟩]] =
      .ok [.startingAt ⟨⟨1, 0, 0⟩, some .least⟩] :=
    normalize_atLeast (by decide)
  let constraint : Constraint :=
    { branches := [[.condition (.atLeast ⟨⟨1, 0, 0⟩, some .least⟩)]]
      grammar := .simple
      preferred := none
      ranges := #[.startingAt ⟨⟨1, 0, 0⟩, some .least⟩]
      ranges_eq := normal }
  have satisfied :
      constraint.isSatisfiedBy (Point.toVersion ⟨⟨1, 0, 0⟩, some .least⟩) = true :=
    Constraint.admits_eq_true_iff.mpr
      ⟨_, Array.mem_singleton_self _, by decide, .inr (.inr (by decide))⟩
  refine ⟨?_, constraint, satisfied, bounds_come_from_comparators.2 constraint _ rfl satisfied⟩
  obtain ⟨conjunction, written, starts⟩ :=
    (bounds_come_from_comparators.1 _ _ normal _ (List.mem_singleton_self _)).1 _ rfl
  rw [List.mem_singleton] at written
  exact written ▸ starts

end Versioning
