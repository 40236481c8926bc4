import Versioning.Proofs.Range.Union

/-!
What the normal form is good for. Separated ranges are in ascending order and hold no point twice,
and there is one list of them for each set of points.
-/

namespace Versioning

namespace Range

/-! ### Order -/

theorem StopsBefore.lt_of_contains {range next : Range} (before : range.StopsBefore next)
    {point : Point} (inside : next.contains point = true) :
    ∃ stop ∈ range.stop, stop < point := by
  obtain ⟨stop, stops, start, starts, below⟩ := before
  have above : start ≤ point := by
    have floor := (contains_iff.mp inside).1
    rw [Range.floor, starts] at floor
    exact floor
  exact ⟨stop, stops, below.trans_le above⟩

private theorem StopsBefore.trans {range between next : Range} (first : range.StopsBefore between)
    (second : between.StopsBefore next) : range.StopsBefore next := by
  obtain ⟨stop, stops, start, starts, below⟩ := first
  obtain ⟨later, laterStops, last, lastStarts, above⟩ := second
  have inside : start < later := between.start_lt_stop start starts later laterStops
  exact ⟨stop, stops, last, lastStarts, below.trans (inside.trans above)⟩

instance : Trans StopsBefore StopsBefore StopsBefore := ⟨StopsBefore.trans⟩

theorem StopsBefore.compareBounds_eq {range next : Range} (before : range.StopsBefore next) :
    compareBounds range next = .lt := by
  obtain ⟨stop, stops, start, starts, below⟩ := before
  have first : compareOn Range.start range next = .lt := by
    rw [compareOn, starts]
    cases found : range.start with
    | none => rfl
    | some own => exact (range.start_lt_stop own found stop stops).trans below
  rw [compareBounds, compareLex, first, Ordering.lt_then]

theorem StopsBefore.intersects_eq {range next : Range} (before : range.StopsBefore next) :
    range.intersects next = false := by
  obtain ⟨stop, stops, start, starts, below⟩ := before
  have overtaken : next.startsBelowStopOf range = false := by
    rw [startsBelowStopOf, starts, stops]
    exact decide_eq_false (lt_asymm below)
  rw [intersects, overtaken, Bool.and_false]

theorem StopsBefore.isAdjacentTo_eq {range next : Range} (before : range.StopsBefore next) :
    range.isAdjacentTo next = false := by
  obtain ⟨stop, stops, start, starts, below⟩ := before
  rw [isAdjacentTo, starts, stops]
  exact beq_false_of_ne below.ne

theorem start_isSome_of_mem_tail {ranges : List Range} (ascending : ranges.Pairwise StopsBefore) :
    ∀ range ∈ ranges.tail, range.start.isSome = true := by
  cases ascending with
  | nil => simp
  | cons before later =>
      intro range member
      obtain ⟨-, -, start, starts, -⟩ := before range member
      exact Option.isSome_of_mem starts

theorem stop_isSome_of_mem_dropLast {ranges : List Range}
    (ascending : ranges.Pairwise StopsBefore) :
    ∀ range ∈ ranges.dropLast, range.stop.isSome = true := by
  intro range member
  have nonempty : ranges ≠ [] := by
    intro none
    rw [none] at member
    cases member
  rw [← List.dropLast_append_getLast nonempty, List.pairwise_append] at ascending
  obtain ⟨stop, stops, -⟩ := ascending.2.2 range member _ (List.mem_singleton_self _)
  exact Option.isSome_of_mem stops

theorem IsCanonical.pairwise {ranges : List Range} (canonical : IsCanonical ranges) :
    ranges.Pairwise StopsBefore := by
  rcases canonical with rfl | ⟨-, separated⟩
  · exact List.pairwise_singleton _ _
  · exact separated.chain.pairwise

theorem IsCanonical.ne_nil {ranges : List Range} (canonical : IsCanonical ranges) :
    ranges ≠ [] := by
  rcases canonical with rfl | ⟨nonempty, -⟩
  · exact List.cons_ne_nil _ _
  · exact nonempty

namespace AreSeparated

variable {range : Range} {rest : List Range} {point : Point}

private theorem tail (separated : AreSeparated (range :: rest)) : AreSeparated rest :=
  ⟨(List.forall_mem_cons.mp separated.proper).2, separated.chain.of_cons⟩

theorem head (separated : AreSeparated (range :: rest)) : range.IsProper :=
  (List.forall_mem_cons.mp separated.proper).1

theorem stop_lt_of_covers (separated : AreSeparated (range :: rest)) (later : Covers rest point) :
    ∃ stop ∈ range.stop, stop < point := by
  obtain ⟨other, member, inside⟩ := later
  have before := (List.pairwise_cons.mp separated.chain.pairwise).1 other member
  exact before.lt_of_contains inside

private theorem floor_le_of_covers (separated : AreSeparated (range :: rest))
    (covered : Covers (range :: rest) point) : range.floor ≤ point := by
  rcases covers_cons.mp covered with inside | later
  · exact (contains_iff.mp inside).1
  · obtain ⟨stop, member, below⟩ := separated.stop_lt_of_covers later
    exact (separated.head.floor_lt_stop stop member).le.trans below.le

private theorem not_contains_of_covers (separated : AreSeparated (range :: rest))
    (later : Covers rest point) : ¬range.contains point = true := by
  intro inside
  obtain ⟨stop, member, below⟩ := separated.stop_lt_of_covers later
  exact lt_asymm below ((contains_iff.mp inside).2 stop member)

private theorem covers_tail_iff (separated : AreSeparated (range :: rest)) :
    Covers rest point ↔ Covers (range :: rest) point ∧ ¬range.contains point = true := by
  rw [covers_cons]
  constructor
  · intro later
    exact ⟨.inr later, separated.not_contains_of_covers later⟩
  · intro ⟨covered, outside⟩
    exact covered.resolve_left outside

theorem exists_covers {ranges : List Range} (separated : AreSeparated ranges)
    (nonempty : ranges ≠ []) : ∃ point, Covers ranges point := by
  obtain ⟨range, member⟩ := List.exists_mem_of_ne_nil ranges nonempty
  exact ⟨range.floor, range, member, (separated.proper range member).contains_floor⟩

/-- The first of several separated ranges is the stretch of points up to the first gap. -/
theorem contains_head_iff (separated : AreSeparated (range :: rest)) :
    range.contains point = true ↔ range.floor ≤ point ∧
      ∀ other, range.floor ≤ other → other ≤ point → Covers (range :: rest) other := by
  constructor
  · intro inside
    obtain ⟨above, below⟩ := contains_iff.mp inside
    refine ⟨above, fun other from' upTo => covers_cons.mpr (.inl (contains_iff.mpr ⟨from', ?_⟩))⟩
    intro stop member
    exact lt_of_le_of_lt upTo (below stop member)
  · intro ⟨above, covered⟩
    refine contains_iff.mpr ⟨above, fun stop member => not_le.mp fun past => ?_⟩
    -- the stop itself is the first point that is missing
    have atStop := covered stop (separated.head.floor_lt_stop stop member).le past
    rcases covers_cons.mp atStop with inside | later
    · exact lt_irrefl stop ((contains_iff.mp inside).2 stop member)
    · obtain ⟨same, stops, below⟩ := separated.stop_lt_of_covers later
      cases Option.mem_unique member stops
      exact lt_irrefl stop below

end AreSeparated

/-! ### Uniqueness -/

private theorem IsProper.start_eq {range : Range} (proper : range.IsProper) :
    range.start = if range.floor = .least then none else some range.floor := by
  cases found : range.start with
  | none => simp [floor, found]
  | some start =>
      have positive := proper.least_lt_start start found
      simp [floor, found, positive.ne']

private theorem IsProper.mem_stop_iff {range : Range} (proper : range.IsProper) {stop : Point} :
    stop ∈ range.stop ↔ range.floor < stop ∧
      ∀ point, range.floor ≤ point → (range.contains point = true ↔ point < stop) := by
  constructor
  · intro member
    refine ⟨proper.floor_lt_stop stop member, fun point above => ?_⟩
    rw [contains_iff, and_iff_right above]
    constructor
    · intro below
      exact below stop member
    · intro below other same
      cases Option.mem_unique member same
      exact below
  · intro ⟨above, inside⟩
    cases found : range.stop with
    | none =>
        have unbounded : range.contains stop = true :=
          contains_iff.mpr ⟨above.le, by simp [found]⟩
        exact absurd ((inside stop above.le).mp unbounded) (lt_irrefl stop)
    | some last =>
        have bounded : range.contains last = true ↔ last < stop :=
          inside last (proper.floor_lt_stop last found).le
        have atStop := inside stop above.le
        rw [contains_iff, found] at bounded atStop
        simp only [Option.mem_def, Option.some.injEq, forall_eq', lt_irrefl, and_false, false_iff,
          iff_false, not_and] at bounded atStop ⊢
        exact le_antisymm (not_lt.mp (atStop above.le)) (not_lt.mp bounded)

private theorem IsProper.eq_of_contains_iff {range other : Range} (proper : range.IsProper)
    (properOther : other.IsProper)
    (same : ∀ point, range.contains point = true ↔ other.contains point = true) :
    range = other := by
  have floors : range.floor = other.floor := by
    apply le_antisymm
    · exact (contains_iff.mp ((same _).mpr properOther.contains_floor)).1
    · exact (contains_iff.mp ((same _).mp proper.contains_floor)).1
  apply Range.ext
  · rw [proper.start_eq, properOther.start_eq, floors]
  · apply Option.ext
    intro stop
    change stop ∈ range.stop ↔ stop ∈ other.stop
    rw [proper.mem_stop_iff, properOther.mem_stop_iff, floors]
    simp only [same]

/-- Separated ranges are settled by the points that they hold. -/
theorem AreSeparated.eq_of_covers_iff {ranges others : List Range} (separated : AreSeparated ranges)
    (separatedOthers : AreSeparated others)
    (same : ∀ point, Covers ranges point ↔ Covers others point) : ranges = others := by
  induction ranges generalizing others with
  | nil =>
      cases others with
      | nil => rfl
      | cons other later =>
          have inside := separatedOthers.head.contains_floor
          exact absurd ((same _).mpr (covers_cons.mpr (.inl inside))) covers_nil
  | cons range rest ih =>
      cases others with
      | nil =>
          have inside := separated.head.contains_floor
          exact absurd ((same _).mp (covers_cons.mpr (.inl inside))) covers_nil
      | cons other later =>
          have floors : range.floor = other.floor := by
            apply le_antisymm
            · apply separated.floor_le_of_covers
              exact (same _).mpr (covers_cons.mpr (.inl separatedOthers.head.contains_floor))
            · apply separatedOthers.floor_le_of_covers
              exact (same _).mp (covers_cons.mpr (.inl separated.head.contains_floor))
          have heads : range = other := by
            apply separated.head.eq_of_contains_iff separatedOthers.head
            intro point
            rw [separated.contains_head_iff, separatedOthers.contains_head_iff, floors]
            simp only [same]
          subst other
          have tails : rest = later := by
            apply ih separated.tail separatedOthers.tail
            intro point
            rw [separated.covers_tail_iff, separatedOthers.covers_tail_iff, same]
          rw [tails]

theorem IsCanonical.eq_of_covers_iff {ranges others : List Range} (canonical : IsCanonical ranges)
    (canonicalOthers : IsCanonical others)
    (same : ∀ point, Covers ranges point ↔ Covers others point) : ranges = others := by
  rcases canonical with rfl | ⟨nonempty, separated⟩
  · rcases canonicalOthers with rfl | ⟨nonempty, separated⟩
    · rfl
    · obtain ⟨point, covered⟩ := separated.exists_covers nonempty
      exact absurd ((same point).mpr covered) (not_covers_empty point)
  · rcases canonicalOthers with rfl | ⟨-, separatedOthers⟩
    · obtain ⟨point, covered⟩ := separated.exists_covers nonempty
      exact absurd ((same point).mp covered) (not_covers_empty point)
    · exact separated.eq_of_covers_iff separatedOthers same

end Range

end Versioning
