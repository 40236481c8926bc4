import Versioning.Proofs.Range.Membership

/-!
The ranges of a conjunction. They have no point in common, each of them is proper, and together they
hold the points that all comparators admit. The bounds are settled first and the excluded points
after them, one by one.
-/

namespace Versioning

open Range (Covers Apart IsProper)

/-- What a list of ranges keeps while points are taken out of it. -/
structure Range.AreFragments (ranges : List Range) : Prop where
  proper : ∀ range ∈ ranges, range.IsProper
  apart : ranges.Pairwise Apart

namespace Range.AreFragments

variable {range : Range} {rest front back : List Range} {point : Point}

private theorem cons_iff :
    AreFragments (range :: rest) ↔ range.IsProper ∧ AreFragments rest ∧
      ∀ other, range.contains other = true → ¬Covers rest other := by
  constructor
  · intro fragments
    obtain ⟨proper, properRest⟩ := List.forall_mem_cons.mp fragments.proper
    obtain ⟨apartRest, away⟩ := pairwise_apart_cons.mp fragments.apart
    exact ⟨proper, ⟨properRest, apartRest⟩, away⟩
  · intro ⟨proper, later, away⟩
    refine ⟨List.forall_mem_cons.mpr ⟨proper, later.proper⟩, ?_⟩
    exact pairwise_apart_cons.mpr ⟨later.apart, away⟩

theorem singleton (proper : range.IsProper) : AreFragments [range] :=
  ⟨List.forall_mem_singleton.mpr proper, List.pairwise_singleton _ _⟩

private theorem append (first : AreFragments front) (second : AreFragments back)
    (away : ∀ other, Covers front other → ¬Covers back other) : AreFragments (front ++ back) := by
  refine ⟨List.forall_mem_append.mpr ⟨first.proper, second.proper⟩, ?_⟩
  exact (pairwise_apart_append front back).mpr ⟨first.apart, second.apart, away⟩

private theorem perm {ranges others : List Range} (fragments : AreFragments ranges)
    (order : ranges.Perm others) : AreFragments others where
  proper := fun range member => fragments.proper range (order.mem_iff.mpr member)
  apart := fragments.apart.perm order Apart.symm

private theorem of_without {pieces : List Range} (proper : range.IsProper)
    (removed : range.without point = .ok pieces) : AreFragments pieces :=
  ⟨proper.without removed, pairwise_apart_without removed⟩

end Range.AreFragments

namespace Conjunction

/-! ### Excluded points -/

/-- Either no range contains the point, or the first one that does makes way for its pieces. -/
theorem exclude_cases (point : Point) (ranges : List Range) :
    (¬Covers ranges point ∧ exclude point ranges = .ok ranges) ∨
      ∃ front range back, ranges = front ++ range :: back ∧ ¬Covers front point ∧
        range.contains point = true ∧
        exclude point ranges = (range.without point).map (front ++ back ++ ·) := by
  unfold exclude
  cases found : ranges.find? fun range => range.contains point with
  | none =>
      refine .inl ⟨?_, rfl⟩
      intro ⟨range, member, inside⟩
      exact List.find?_eq_none.mp found range member inside
  | some range =>
      obtain ⟨inside, front, back, split, outside⟩ := List.find?_eq_some_iff_append.mp found
      refine .inr ⟨front, range, back, split, ?_, inside, ?_⟩
      · intro ⟨other, member, within⟩
        simpa [within] using outside other member
      · have skipped : ∀ other ∈ front, ¬other.contains point = true := by
          intro other member
          simpa using outside other member
        have left : ranges.eraseP (fun range => range.contains point) = front ++ back := by
          rw [split, List.eraseP_append_right _ skipped, List.eraseP_cons, inside, cond_true]
        dsimp only
        rw [left]
        cases range.without point <;> rfl

theorem exclude_of_not_covers {point : Point} {ranges : List Range}
    (outside : ¬Covers ranges point) : exclude point ranges = .ok ranges := by
  rcases exclude_cases point ranges with ⟨-, kept⟩ | ⟨front, range, back, split, -, inside, -⟩
  · exact kept
  · refine absurd ⟨range, ?_, inside⟩ outside
    rw [split]
    exact List.mem_append_right front List.mem_cons_self

theorem perm_of_exclude {point : Point} {ranges remaining : List Range}
    (covered : Covers ranges point) (removed : exclude point ranges = .ok remaining) :
    ∃ range others pieces, range.contains point = true ∧ range.without point = .ok pieces ∧
      ranges.Perm (range :: others) ∧ remaining.Perm (pieces ++ others) := by
  rcases exclude_cases point ranges with
    ⟨outside, -⟩ | ⟨front, range, back, split, -, inside, taken⟩
  · exact absurd covered outside
  · rw [taken] at removed
    obtain ⟨pieces, without, same⟩ := Outcome.map_eq_ok_iff.mp removed
    subst split same
    exact ⟨range, front ++ back, pieces, inside, without, List.perm_middle,
      List.perm_append_comm⟩

theorem exclude_fragments {point : Point} {ranges remaining : List Range}
    (fragments : Range.AreFragments ranges) (removed : exclude point ranges = .ok remaining) :
    Range.AreFragments remaining ∧
      ∀ other, Covers remaining other ↔ Covers ranges other ∧ other ≠ point := by
  by_cases covers : Covers ranges point
  · obtain ⟨range, others, pieces, inside, without, order, left⟩ := perm_of_exclude covers removed
    obtain ⟨proper, later, away⟩ := Range.AreFragments.cons_iff.mp (fragments.perm order)
    have covered := Range.covers_without inside without
    constructor
    · refine .perm ?_ left.symm
      apply (Range.AreFragments.of_without proper without).append later
      intro other within
      exact away other ((covered other).mp within).1
    · intro other
      -- the other ranges do not hold the point, since this one does
      have kept : Covers others other → other ≠ point := by
        intro elsewhere same
        subst same
        exact away other inside elsewhere
      rw [Range.covers_perm left, Range.covers_perm order, Range.covers_append, Range.covers_cons,
        covered]
      tauto
  · rw [exclude_of_not_covers covers] at removed
    cases removed
    refine ⟨fragments, fun other => (and_iff_left_of_imp ?_).symm⟩
    intro covered same
    subst same
    exact covers covered

private theorem excludeAll_fragments {points : List Point} {ranges remaining : List Range}
    (fragments : Range.AreFragments ranges) (removed : excludeAll ranges points = .ok remaining) :
    Range.AreFragments remaining ∧
      ∀ other, Covers remaining other ↔ Covers ranges other ∧ other ∉ points := by
  induction points generalizing ranges with
  | nil =>
      cases removed
      exact ⟨fragments, by simp⟩
  | cons point rest ih =>
      obtain ⟨between, first, later⟩ := Outcome.bind_eq_ok_iff.mp removed
      obtain ⟨fragmentsBetween, coveredBetween⟩ := exclude_fragments fragments first
      obtain ⟨fragmentsLeft, covered⟩ := ih fragmentsBetween later
      refine ⟨fragmentsLeft, fun other => ?_⟩
      rw [covered, coveredBetween, List.mem_cons, not_or, and_assoc]

/-! ### Bounds -/

def HoldsAt (conjunction : Conjunction) (point : Point) : Prop :=
  ∀ comparator ∈ conjunction, comparator.relation.holds point comparator.reference = true

theorem admits_iff {conjunction : Conjunction} {version : Version} :
    conjunction.admits version = true ↔ conjunction.HoldsAt version.toPoint :=
  List.all_eq_true

theorem mem_references_iff {conjunction : Conjunction} {relation : Relation} {point : Point} :
    point ∈ conjunction.references relation ↔ ⟨relation, point⟩ ∈ conjunction := by
  simp only [references, List.mem_map, List.mem_filter, decide_eq_true_eq]
  constructor
  · intro found
    obtain ⟨comparator, ⟨member, related⟩, refers⟩ := found
    rw [← related, ← refers]
    exact member
  · intro member
    exact ⟨_, ⟨member, rfl⟩, rfl⟩

theorem holdsAt_iff {conjunction : Conjunction} {point : Point} :
    conjunction.HoldsAt point ↔
      (∀ reference ∈ conjunction.references .atLeast, reference ≤ point) ∧
      (∀ reference ∈ conjunction.references .below, point < reference) ∧
      (∀ reference ∈ conjunction.references .equal, point = reference) ∧
      point ∉ conjunction.references .notEqual := by
  simp only [mem_references_iff]
  constructor
  · intro holds
    refine ⟨?_, ?_, ?_, ?_⟩
    · intro reference member
      simpa [Relation.holds] using holds _ member
    · intro reference member
      simpa [Relation.holds] using holds _ member
    · intro reference member
      simpa [Relation.holds] using holds _ member
    · intro member
      simpa [Relation.holds] using holds _ member
  · intro ⟨atLeast, below, equal, notEqual⟩ comparator member
    obtain ⟨relation, reference⟩ := comparator
    cases relation with
    | equal => simpa [Relation.holds] using equal reference member
    | notEqual =>
        have different : point ≠ reference := by
          intro same
          subst same
          exact notEqual member
        simpa [Relation.holds] using different
    | below => simpa [Relation.holds] using below reference member
    | atLeast => simpa [Relation.holds] using atLeast reference member

private theorem lower_le_iff {conjunction : Conjunction} {point : Point} :
    conjunction.lower?.getD .least ≤ point ↔
      (∀ reference ∈ conjunction.references .atLeast, reference ≤ point) ∧
      ∀ reference ∈ conjunction.references .equal, reference ≤ point := by
  rw [← List.forall_mem_append]
  unfold lower?
  generalize conjunction.references .atLeast ++ conjunction.references .equal = references
  cases found : references.max? with
  | none =>
      cases List.max?_eq_none_iff.mp found
      simp [Point.least_le]
  | some greatest =>
      rw [← List.max?_le_iff found]
      by_cases least : greatest = .least <;> simp [Option.filter, least]

theorem least_lt_of_lower? {conjunction : Conjunction} :
    ∀ start ∈ conjunction.lower?, Point.least < start := by
  intro start member
  obtain ⟨-, above⟩ := Option.mem_filter_iff.mp member
  exact lt_of_le_of_ne (Point.least_le start) (Ne.symm (of_decide_eq_true above))

theorem lt_stops_iff {points stops : List Point} {point : Point}
    (next : points.mapM Point.next = .ok stops) :
    (∀ stop ∈ stops, point < stop) ↔ ∀ reference ∈ points, point ≤ reference := by
  have pairs := Outcome.mapM_eq_ok_iff.mp next
  clear next
  induction pairs with
  | nil => simp
  | cons first later ih =>
      rw [List.forall_mem_cons, List.forall_mem_cons, Point.lt_next_iff first]
      exact and_congr_right fun _ => ih

private theorem lt_upper_iff {conjunction : Conjunction} {upper : Option Point} {point : Point}
    (found : conjunction.upper = .ok upper) :
    (∀ stop ∈ upper, point < stop) ↔
      (∀ reference ∈ conjunction.references .below, point < reference) ∧
      ∀ reference ∈ conjunction.references .equal, point ≤ reference := by
  obtain ⟨stops, next, same⟩ := Outcome.bind_eq_ok_iff.mp found
  cases same
  rw [← lt_stops_iff next, ← List.forall_mem_append]
  generalize conjunction.references .below ++ stops = bounds
  cases found : bounds.min? with
  | none =>
      cases List.min?_eq_none_iff.mp found
      simp
  | some stop =>
      obtain ⟨member, least⟩ := List.min?_eq_some_iff.mp found
      constructor
      · intro below bound among
        exact lt_of_lt_of_le (below stop rfl) (least bound among)
      · intro below bound same
        cases same
        exact below stop member

theorem holdsAt_iff_covers {conjunction : Conjunction} {upper : Option Point}
    (found : conjunction.upper = .ok upper) (point : Point) :
    conjunction.HoldsAt point ↔
      Covers (Range.spanning? conjunction.lower? upper).toList point ∧
      point ∉ conjunction.references .notEqual := by
  rw [holdsAt_iff, Range.covers_spanning?, lower_le_iff, lt_upper_iff found]
  constructor
  · intro ⟨atLeast, below, equal, notEqual⟩
    exact ⟨⟨⟨atLeast, fun reference member => (equal reference member).ge⟩, below,
      fun reference member => (equal reference member).le⟩, notEqual⟩
  · intro ⟨⟨⟨atLeast, above⟩, below, atMost⟩, notEqual⟩
    exact ⟨atLeast, below, fun reference member =>
      le_antisymm (atMost reference member) (above reference member), notEqual⟩

/-! ### Ranges -/

private theorem not_holdsAt_of_clash? {conjunction : Conjunction} {clash : Point}
    (found : conjunction.clash? = some clash) (point : Point) : ¬conjunction.HoldsAt point := by
  intro holds
  obtain ⟨-, -, equal, notEqual⟩ := holdsAt_iff.mp holds
  have required : clash ∈ conjunction.references .equal := List.mem_of_find?_eq_some found
  have excluded : (conjunction.references .notEqual).contains clash = true :=
    List.find?_some found
  rw [equal clash required] at notEqual
  exact notEqual (List.contains_iff_mem.mp excluded)

/-- The ranges of a conjunction are fragments that hold what the conjunction admits. -/
theorem ranges_fragments {conjunction : Conjunction} {ranges : List Range}
    (found : conjunction.ranges = .ok ranges) :
    Range.AreFragments ranges ∧ ∀ point, Covers ranges point ↔ conjunction.HoldsAt point := by
  unfold Conjunction.ranges at found
  split at found
  · next clash clashes =>
    cases found
    refine ⟨⟨by simp, .nil⟩, fun point => ?_⟩
    exact iff_of_false Range.covers_nil (not_holdsAt_of_clash? clashes point)
  · obtain ⟨upper, stop, found⟩ := Outcome.bind_eq_ok_iff.mp found
    have bounds := holdsAt_iff_covers stop
    split at found
    · next hollow =>
      cases found
      refine ⟨⟨by simp, .nil⟩, fun point => ?_⟩
      rw [bounds, hollow, Option.toList_none]
      simp
    · next interval spans =>
      have proper := Range.isProper_of_spanning? least_lt_of_lower? spans
      obtain ⟨fragments, covered⟩ :=
        excludeAll_fragments (.singleton proper) found
      refine ⟨fragments, fun point => ?_⟩
      rw [covered, bounds, spans, Option.toList_some]

end Conjunction

end Versioning
