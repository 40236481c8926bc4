import Versioning.Proofs.Constraint.Satisfaction

/-!
Pre-releases in ranges. The pre-releases of one core stand together, from the first of them up to
the release. So it shows in the points that are covered whether a range that holds one of them has
another one as a bound: it has, unless all of them are covered and so is what leads up to them.
-/

namespace Versioning

/-! ### Pre-releases of a core -/

def Core.firstPreRelease (core : Core) : Point := ⟨core, some .least⟩

theorem Core.firstPreRelease_le_and_lt_toPoint_iff {core : Core} {point : Point} :
    core.firstPreRelease ≤ point ∧ point < core.toPoint ↔
      point.toCore = core ∧ point.isPreRelease = true := by
  rw [← not_lt]
  change ¬compare point core.firstPreRelease = .lt ∧ compare point core.toPoint = .lt ↔ _
  rw [Point.compare_eq_then, Point.compare_eq_then, Ordering.then_eq_lt, Ordering.then_eq_lt]
  have notBelow : PreRelease.compareOptions point.preRelease (some .least) ≠ .lt :=
    PreRelease.compareOptions_least_ne_lt point.preRelease
  have below : PreRelease.compareOptions point.preRelease none = .lt ↔
      point.isPreRelease = true := by
    unfold Point.isPreRelease
    cases point.preRelease <;> simp [PreRelease.compareOptions]
  change ¬(compare point.toCore core = .lt ∨ compare point.toCore core = .eq ∧
      PreRelease.compareOptions point.preRelease (some .least) = .lt) ∧
    (compare point.toCore core = .lt ∨ compare point.toCore core = .eq ∧
      PreRelease.compareOptions point.preRelease none = .lt) ↔ _
  rw [below, ← Std.compare_eq_iff_eq (a := point.toCore) (b := core)]
  cases compare point.toCore core <;> simp [notBelow]

namespace Point

variable {point : Point}

theorem firstPreRelease_le (preRelease : point.isPreRelease = true) :
    point.toCore.firstPreRelease ≤ point :=
  (Core.firstPreRelease_le_and_lt_toPoint_iff.mpr ⟨rfl, preRelease⟩).1

theorem lt_toPoint (preRelease : point.isPreRelease = true) : point < point.toCore.toPoint :=
  (Core.firstPreRelease_le_and_lt_toPoint_iff.mpr ⟨rfl, preRelease⟩).2

end Point

/-- Whether a set of points holds all pre-releases of a core, and with them a stretch of points that
leads up to the first one, unless that is the least point of all. -/
def PassesOver (held : Point → Prop) (core : Core) : Prop :=
  ∃ origin, (origin = .least ∨ origin < core.firstPreRelease) ∧
    ∀ point, origin ≤ point → point < core.toPoint → held point

theorem PassesOver.mono {held kept : Point → Prop} {core : Core} (passes : PassesOver held core)
    (within : ∀ point, held point → kept point) : PassesOver kept core := by
  obtain ⟨origin, early, holds⟩ := passes
  exact ⟨origin, early, fun point above below => within point (holds point above below)⟩

theorem not_passesOver_of_not_held {held : Point → Prop} {core : Core}
    (missing : ¬held core.firstPreRelease) : ¬PassesOver held core := by
  intro ⟨origin, early, holds⟩
  refine missing (holds _ ?_ (Point.lt_toPoint rfl))
  rcases early with rfl | below
  · exact Point.least_le _
  · exact below.le

namespace Range

variable {range next : Range} {ranges : List Range} {point other : Point}

/-! ### Stretches of covered points -/

private theorem IsCanonical.isProper_of_contains (canonical : IsCanonical ranges)
    (member : range ∈ ranges) (inside : range.contains point = true) : range.IsProper := by
  rcases canonical with rfl | ⟨-, separated⟩
  · cases List.mem_singleton.mp member
    exact absurd inside (not_contains_empty point)
  · exact separated.proper range member

private theorem StopsBefore.not_contains (before : range.StopsBefore next)
    (inside : range.contains point = true) : ¬next.contains point = true := by
  intro within
  obtain ⟨stop, stops, past⟩ := before.lt_of_contains within
  exact lt_asymm past ((contains_iff.mp inside).2 stop stops)

theorem stopsBefore_or_of_ne (ascending : ranges.Pairwise StopsBefore) (member : range ∈ ranges)
    (among : next ∈ ranges) (different : range ≠ next) :
    range.StopsBefore next ∨ next.StopsBefore range := by
  obtain ⟨index, within, rfl⟩ := List.mem_iff_getElem.mp member
  obtain ⟨later, inside, rfl⟩ := List.mem_iff_getElem.mp among
  have ordered := List.pairwise_iff_getElem.mp ascending
  rcases lt_trichotomy index later with less | same | greater
  · exact .inl (ordered index later within inside less)
  · subst same
    exact absurd rfl different
  · exact .inr (ordered later index inside within greater)

private theorem eq_of_contains (ascending : ranges.Pairwise StopsBefore) (member : range ∈ ranges)
    (among : next ∈ ranges) (inside : range.contains point = true)
    (within : next.contains point = true) : range = next := by
  by_contra different
  rcases stopsBefore_or_of_ne ascending member among different with before | before
  · exact before.not_contains inside within
  · exact before.not_contains within inside

theorem contains_of_forall_covers (ascending : ranges.Pairwise StopsBefore)
    (member : range ∈ ranges) (inside : range.contains point = true) (ahead : point ≤ other)
    (covered : ∀ between, point ≤ between → between ≤ other → Covers ranges between) :
    range.contains other = true := by
  obtain ⟨above, below⟩ := contains_iff.mp inside
  refine contains_iff.mpr ⟨above.trans ahead, fun stop stops => not_le.mp fun past => ?_⟩
  -- another range would have to hold the stop, and so stand after this one without a gap
  have upTo : point < stop := below stop stops
  obtain ⟨holder, among, holds⟩ := covered stop upTo.le past
  have different : range ≠ holder := by
    rintro rfl
    exact lt_irrefl stop ((contains_iff.mp holds).2 stop stops)
  rcases stopsBefore_or_of_ne ascending member among different with before | before
  · obtain ⟨last, lastStops, apart⟩ := before.lt_of_contains holds
    cases Option.mem_unique stops lastStops
    exact lt_irrefl stop apart
  · obtain ⟨last, lastStops, apart⟩ := before.lt_of_contains inside
    have within : stop < last := (contains_iff.mp holds).2 last lastStops
    exact lt_asymm upTo (within.trans apart)

/-! ### Bounds among the pre-releases of a core -/

private theorem not_passesOver_of_namesPreReleaseOf (canonical : IsCanonical ranges)
    (member : range ∈ ranges) (inside : range.contains point = true)
    (preRelease : point.isPreRelease = true) (names : range.namesPreReleaseOf point.toCore = true) :
    ¬PassesOver (Covers ranges) point.toCore := by
  have ascending := canonical.pairwise
  have first := Point.firstPreRelease_le preRelease
  have last := Point.lt_toPoint preRelease
  obtain ⟨bound, isBound, boundPreRelease, sameCore⟩ := namesPreReleaseOf_iff.mp names
  obtain ⟨firstBound, boundLast⟩ :=
    Core.firstPreRelease_le_and_lt_toPoint_iff.mpr ⟨sameCore, boundPreRelease⟩
  intro ⟨origin, early, covered⟩
  rcases isBound with starts | stops
  · -- the range would begin no later than the stretch, which leads up to its start
    have proper := canonical.isProper_of_contains member inside
    have floor : range.floor = bound := by rw [Range.floor, starts, Option.getD_some]
    have before : origin < bound := by
      rcases early with rfl | below
      · exact proper.least_lt_start bound starts
      · exact below.trans_le firstBound
    have upTo : bound ≤ point := floor ▸ (contains_iff.mp inside).1
    obtain ⟨holder, among, holds⟩ := covered origin le_rfl (before.trans boundLast)
    have reaches : holder.contains point = true := by
      apply contains_of_forall_covers ascending among holds (before.le.trans upTo)
      intro between above below
      exact covered between above (below.trans_lt last)
    have same := eq_of_contains ascending among member reaches inside
    have begins : bound ≤ origin := floor ▸ same ▸ (contains_iff.mp holds).1
    exact not_le.mpr before begins
  · -- the range would go on to its own stop
    have ahead : point < bound := (contains_iff.mp inside).2 bound stops
    have reaches : range.contains bound = true := by
      apply contains_of_forall_covers ascending member inside ahead.le
      intro between above below
      refine covered between ?_ (below.trans_lt boundLast)
      rcases early with rfl | before
      · exact Point.least_le between
      · exact before.le.trans (first.trans above)
    exact lt_irrefl bound ((contains_iff.mp reaches).2 bound stops)

private theorem passesOver_of_not_namesPreReleaseOf (member : range ∈ ranges)
    (inside : range.contains point = true) (preRelease : point.isPreRelease = true)
    (unnamed : ¬range.namesPreReleaseOf point.toCore = true) :
    PassesOver (Covers ranges) point.toCore := by
  have first := Point.firstPreRelease_le preRelease
  have last := Point.lt_toPoint preRelease
  obtain ⟨above, below⟩ := contains_iff.mp inside
  have noBound {bound : Point} (isBound : bound ∈ range.start ∨ bound ∈ range.stop) :
      ¬(point.toCore.firstPreRelease ≤ bound ∧ bound < point.toCore.toPoint) := by
    intro among
    have names := Core.firstPreRelease_le_and_lt_toPoint_iff.mp among
    exact unnamed (namesPreReleaseOf_iff.mpr ⟨bound, isBound, names.2, names.1⟩)
  refine ⟨range.floor, ?_, fun other from' upTo => ⟨range, member, ?_⟩⟩
  · cases found : range.start with
    | none =>
        left
        rw [Range.floor, found, Option.getD_none]
    | some start =>
        right
        have floor : range.floor = start := by rw [Range.floor, found, Option.getD_some]
        rw [floor] at above ⊢
        exact not_le.mp fun late => noBound (.inl found) ⟨late, above.trans_lt last⟩
  · refine contains_iff.mpr ⟨from', fun stop stops => not_le.mp fun past => ?_⟩
    have ahead : point < stop := below stop stops
    exact noBound (.inr stops) ⟨first.trans ahead.le, past.trans_lt upTo⟩

end Range

namespace Constraint

open Range (Covers)

/-- A version is admitted by default exactly if a range holds it and the ranges do not pass over its
core, in case that it is a pre-release. -/
theorem isSatisfiedBy_iff {constraint : Constraint} {version : Version} :
    constraint.isSatisfiedBy version = true ↔
      Covers constraint.ranges.toList version.toPoint ∧
        (version.isPreRelease = true →
          ¬PassesOver (Covers constraint.ranges.toList) version.toCore) := by
  unfold isSatisfiedBy
  rw [admits_eq_true_iff]
  constructor
  · intro ⟨range, member, inside, allowed⟩
    have among := Array.mem_toList_iff.mpr member
    refine ⟨⟨range, among, inside⟩, fun preRelease => ?_⟩
    rcases allowed with release | asked | names
    · rw [release] at preRelease
      contradiction
    · contradiction
    · exact Range.not_passesOver_of_namesPreReleaseOf constraint.isCanonical among inside
        preRelease names
  · intro ⟨⟨range, among, inside⟩, stays⟩
    refine ⟨range, Array.mem_toList_iff.mp among, inside, ?_⟩
    cases preRelease : version.isPreRelease with
    | false => exact .inl rfl
    | true =>
        refine .inr (.inr ?_)
        by_contra unnamed
        exact stays preRelease
          (Range.passesOver_of_not_namesPreReleaseOf among inside preRelease unnamed)

theorem admits_of_covers {constraint wider : Constraint} {includePreRelease : Bool}
    {version : Version}
    (within : ∀ point, Covers constraint.ranges.toList point → Covers wider.ranges.toList point)
    (admitted : wider.admits includePreRelease version = true)
    (covered : Covers constraint.ranges.toList version.toPoint) :
    constraint.admits includePreRelease version = true := by
  cases includePreRelease with
  | true => exact admits_including_iff.mpr covered
  | false =>
      obtain ⟨-, stays⟩ := isSatisfiedBy_iff.mp admitted
      exact isSatisfiedBy_iff.mpr
        ⟨covered, fun preRelease passes => stays preRelease (passes.mono within)⟩

end Constraint

end Versioning
