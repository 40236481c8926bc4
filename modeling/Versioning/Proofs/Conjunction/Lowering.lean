import Versioning.Proofs.Conjunction.Existence
import Versioning.Proofs.Constraint.PreRelease

/-!
Lowered bounds. A lower bound that is a release may be moved down to the first pre-release of its
core. This gains the pre-releases of that core and nothing else, so that releases are admitted as
before; and since only releases can lack a next point, no range is lost.
-/

namespace Versioning

open Range (Covers)

def Point.IsPreReleaseOf (point : Point) (starts : Point → Prop) : Prop :=
  point.isPreRelease = true ∧ ∃ start, starts start ∧ point.toCore = start.toCore

namespace Point

variable {point start : Point}

private theorem le_or_of_withLeastPreRelease_le (above : start.withLeastPreRelease ≤ point) :
    start ≤ point ∨ point.isPreRelease = true ∧ point.toCore = start.toCore := by
  obtain ⟨core, preRelease⟩ := start
  cases preRelease with
  | some preRelease => exact .inl above
  | none =>
      refine (le_or_gt _ point).imp_right fun below => ?_
      exact (Core.firstPreRelease_le_and_lt_toPoint_iff.mp ⟨above, below⟩).symm

theorem withLeastPreRelease_le (point : Point) : point.withLeastPreRelease ≤ point := by
  obtain ⟨core, preRelease⟩ := point
  cases preRelease with
  | some preRelease => exact le_refl _
  | none =>
      have first : core.firstPreRelease < core.toPoint := lt_toPoint rfl
      exact first.le

end Point

/-! ### Comparators -/

/-- Whether the second comparator is the first, or bounds by the least pre-release of a start where
the first bounds by the start itself. -/
inductive Comparator.Lowers (starts : Point → Prop) : Comparator → Comparator → Prop
  | same {comparator : Comparator} : Lowers starts comparator comparator
  | start {point : Point} (begins : starts point) :
      Lowers starts ⟨.atLeast, point⟩ ⟨.atLeast, point.withLeastPreRelease⟩

namespace Comparator.Lowers

variable {starts : Point → Prop} {comparator lowered : Comparator} {point : Point}

private theorem relation_eq (lowers : Lowers starts comparator lowered) :
    lowered.relation = comparator.relation := by
  cases lowers <;> rfl

private theorem holds (lowers : Lowers starts comparator lowered)
    (held : comparator.relation.holds point comparator.reference = true) :
    lowered.relation.holds point lowered.reference = true := by
  cases lowers with
  | same => exact held
  | @start start begins =>
      have above : start ≤ point := of_decide_eq_true held
      exact decide_eq_true (start.withLeastPreRelease_le.trans above)

private theorem holds_or_isPreReleaseOf (lowers : Lowers starts comparator lowered)
    (held : lowered.relation.holds point lowered.reference = true) :
    comparator.relation.holds point comparator.reference = true ∨ point.IsPreReleaseOf starts := by
  cases lowers with
  | same => exact .inl held
  | @start start begins =>
      rcases Point.le_or_of_withLeastPreRelease_le (of_decide_eq_true held) with above | before
      · exact .inl (decide_eq_true above)
      · exact .inr ⟨before.1, start, begins, before.2⟩

end Comparator.Lowers

/-! ### Conjunctions -/

abbrev Conjunction.Lowers (starts : Point → Prop) : Conjunction → Conjunction → Prop :=
  List.Forall₂ (Comparator.Lowers starts)

namespace Conjunction.Lowers

variable {starts : Point → Prop} {conjunction lowered : Conjunction} {point : Point}

private theorem holdsAt (lowers : Conjunction.Lowers starts conjunction lowered)
    (held : conjunction.HoldsAt point) : lowered.HoldsAt point := by
  intro comparator member
  obtain ⟨original, among, lowersIt⟩ := Outcome.exists_mem_of_forall₂ lowers member
  exact lowersIt.holds (held original among)

theorem holdsAt_or_isPreReleaseOf (lowers : Conjunction.Lowers starts conjunction lowered)
    (held : lowered.HoldsAt point) : conjunction.HoldsAt point ∨ point.IsPreReleaseOf starts := by
  by_cases before : point.IsPreReleaseOf starts
  · exact .inr before
  · refine .inl fun comparator member => ?_
    obtain ⟨other, among, lowersIt⟩ := Outcome.exists_mem_of_forall₂ lowers.flip member
    exact (lowersIt.holds_or_isPreReleaseOf (held other among)).resolve_right before

theorem references_eq (lowers : Conjunction.Lowers starts conjunction lowered)
    {relation : Relation} (kept : relation ≠ .atLeast) :
    lowered.references relation = conjunction.references relation := by
  induction lowers with
  | nil => rfl
  | cons first later ih =>
      unfold references at ih ⊢
      cases first with
      | same =>
          rw [List.filter_cons, List.filter_cons]
          split <;> simp [ih]
      | start => simpa [kept.symm] using ih

private theorem bounds (lowers : Conjunction.Lowers starts conjunction lowered) :
    Conjunction.Lowers starts conjunction.bounds lowered.bounds := by
  refine List.rel_filter (fun comparator other lowersIt => ?_) lowers
  simp only [lowersIt.relation_eq]

theorem exists_ranges (lowers : Conjunction.Lowers starts conjunction lowered)
    (found : ∃ ranges, conjunction.ranges = .ok ranges) :
    ∃ ranges, lowered.ranges = .ok ranges := by
  have equal : lowered.references .equal = conjunction.references .equal :=
    lowers.references_eq (by decide)
  have notEqual : lowered.references .notEqual = conjunction.references .notEqual :=
    lowers.references_eq (by decide)
  rw [exists_ranges_iff, clash?, equal, notEqual]
  rcases exists_ranges_iff.mp found with clashes | ⟨required, excluded⟩
  · exact .inl clashes
  · refine .inr ⟨required, fun point member held last => ?_⟩
    -- an excluded point without a next one is a release, so the bounds admitted it before
    rcases lowers.bounds.holdsAt_or_isPreReleaseOf held with original | ⟨preRelease, -⟩
    · exact excluded point member original last
    · rw [last.1] at preRelease
      contradiction

end Conjunction.Lowers

/-! ### Disjunctions -/

/-- Conjunctions whose lower bounds are moved down have ranges if the original ones do, and cover
what these cover, and of the rest only pre-releases of the cores at which they begin. -/
theorem exists_normalize_of_lowers {starts : Point → Prop} {conjunctions lowered : List Conjunction}
    {ranges : List Range} (lowers : List.Forall₂ (Conjunction.Lowers starts) conjunctions lowered)
    (normal : normalize conjunctions = .ok ranges) :
    ∃ wider, normalize lowered = .ok wider ∧
      (∀ point, Covers ranges point → Covers wider point) ∧
      ∀ point, Covers wider point → Covers ranges point ∨ point.IsPreReleaseOf starts := by
  have each := exists_normalize_iff.mp ⟨ranges, normal⟩
  obtain ⟨wider, normalLowered⟩ := exists_normalize_iff.mpr fun conjunction member => by
    obtain ⟨original, among, lowersIt⟩ := Outcome.exists_mem_of_forall₂ lowers member
    exact lowersIt.exists_ranges (each original among)
  refine ⟨wider, normalLowered, fun point covered => ?_, fun point covered => ?_⟩
  · obtain ⟨conjunction, member, held⟩ := (covers_normalize normal point).mp covered
    obtain ⟨other, among, lowersIt⟩ := Outcome.exists_mem_of_forall₂ lowers.flip member
    have heldLowered := Conjunction.Lowers.holdsAt lowersIt held
    exact (covers_normalize normalLowered point).mpr ⟨other, among, heldLowered⟩
  · obtain ⟨conjunction, member, held⟩ := (covers_normalize normalLowered point).mp covered
    obtain ⟨original, among, lowersIt⟩ := Outcome.exists_mem_of_forall₂ lowers member
    refine (lowersIt.holdsAt_or_isPreReleaseOf held).imp_left fun heldOriginal => ?_
    exact (covers_normalize normal point).mpr ⟨original, among, heldOriginal⟩

end Versioning
