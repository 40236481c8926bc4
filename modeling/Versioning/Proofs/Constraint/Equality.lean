import Versioning.Proofs.Constraint.Satisfaction

/-!
Equality of constraints. Their ranges are in normal form, so constraints have the same ranges
exactly if they admit the same versions once pre-releases are asked for.
-/

namespace Versioning

namespace Constraint

theorem beq_eq_true_iff {a b : Constraint} :
    (a == b) = true ↔ a.ranges = b.ranges ∧ a.preferred = b.preferred := by
  change (a.ranges == b.ranges && a.preferred == b.preferred) = true ↔ _
  rw [Bool.and_eq_true, beq_iff_eq, beq_iff_eq]

theorem ranges_eq_iff {a b : Constraint} :
    a.ranges = b.ranges ↔ ∀ version, a.admits true version = b.admits true version := by
  constructor
  · intro same version
    unfold admits
    rw [same]
  · intro same
    apply Array.toList_inj.mp
    apply a.isCanonical.eq_of_covers_iff b.isCanonical
    intro point
    have alike := same point.toVersion
    rw [Bool.eq_iff_iff, admits_including_iff, admits_including_iff] at alike
    exact alike

private theorem hashed_eq_of_beq {a b : Constraint} (same : (a == b) = true) :
    a.hashed = b.hashed := by
  obtain ⟨ranges, preferred⟩ := beq_eq_true_iff.mp same
  unfold hashed
  rw [ranges, preferred]

/-- Constraints that prefer the same version are equal exactly if they admit the same versions, and
equal constraints have the same data hashed. -/
theorem beq_iff_forall_admits (a b : Constraint) :
    (a.preferred = b.preferred →
      ((a == b) = true ↔ ∀ version, a.admits true version = b.admits true version)) ∧
      ((a == b) = true → a.hashed = b.hashed) := by
  refine ⟨fun preferred => ?_, hashed_eq_of_beq⟩
  rw [beq_eq_true_iff, and_iff_left preferred]
  exact ranges_eq_iff

theorem beq_iff_forall_admits_greater :
    ∃ a b : Constraint,
      a.branches = [[.condition
        ⟨.greater, .release 1 0 0, ⟨.atLeast, ⟨⟨1, 0, 1⟩, some .least⟩⟩, rfl⟩]] ∧
      b.branches = [[.condition (.atLeast ⟨⟨1, 0, 1⟩, some .least⟩)]] ∧
      (a == b) = true ∧ (∀ version, a.admits true version = b.admits true version) ∧
      a.hashed = b.hashed := by
  have normal : normalize [[⟨.atLeast, ⟨⟨1, 0, 1⟩, some .least⟩⟩]] =
      .ok [.startingAt ⟨⟨1, 0, 1⟩, some .least⟩] :=
    normalize_atLeast (by decide)
  let a : Constraint :=
    { branches := [[.condition
        ⟨.greater, .release 1 0 0, ⟨.atLeast, ⟨⟨1, 0, 1⟩, some .least⟩⟩, rfl⟩]]
      grammar := .simple
      preferred := none
      ranges := #[.startingAt ⟨⟨1, 0, 1⟩, some .least⟩]
      ranges_eq := normal }
  let b : Constraint :=
    { a with
      branches := [[.condition (.atLeast ⟨⟨1, 0, 1⟩, some .least⟩)]]
      ranges_eq := normal }
  have same : (a == b) = true := beq_eq_true_iff.mpr ⟨rfl, rfl⟩
  obtain ⟨admitted, hashed⟩ := beq_iff_forall_admits a b
  exact ⟨a, b, rfl, rfl, same, (admitted rfl).mp same, hashed same⟩

end Constraint

end Versioning
