import Versioning.Proofs.Precedence

/-!
The next version. Every version has one, except for the release with the greatest patch of its line,
and the two have no other version between them.
-/

namespace Versioning

theorem Component.next_eq_error_iff {component : Component} {error : VersionError} :
    component.next = .error error ↔
      component.value = Component.limit ∧ error = .componentOverflow s!"{component} + 1" := by
  have fits := component.value_le
  unfold Component.next
  by_cases below : component.value < Component.limit
  · have different : component.value ≠ Component.limit := by omega
    simp [below, different]
  · have same : component.value = Component.limit := by omega
    simp [same, eq_comm]

namespace Version

variable {version successor : Version}

/-! ### Failure -/

private theorem next_of_release (release : version.preRelease = none) :
    version.next = version.patch.next.map fun patch =>
      ⟨⟨⟨version.major, version.minor, patch⟩, some .least⟩, none⟩ := by
  unfold Version.next Point.next
  rw [release]
  cases version.patch.next <;> rfl

private theorem next_of_preRelease {preRelease : PreRelease}
    (found : version.preRelease = some preRelease) :
    version.next = .ok ⟨⟨version.toCore, some preRelease.next⟩, none⟩ := by
  unfold Version.next Point.next
  rw [found]
  rfl

theorem next_eq_error_iff {error : VersionError} :
    version.next = .error error ↔
      version.isPreRelease = false ∧ version.patch.value = Component.limit ∧
        error = .componentOverflow s!"{version.patch} + 1" := by
  unfold Point.isPreRelease
  cases found : version.preRelease with
  | none =>
      rw [next_of_release found]
      cases bumped : version.patch.next with
      | ok patch =>
          have fails : ¬version.patch.next = .error error := by simp [bumped]
          rw [Component.next_eq_error_iff] at fails
          simpa [Except.map] using fails
      | error cause =>
          rw [Component.next_eq_error_iff] at bumped
          simp [Except.map, bumped, eq_comm]
  | some preRelease => simp [next_of_preRelease found]

end Version

namespace Point

variable {point : Point}

/-- Whether a point is the release with the greatest patch of its line, which has no next one. -/
def IsLastOfLine (point : Point) : Prop :=
  point.isPreRelease = false ∧ point.patch.value = Component.limit

theorem exists_next_eq_error (last : point.IsLastOfLine) :
    ∃ operation, point.next = .error (.componentOverflow operation) := by
  have failed : point.toVersion.next = .error _ :=
    Version.next_eq_error_iff.mpr ⟨last.1, last.2, rfl⟩
  change point.next.map toVersion = _ at failed
  cases found : point.next <;> rw [found] at failed <;> cases failed
  exact ⟨_, rfl⟩

theorem exists_next_eq_ok (later : ¬point.IsLastOfLine) : ∃ next, point.next = .ok next := by
  cases found : point.next with
  | ok next => exact ⟨next, rfl⟩
  | error cause =>
      have failed : point.toVersion.next = .error cause := by
        change point.next.map toVersion = _
        rw [found]
        rfl
      obtain ⟨release, greatest, -⟩ := Version.next_eq_error_iff.mp failed
      exact absurd ⟨release, greatest⟩ later

theorem exists_next_iff : (∃ next, point.next = .ok next) ↔ ¬point.IsLastOfLine := by
  refine ⟨fun ⟨next, found⟩ last => ?_, exists_next_eq_ok⟩
  obtain ⟨operation, failed⟩ := exists_next_eq_error last
  rw [found] at failed
  cases failed

end Point

namespace Version

variable {version successor : Version}

/-! ### Success -/

private theorem toPoint_next (next : version.next = .ok successor) :
    version.toPoint.next = .ok successor.toPoint := by
  obtain ⟨point, found, rfl⟩ := Outcome.map_eq_ok_iff.mp next
  exact found

private theorem build_next (next : version.next = .ok successor) : successor.build = none := by
  obtain ⟨point, -, rfl⟩ := Outcome.map_eq_ok_iff.mp next
  rfl

theorem compare_next_eq_lt_iff (next : version.next = .ok successor) (other : Version) :
    compare other successor = .lt ↔ (compare other version).isLE = true :=
  Point.lt_next_iff (toPoint_next next)

private theorem isGE_compare_next_iff (next : version.next = .ok successor) (other : Version) :
    (compare other successor).isGE = true ↔ compare other version = .gt := by
  have before := compare_next_eq_lt_iff next other
  cases first : compare other successor <;> cases second : compare other version <;> simp_all

/-- A version has a next one unless it is the release with the greatest patch. The next one has no
build metadata and stands above the version at once: no version is between the two, so that to be up
to the version is to be before the next one, and to be above it is to be from the next one on. -/
theorem next_is_successor (version : Version) :
    (version.next = .error (.componentOverflow s!"{version.patch} + 1") ↔
      version.isPreRelease = false ∧ version.patch.value = Component.limit) ∧
    (version.next = .error (.componentOverflow s!"{version.patch} + 1") ∨
      ∃ successor, version.next = .ok successor ∧
        compare version successor = .lt ∧
        successor.build = none ∧
        (¬∃ between, compare version between = .lt ∧ compare between successor = .lt) ∧
        ∀ other : Version,
          ((compare other version).isLE = true ↔ compare other successor = .lt) ∧
          (compare other version = .gt ↔ (compare other successor).isGE = true)) := by
  constructor
  · rw [next_eq_error_iff]
    simp
  · cases next : version.next with
    | error cause =>
        left
        rw [(next_eq_error_iff.mp next).2.2]
    | ok successor =>
        right
        refine ⟨successor, rfl, ?_, build_next next, ?_, fun other => ⟨?_, ?_⟩⟩
        · rw [compare_next_eq_lt_iff next, Std.ReflOrd.compare_self]
          rfl
        · -- what is below the next version is up to this one, and so not above it
          rintro ⟨between, above, below⟩
          rw [compare_next_eq_lt_iff next, Std.OrientedOrd.eq_swap, above] at below
          contradiction
        · exact (compare_next_eq_lt_iff next other).symm
        · exact (isGE_compare_next_iff next other).symm

end Version

end Versioning
