import Versioning.Proofs.Version.Identifiers
import Versioning.Proofs.Version.Next
import Versioning.Version.Increment

/-!
Increments. Where an increment leads, the version is above the one that it starts from; where it
leads nowhere, the text of the pre-release is at fault or a number cannot grow. So versions never go
down along a chain of steps.
-/

namespace Versioning

/-! ### Pre-releases -/

namespace PreRelease

private theorem compare_bumpLastNumber? {identifiers bumped : List Identifier}
    (found : bumpLastNumber? identifiers = some bumped) : compare identifiers bumped = .lt := by
  induction identifiers generalizing bumped with
  | nil => cases found
  | cons identifier rest ih =>
      unfold bumpLastNumber? at found
      split at found
      · next later same =>
        cases found
        rw [List.compare_cons_cons, Std.ReflOrd.compare_self]
        exact ih same
      · split at found
        · next value =>
          split at found
          · cases found
            have below : compare (Identifier.numeric value) (.numeric (value + 1)) = .lt :=
              Nat.compare_eq_lt.mpr (Nat.lt_succ_self value)
            rw [List.compare_cons_cons, below]
            rfl
          · cases found
        · cases found

/-- The pre-release that follows in a series is above, also where no number in it can grow. -/
theorem compare_increment (preRelease : PreRelease) :
    compare preRelease preRelease.increment = .lt := by
  unfold increment
  split
  · next identifiers bumped => exact compare_bumpLastNumber? bumped
  · rw [compare_next, Std.ReflOrd.compare_self]
    rfl

end PreRelease

theorem Component.exists_next_iff {component : Component} :
    (∃ following, component.next = .ok following) ↔ component.value ≠ Component.limit := by
  have failed : (∃ error, component.next = .error error) ↔ component.value = Component.limit := by
    simp [next_eq_error_iff]
  rw [ne_eq, ← failed, Outcome.exists_eq_error_iff, not_not]

namespace Version

variable {version successor : Version} {part : Increment} {requested : Option String}

/-! ### Where increments lead -/

/-- How an increment may lead from a version to another. -/
inductive Climbs (version : Version) : Version → Prop
  | major {major : Component} (next : version.major.next = .ok major)
      (preRelease : Option PreRelease) :
      version.Climbs ⟨⟨⟨major, 0, 0⟩, preRelease⟩, none⟩
  | minor {minor : Component} (next : version.minor.next = .ok minor)
      (preRelease : Option PreRelease) :
      version.Climbs ⟨⟨⟨version.major, minor, 0⟩, preRelease⟩, none⟩
  | patch {patch : Component} (next : version.patch.next = .ok patch)
      (preRelease : Option PreRelease) :
      version.Climbs ⟨⟨⟨version.major, version.minor, patch⟩, preRelease⟩, none⟩
  | release {current : PreRelease} (found : version.preRelease = some current) :
      version.Climbs version.withoutSuffixes
  | series {current following : PreRelease} (found : version.preRelease = some current)
      (above : compare current following = .lt) :
      version.Climbs ⟨⟨version.toCore, some following⟩, none⟩

theorem climbs_of_increment (found : version.increment part requested = .ok successor) :
    version.Climbs successor := by
  cases part with
  | major =>
      obtain ⟨preRelease, -, found⟩ := Outcome.bind_eq_ok_iff.mp found
      obtain ⟨major, next, same⟩ := Outcome.bind_eq_ok_iff.mp found
      cases Outcome.pure_eq_ok_iff.mp same
      exact .major next preRelease
  | minor =>
      obtain ⟨preRelease, -, found⟩ := Outcome.bind_eq_ok_iff.mp found
      obtain ⟨minor, next, same⟩ := Outcome.bind_eq_ok_iff.mp found
      cases Outcome.pure_eq_ok_iff.mp same
      exact .minor next preRelease
  | patch =>
      change version.nextPatch requested = .ok successor at found
      unfold nextPatch at found
      split at found
      · next drops =>
        cases found
        obtain ⟨current, isCurrent⟩ := Option.isSome_iff_exists.mp (Bool.and_eq_true_iff.mp drops).2
        exact .release isCurrent
      · obtain ⟨patch, next, found⟩ := Outcome.bind_eq_ok_iff.mp found
        obtain ⟨preRelease, -, same⟩ := Outcome.bind_eq_ok_iff.mp found
        cases Outcome.pure_eq_ok_iff.mp same
        exact .patch next preRelease
  | preRelease =>
      obtain ⟨preRelease, -, found⟩ := Outcome.bind_eq_ok_iff.mp found
      split at found
      · obtain ⟨patch, next, same⟩ := Outcome.bind_eq_ok_iff.mp found
        cases Outcome.pure_eq_ok_iff.mp same
        exact .patch next _
      · next current isCurrent =>
        cases Outcome.pure_eq_ok_iff.mp found
        refine .series isCurrent ?_
        split
        · split
          · next above => exact Std.OrientedCmp.lt_of_gt above
          · exact current.compare_increment
        · exact current.compare_increment

private theorem compare_eq_lt_of_core {a b : Version} (below : compare a.toCore b.toCore = .lt) :
    compare a b = .lt := by
  change (compare a.toCore b.toCore).then _ = .lt
  rw [below]
  rfl

private theorem compare_eq_lt_of_preRelease {a b : Version} (same : a.toCore = b.toCore)
    (below : PreRelease.compareOptions a.preRelease b.preRelease = .lt) : compare a b = .lt := by
  change (compare a.toCore b.toCore).then (PreRelease.compareOptions _ _) = .lt
  rw [same, Std.ReflOrd.compare_self]
  exact below

theorem Climbs.compare_eq_lt (climbs : version.Climbs successor) :
    compare version successor = .lt := by
  cases climbs with
  | major next =>
      have grown := Component.value_of_next next
      exact compare_eq_lt_of_core (Core.compare_eq_lt_iff.mpr (.inl (by simp [grown])))
  | minor next =>
      have grown := Component.value_of_next next
      exact compare_eq_lt_of_core (Core.compare_eq_lt_iff.mpr (by simp [grown]))
  | patch next =>
      have grown := Component.value_of_next next
      exact compare_eq_lt_of_core (Core.compare_eq_lt_iff.mpr (by simp [grown]))
  | release found => exact compare_eq_lt_of_preRelease rfl (by rw [found]; rfl)
  | series found above =>
      refine compare_eq_lt_of_preRelease rfl ?_
      rw [found]
      exact above

private theorem Climbs.build_eq_none (climbs : version.Climbs successor) :
    successor.build = none := by
  cases climbs <;> rfl

/-! ### Which increments lead nowhere -/

/-- The number that an increment adds one to, if it does to any. From a pre-release it may be enough
to go on within the same core. -/
def bumped? (version : Version) (part : Increment) (requested : Option String) :
    Option Component :=
  match part with
  | .major => some version.major
  | .minor => some version.minor
  | .patch => if requested.isNone && version.isPreRelease then none else some version.patch
  | .preRelease => if version.isPreRelease then none else some version.patch

private theorem exists_mapM_parse_iff_isDotted :
    (∃ preRelease, requested.mapM PreRelease.parse = .ok preRelease) ↔
      ∀ text ∈ requested, IsDotted IsPreReleaseIdentifierText text.toList := by
  rw [Outcome.exists_mapM_option_iff]
  exact forall₂_congr fun text _ => PreRelease.exists_parse_iff_isDotted

private theorem exists_increment_iff :
    (∃ successor, version.increment part requested = .ok successor) ↔
      (∀ text ∈ requested, IsDotted IsPreReleaseIdentifierText text.toList) ∧
        ∀ component ∈ version.bumped? part requested, component.value ≠ Component.limit := by
  simp only [← exists_mapM_parse_iff_isDotted, ← Component.exists_next_iff]
  cases part with
  | major =>
      simp only [bumped?, Option.mem_some, forall_eq']
      exact Outcome.exists_bind_bind_iff
  | minor =>
      simp only [bumped?, Option.mem_some, forall_eq']
      exact Outcome.exists_bind_bind_iff
  | patch =>
      change (∃ successor, version.nextPatch requested = .ok successor) ↔ _
      unfold nextPatch bumped?
      split
      · next drops =>
        rw [Option.isNone_iff_eq_none.mp (Bool.and_eq_true_iff.mp drops).1]
        exact iff_of_true ⟨_, rfl⟩ ⟨⟨none, rfl⟩, fun component member => nomatch member⟩
      · simp only [Option.mem_some, forall_eq']
        exact Outcome.exists_bind_bind_iff.trans and_comm
  | preRelease =>
      change (∃ successor, version.nextPreRelease requested = .ok successor) ↔ _
      unfold nextPreRelease bumped? Point.isPreRelease
      cases found : version.preRelease with
      | none =>
          simp only [Option.isSome_none, Bool.false_eq_true, if_false, Option.mem_some, forall_eq']
          exact Outcome.exists_bind_bind_iff
      | some current =>
          simp only [Option.isSome_some, if_true, Option.not_mem_none, false_imp_iff, implies_true,
            and_true]
          constructor
          · rintro ⟨successor, found⟩
            obtain ⟨preRelease, read, -⟩ := Outcome.bind_eq_ok_iff.mp found
            exact ⟨preRelease, read⟩
          · rintro ⟨preRelease, read⟩
            exact ⟨_, Outcome.bind_eq_ok_iff.mpr ⟨preRelease, read, rfl⟩⟩

private theorem exists_increment_eq_error_iff :
    (∃ error, version.increment part requested = .error error) ↔
      (∃ text ∈ requested, ¬IsDotted IsPreReleaseIdentifierText text.toList) ∨
        ∃ component ∈ version.bumped? part requested, component.value = Component.limit := by
  rw [Outcome.exists_eq_error_iff, exists_increment_iff, not_and_or]
  simp only [ne_eq, not_forall, not_not, exists_prop]

/-! ### Chains of steps -/

inductive Step
  | increment (part : Increment) (requested : Option String)
  | next
  | withoutSuffixes

namespace Step

def apply (version : Version) : Step → Except VersionError Version
  | .increment part requested => version.increment part requested
  | .next => version.next
  | .withoutSuffixes => .ok version.withoutSuffixes

/-- Whether a step has to lead up. To drop the suffixes of a release without any leads nowhere. -/
def climbs : Step → Bool
  | .withoutSuffixes => false
  | _ => true

def follow (version : Version) (step : Step) : Version :=
  match step.apply version with
  | .ok successor => successor
  | .error _ => version

variable {step : Step}

theorem compare_apply_eq_lt (climbs : step.climbs = true)
    (found : step.apply version = .ok successor) : compare version successor = .lt := by
  cases step with
  | increment part requested => exact (climbs_of_increment found).compare_eq_lt
  | next =>
      rw [compare_next_eq_lt_iff found, Std.ReflOrd.compare_self]
      rfl
  | withoutSuffixes => cases climbs

private theorem compare_withoutSuffixes_isLE (version : Version) :
    (compare version version.withoutSuffixes).isLE = true := by
  change ((compare version.toCore version.toCore).then
    (PreRelease.compareOptions version.preRelease none)).isLE = true
  rw [Std.ReflOrd.compare_self]
  exact PreRelease.compareOptions_none_isLE version.preRelease

private theorem compare_follow_isLE (version : Version) (step : Step) :
    (compare version (step.follow version)).isLE = true := by
  unfold follow
  split
  · next successor found =>
    cases step with
    | withoutSuffixes =>
        cases found
        exact compare_withoutSuffixes_isLE version
    | _ =>
        rw [compare_apply_eq_lt rfl found]
        rfl
  · rw [Std.ReflOrd.compare_self]
    rfl

end Step

def follow (version : Version) (steps : List Step) : Version := steps.foldl Step.follow version

theorem compare_follow_isLE (version : Version) (steps : List Step) :
    (compare version (version.follow steps)).isLE = true := by
  induction steps generalizing version with
  | nil =>
      change (compare version version).isLE = true
      rw [Std.ReflOrd.compare_self]
      rfl
  | cons step rest ih =>
      exact Std.TransOrd.isLE_trans (step.compare_follow_isLE version) (ih (step.follow version))

private theorem follow_append (version : Version) (steps more : List Step) :
    version.follow (steps ++ more) = (version.follow steps).follow more :=
  List.foldl_append

private theorem compare_follow_eq_lt {step : Step} (climbs : step.climbs = true)
    (found : step.apply version = .ok successor) (more : List Step) :
    compare version (version.follow (step :: more)) = .lt := by
  have after : step.follow version = successor := by
    unfold Step.follow
    rw [found]
  change compare version ((step.follow version).follow more) = .lt
  rw [after]
  exact Std.TransCmp.lt_of_lt_of_isLE (Step.compare_apply_eq_lt climbs found)
    (compare_follow_isLE successor more)

/-- An increment is one of four methods. It leads to a version above, without build metadata and
with a pre-release that is written as one has to be, if it has any, or it fails. It fails exactly if
the text of the requested pre-release is none, or if a number would have to grow that cannot. So
along a chain of steps no version is below an earlier one, and behind an increment or a next version
that succeeds all versions are above those before it. -/
theorem increment_climbs (version : Version) :
    (∀ requested : Option String,
      version.increment .major requested = version.nextMajor requested ∧
      version.increment .minor requested = version.nextMinor requested ∧
      version.increment .patch requested = version.nextPatch requested ∧
      version.increment .preRelease requested = version.nextPreRelease requested) ∧
    (∀ (part : Increment) (requested : Option String),
      ((∃ successor, version.increment part requested = .ok successor ∧
          compare version successor = .lt ∧ successor.build = none ∧
          ∀ preRelease ∈ successor.preRelease,
            IsDotted IsPreReleaseIdentifierText preRelease.text.toList) ∨
        ∃ error, version.increment part requested = .error error) ∧
      ((∃ error, version.increment part requested = .error error) ↔
        (∃ text ∈ requested, ¬IsDotted IsPreReleaseIdentifierText text.toList) ∨
          ∃ component ∈ version.bumped? part requested, component.value = Component.limit)) ∧
    ∀ steps more : List Step,
      (compare (version.follow steps) (version.follow (steps ++ more))).isLE = true ∧
      ∀ step : Step, step.climbs = true →
        (∃ successor, step.apply (version.follow steps) = .ok successor) →
          compare (version.follow steps) (version.follow (steps ++ step :: more)) = .lt := by
  refine ⟨fun requested => ⟨rfl, rfl, rfl, rfl⟩,
    fun part requested => ⟨?_, exists_increment_eq_error_iff⟩,
    fun steps more => ⟨?_, fun step climbs => ?_⟩⟩
  · cases found : version.increment part requested with
    | ok successor =>
        have climbs := climbs_of_increment found
        exact .inl ⟨successor, rfl, climbs.compare_eq_lt, climbs.build_eq_none,
          fun preRelease _ => preRelease.isDotted_text⟩
    | error error => exact .inr ⟨error, rfl⟩
  · rw [follow_append]
    exact compare_follow_isLE (version.follow steps) more
  · rintro ⟨successor, found⟩
    rw [follow_append]
    exact compare_follow_eq_lt climbs found more

theorem increment_climbs_series :
    ∃ version : Version, version.text = "1.0.0-rc.9+build" ∧
      (version.follow [.increment .preRelease none]).text = "1.0.0-rc.10" ∧
      (version.follow [.increment .preRelease none, .withoutSuffixes]).text = "1.0.0" ∧
      compare version (version.follow [.increment .preRelease none, .withoutSuffixes]) = .lt := by
  let version : Version := ⟨⟨⟨1, 0, 0⟩, some ⟨[.alphanumeric "rc" rfl, .numeric 9], by decide⟩⟩,
    some ⟨"build", rfl⟩⟩
  have succeeds : ∃ successor, Step.apply version (.increment .preRelease none) = .ok successor :=
    ⟨_, rfl⟩
  have climbs := ((increment_climbs version).2.2 [] [.withoutSuffixes]).2
    (.increment .preRelease none) rfl succeeds
  refine ⟨version, ?_, ?_, ?_, climbs⟩
  · decide
  · decide
  · decide

end Version

end Versioning
