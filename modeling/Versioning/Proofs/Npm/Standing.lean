import Mathlib.Data.List.Infix
import Versioning.Npm.Term
import Versioning.Proofs.Precedence

/-!
Releases and the numbers of descriptors. The bounds that a descriptor gives rise to are its floor
and the stops of its lines, and these are least pre-releases. No release stands between a least
pre-release and its release, so whether a release lies within such bounds is told by its components
and the numbers of the descriptor alone.
-/

namespace Versioning

def Core.components (core : Core) : List Nat :=
  [core.major.value, core.minor.value, core.patch.value]

namespace Descriptor

def numbers (descriptor : Descriptor) : List Nat :=
  (descriptor.positions.takeWhile Position.isNumber).map fun position => position.component.value

/-- Whether no number follows a wildcard. -/
def NumbersLead (descriptor : Descriptor) : Prop :=
  ∀ position ∈ descriptor.positions.dropWhile Position.isNumber, position.isNumber = false

/-- How a version stands to a descriptor: by precedence if the descriptor is complete, else by as
many components as the descriptor has numbers. -/
def standing (descriptor : Descriptor) (version : Version) : Ordering :=
  if descriptor.isComplete then compare version.toPoint descriptor.floor
  else compare (version.components.take descriptor.precision) descriptor.numbers

/-- The numbers up to and including the left-most one other than zero, or all if there is none. -/
def significant (descriptor : Descriptor) : List Nat :=
  descriptor.numbers.take ((descriptor.numbers.takeWhile (· == 0)).length + 1)

end Descriptor

theorem Point.lt_iff_of_release {point bound : Point} (release : point.preRelease = none) :
    point < bound ↔ point.major.value < bound.major.value ∨
      point.major.value = bound.major.value ∧ (point.minor.value < bound.minor.value ∨
        point.minor.value = bound.minor.value ∧ point.patch.value < bound.patch.value) := by
  change compare point bound = .lt ↔ _
  have notBelow : PreRelease.compareOptions none bound.preRelease ≠ .lt := by
    cases bound.preRelease <;> exact Ordering.noConfusion
  rw [compare_eq_then, Ordering.then_eq_lt, release, ← Core.compare_eq_lt_iff]
  simp [notBelow]

namespace Descriptor

variable {descriptor : Descriptor} {version : Version} {stop : Point}

/-! ### Numbers of descriptors -/

theorem length_numbers (descriptor : Descriptor) :
    descriptor.numbers.length = descriptor.precision :=
  List.length_map _

theorem length_positions_le (descriptor : Descriptor) : descriptor.positions.length ≤ 3 := by
  cases descriptor <;> simp [positions]

theorem precision_le (descriptor : Descriptor) : descriptor.precision ≤ 3 :=
  (List.takeWhile_sublist _).length_le.trans descriptor.length_positions_le

theorem precision_of_incomplete (numbered : descriptor.precision ≠ 0)
    (incomplete : descriptor.precision ≠ 3) :
    descriptor.precision = 1 ∨ descriptor.precision = 2 := by
  have short := descriptor.precision_le
  omega

theorem NumbersLead.components_floor (lead : descriptor.NumbersLead) :
    descriptor.floor.components =
      descriptor.numbers ++ List.replicate (3 - descriptor.precision) 0 := by
  let value := fun (position : Position) => position.component.value
  have padded : descriptor.floor.components =
      descriptor.positions.map value ++ List.replicate (3 - descriptor.positions.length) 0 := by
    cases descriptor <;> rfl
  have zeros : (descriptor.positions.dropWhile Position.isNumber).map value =
      List.replicate (descriptor.positions.dropWhile Position.isNumber).length 0 := by
    refine List.eq_replicate_iff.mpr ⟨List.length_map _, List.forall_mem_map.mpr ?_⟩
    intro position among
    cases position with
    | number component => cases lead _ among
    | wildcard mark => rfl
  -- the open positions stand at zero, and so do those that are left out
  have cut : descriptor.positions.takeWhile Position.isNumber ++
      descriptor.positions.dropWhile Position.isNumber = descriptor.positions :=
    List.takeWhile_append_dropWhile
  have short := descriptor.length_positions_le
  rw [padded, ← cut, List.map_append, zeros, List.append_assoc, List.replicate_append_replicate]
  rw [← cut, List.length_append] at short
  congr 2
  simp only [List.length_append, precision]
  omega

theorem NumbersLead.numbers_cases (lead : descriptor.NumbersLead) :
    descriptor.precision = 0 ∧ descriptor.numbers = [] ∨
    descriptor.precision = 1 ∧ descriptor.numbers = [descriptor.major.value] ∧
      descriptor.minor.value = 0 ∧ descriptor.patch.value = 0 ∨
    descriptor.precision = 2 ∧
      descriptor.numbers = [descriptor.major.value, descriptor.minor.value] ∧
      descriptor.patch.value = 0 ∨
    descriptor.precision = 3 ∧ descriptor.numbers =
      [descriptor.major.value, descriptor.minor.value, descriptor.patch.value] := by
  have padded := lead.components_floor
  have length := descriptor.length_numbers
  simp only [Core.components, floor] at padded
  rw [← length] at padded ⊢
  generalize descriptor.numbers = numbers at padded
  rcases numbers with _ | ⟨first, _ | ⟨second, _ | ⟨third, _ | ⟨fourth, rest⟩⟩⟩⟩ <;>
    simp_all [List.replicate]

/-! ### Releases and bounds -/

theorem lt_floor_iff (release : version.preRelease = none) :
    version.toPoint < descriptor.floor ↔ version.major.value < descriptor.major.value ∨
      version.major.value = descriptor.major.value ∧
        (version.minor.value < descriptor.minor.value ∨
          version.minor.value = descriptor.minor.value ∧
            version.patch.value < descriptor.patch.value) :=
  Point.lt_iff_of_release release

theorem lt_nextMajor_iff (found : descriptor.nextMajor = .ok stop)
    (release : version.preRelease = none) :
    version.toPoint < stop ↔ version.major.value ≤ descriptor.major.value := by
  obtain ⟨major, following, same⟩ := Outcome.bind_eq_ok_iff.mp found
  cases Outcome.pure_eq_ok_iff.mp same
  have bumped := Component.value_of_next following
  rw [Point.lt_iff_of_release release]
  change version.major.value < major.value ∨ version.major.value = major.value ∧
    (version.minor.value < 0 ∨ version.minor.value = 0 ∧ version.patch.value < 0) ↔ _
  omega

theorem lt_nextMinor_iff (found : descriptor.nextMinor = .ok stop)
    (release : version.preRelease = none) :
    version.toPoint < stop ↔ version.major.value < descriptor.major.value ∨
      version.major.value = descriptor.major.value ∧
        version.minor.value ≤ descriptor.minor.value := by
  obtain ⟨minor, following, same⟩ := Outcome.bind_eq_ok_iff.mp found
  cases Outcome.pure_eq_ok_iff.mp same
  have bumped := Component.value_of_next following
  rw [Point.lt_iff_of_release release]
  change version.major.value < descriptor.major.value ∨
    version.major.value = descriptor.major.value ∧ (version.minor.value < minor.value ∨
      version.minor.value = minor.value ∧ version.patch.value < 0) ↔ _
  omega

private theorem lt_nextPatch_iff (found : descriptor.nextPatch = .ok stop)
    (release : version.preRelease = none) :
    version.toPoint < stop ↔ version.major.value < descriptor.major.value ∨
      version.major.value = descriptor.major.value ∧
        (version.minor.value < descriptor.minor.value ∨
          version.minor.value = descriptor.minor.value ∧
            version.patch.value ≤ descriptor.patch.value) := by
  obtain ⟨patch, following, same⟩ := Outcome.bind_eq_ok_iff.mp found
  cases Outcome.pure_eq_ok_iff.mp same
  have bumped := Component.value_of_next following
  rw [Point.lt_iff_of_release release]
  change version.major.value < descriptor.major.value ∨
    version.major.value = descriptor.major.value ∧
      (version.minor.value < descriptor.minor.value ∨
        version.minor.value = descriptor.minor.value ∧ version.patch.value < patch.value) ↔ _
  omega

/-! ### Standings -/

theorem standing_of_precision_eq_zero (none : descriptor.precision = 0) :
    descriptor.standing version = .eq := by
  have empty : descriptor.numbers = [] :=
    List.length_eq_zero_iff.mp (descriptor.length_numbers.trans none)
  simp [standing, isComplete, none, empty]

theorem standing_of_precision_eq_three (complete : descriptor.precision = 3) :
    descriptor.standing version = compare version.toPoint descriptor.floor :=
  if_pos (beq_iff_eq.mpr complete)

theorem standing_of_precision_eq_one (lead : descriptor.NumbersLead)
    (one : descriptor.precision = 1) :
    descriptor.standing version = compare version.major.value descriptor.major.value := by
  rcases lead.numbers_cases with ⟨other, -⟩ | ⟨-, numbers, -⟩ | ⟨other, -⟩ | ⟨other, -⟩
  · omega
  · rw [standing, isComplete, one, numbers]
    simp [Core.components, List.compare_cons_cons]
  · omega
  · omega

theorem standing_of_precision_eq_two (lead : descriptor.NumbersLead)
    (two : descriptor.precision = 2) :
    descriptor.standing version = (compare version.major.value descriptor.major.value).then
      (compare version.minor.value descriptor.minor.value) := by
  rcases lead.numbers_cases with ⟨other, -⟩ | ⟨other, -⟩ | ⟨-, numbers, -⟩ | ⟨other, -⟩
  · omega
  · omega
  · rw [standing, isComplete, two, numbers]
    simp [Core.components, List.compare_cons_cons]
  · omega

/-- A release stands below the numbers of a descriptor exactly if it stands below the floor, where
zeros follow these numbers. -/
theorem standing_eq_lt_iff (lead : descriptor.NumbersLead) (numbered : descriptor.precision ≠ 0)
    (release : version.preRelease = none) :
    descriptor.standing version = .lt ↔ version.toPoint < descriptor.floor := by
  rcases lead.numbers_cases with ⟨none, -⟩ | ⟨one, -, minor, patch⟩ | ⟨two, -, patch⟩ | ⟨three, -⟩
  · exact absurd none numbered
  · rw [standing_of_precision_eq_one lead one, Nat.compare_eq_lt, lt_floor_iff release]
    omega
  · rw [standing_of_precision_eq_two lead two, lt_floor_iff release]
    simp only [Ordering.then_eq_lt, Nat.compare_eq_lt, Nat.compare_eq_eq]
    omega
  · rw [standing_of_precision_eq_three three]
    exact Iff.rfl

/-! ### Lines -/

theorem lt_nextLine_iff (found : Npm.nextLine descriptor = .ok stop)
    (release : version.preRelease = none) :
    version.toPoint < stop ↔ version.major.value < descriptor.major.value ∨
      version.major.value = descriptor.major.value ∧
        (descriptor.precision = 1 ∨ version.minor.value ≤ descriptor.minor.value) := by
  have found := Outcome.mapError_eq_ok_iff.mp found
  by_cases one : descriptor.precision = 1
  · rw [if_pos one] at found
    rw [lt_nextMajor_iff found release]
    omega
  · rw [if_neg one] at found
    rw [lt_nextMinor_iff found release]
    omega

theorem standing_isLE_iff (lead : descriptor.NumbersLead)
    (line : descriptor.precision = 1 ∨ descriptor.precision = 2)
    (next : Npm.nextLine descriptor = .ok stop) (release : version.preRelease = none) :
    (descriptor.standing version).isLE = true ↔ version.toPoint < stop := by
  rw [lt_nextLine_iff next release]
  rcases line with one | two
  · rw [standing_of_precision_eq_one lead one, Nat.isLE_compare]
    omega
  · rw [standing_of_precision_eq_two lead two, Ordering.isLE_then_iff_or]
    simp only [Nat.compare_eq_lt, Nat.compare_eq_eq, Nat.isLE_compare]
    omega

theorem lt_nextLine_iff_prefix (lead : descriptor.NumbersLead)
    (numbered : descriptor.precision ≠ 0) (next : Npm.nextLine descriptor = .ok stop)
    (release : version.preRelease = none) (above : descriptor.floor ≤ version.toPoint) :
    version.toPoint < stop ↔ descriptor.numbers.take 2 <+: version.components := by
  rw [← not_lt, lt_floor_iff release] at above
  rw [lt_nextLine_iff next release]
  rcases lead.numbers_cases with ⟨none, -⟩ | ⟨one, numbers, -⟩ | ⟨two, numbers, -⟩ |
    ⟨three, numbers⟩
  · exact absurd none numbered
  all_goals
    simp only [numbers, List.take, Core.components, List.cons_prefix_cons, List.nil_prefix,
      and_true]
    omega

theorem significant_eq (lead : descriptor.NumbersLead) (numbered : descriptor.precision ≠ 0) :
    descriptor.significant =
      if descriptor.major ≠ 0 ∨ descriptor.precision = 1 then [descriptor.major.value]
      else if descriptor.minor ≠ 0 ∨ descriptor.precision = 2 then
        [descriptor.major.value, descriptor.minor.value]
      else [descriptor.major.value, descriptor.minor.value, descriptor.patch.value] := by
  have isZero (component : Component) : component = 0 ↔ component.value = 0 := Component.ext_iff
  rcases lead.numbers_cases with ⟨none, -⟩ | ⟨one, numbers, minor, patch⟩ | ⟨two, numbers, patch⟩ |
    ⟨three, numbers⟩
  · exact absurd none numbered
  · simp [significant, numbers, one]
  · rw [significant, numbers, two]
    by_cases major : descriptor.major.value = 0 <;> simp [isZero, major]
  · rw [significant, numbers, three]
    by_cases major : descriptor.major.value = 0
    · by_cases minor : descriptor.minor.value = 0
      · by_cases patch : descriptor.patch.value = 0 <;> simp [isZero, major, minor, patch]
      · simp [isZero, major, minor]
    · simp [isZero, major]

/-- Of the releases from the floor on, those below the stop of a caret agree with the numbers that
it keeps. -/
theorem lt_caretStop_iff_prefix (lead : descriptor.NumbersLead)
    (numbered : descriptor.precision ≠ 0) (found : Npm.caretStop descriptor = .ok stop)
    (release : version.preRelease = none) (above : descriptor.floor ≤ version.toPoint) :
    version.toPoint < stop ↔ descriptor.significant <+: version.components := by
  rw [← not_lt, lt_floor_iff release] at above
  rw [significant_eq lead numbered, Core.components]
  unfold Npm.caretStop at found
  split at found
  · next decided =>
    rw [if_pos decided, lt_nextMajor_iff found release]
    simp only [List.cons_prefix_cons, List.nil_prefix, and_true]
    omega
  · next undecided =>
    rw [if_neg undecided]
    split at found
    · next decided =>
      rw [if_pos decided, lt_nextMinor_iff found release]
      simp only [List.cons_prefix_cons, List.nil_prefix, and_true]
      omega
    · next zeros =>
      rw [if_neg zeros, lt_nextPatch_iff found release]
      simp only [List.cons_prefix_cons, List.nil_prefix, and_true]
      omega

end Descriptor

end Versioning
