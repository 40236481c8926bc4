import Versioning.Proofs.Conjunction.Lowering
import Versioning.Proofs.Npm.OpenPositions
import Versioning.Proofs.Version.Increment

/-!
What npm terms mean. To stop past what it accepts, or to step over what it names, a term raises a
number of its descriptor by one. Which number this is depends on the sigil, on how many numbers
lead, on which of them are zero and on whether there is a pre-release. With it the comparators of
each term are known.
-/

namespace Versioning

private theorem Core.eq_of_components_eq {core other : Core}
    (same : core.components = other.components) :
    core = other := by
  simp only [components, List.cons.injEq, and_true] at same
  exact Core.ext (Component.ext same.1) (Component.ext same.2.1) (Component.ext same.2.2)

private theorem Core.le_limit_of_mem_components {core : Core} {number : Nat}
    (member : number ∈ core.components) : number ≤ Component.limit := by
  simp only [components, List.mem_cons, List.not_mem_nil, or_false] at member
  rcases member with rfl | rfl | rfl
  · exact core.major.value_le
  · exact core.minor.value_le
  · exact core.patch.value_le

namespace Descriptor

variable {descriptor : Descriptor} {index : Nat} {next : Component} {point : Point}

/-! ### Raised numbers -/

def component (descriptor : Descriptor) : Nat → Component
  | 0 => descriptor.major
  | 1 => descriptor.minor
  | _ => descriptor.patch

def withComponent (descriptor : Descriptor) (index : Nat) (component : Component) : Point :=
  match index with
  | 0 => ⟨⟨component, 0, 0⟩, some .least⟩
  | 1 => ⟨⟨descriptor.major, component, 0⟩, some .least⟩
  | _ => ⟨⟨descriptor.major, descriptor.minor, component⟩, some .least⟩

/-- The first point with one more at an index. -/
def raise (descriptor : Descriptor) (index : Nat) : Except VersionError Point :=
  (descriptor.component index).next.map (descriptor.withComponent index)

/-- Whether a point is the first one with one more than a descriptor at an index. The sum is one of
natural numbers, which do not wrap around. -/
structure IsRaisedAt (descriptor : Descriptor) (index : Nat) (point : Point) : Prop where
  components : ∃ number, descriptor.numbers[index]? = some number ∧
    point.components =
      descriptor.numbers.take index ++ (number + 1) :: List.replicate (2 - index) 0
  preRelease : point.preRelease = some .least

theorem nextMajor_eq_raise (descriptor : Descriptor) :
    descriptor.nextMajor = descriptor.raise 0 := by
  unfold nextMajor raise component
  cases descriptor.major.next <;> rfl

theorem nextMinor_eq_raise (descriptor : Descriptor) :
    descriptor.nextMinor = descriptor.raise 1 := by
  unfold nextMinor raise component
  cases descriptor.minor.next <;> rfl

theorem nextPatch_eq_raise (descriptor : Descriptor) :
    descriptor.nextPatch = descriptor.raise 2 := by
  unfold nextPatch raise component
  cases descriptor.patch.next <;> rfl

theorem numbers_eq_take (descriptor : Descriptor) :
    descriptor.numbers = descriptor.floor.components.take descriptor.precision := by
  rcases descriptor.numbers_cases with ⟨none, numbers⟩ | ⟨one, numbers, -⟩ | ⟨two, numbers, -⟩ |
    ⟨three, numbers⟩
  · rw [numbers, none]
    rfl
  · rw [numbers, one]
    rfl
  · rw [numbers, two]
    rfl
  · rw [numbers, three]
    rfl

theorem getElem?_numbers (inside : index < descriptor.precision) :
    descriptor.numbers[index]? = some (descriptor.component index).value := by
  have short := descriptor.precision_le
  rw [numbers_eq_take, List.getElem?_take_of_lt inside]
  match index with
  | 0 => rfl
  | 1 => rfl
  | 2 => rfl
  | _ + 3 => omega

private theorem components_withComponent (inside : index < descriptor.precision) :
    (descriptor.withComponent index next).components =
      descriptor.numbers.take index ++ next.value :: List.replicate (2 - index) 0 := by
  have short := descriptor.precision_le
  rw [numbers_eq_take, List.take_take, min_eq_left inside.le]
  match index with
  | 0 => rfl
  | 1 => rfl
  | 2 => rfl
  | _ + 3 => omega

private theorem floor_lt_withComponent (above : (descriptor.component index).value < next.value) :
    descriptor.floor < descriptor.withComponent index next := by
  have core : compare descriptor.floor.toCore (descriptor.withComponent index next).toCore =
      .lt := by
    rw [Core.compare_eq_lt_iff]
    match index with
    | 0 => exact .inl above
    | 1 => exact .inr ⟨rfl, .inl above⟩
    | _ + 2 => exact .inr ⟨rfl, .inr ⟨rfl, above⟩⟩
  change compare descriptor.floor _ = .lt
  rw [Point.compare_eq_then, core]
  rfl

private theorem floor_lt_of_raise (found : descriptor.raise index = .ok point) :
    descriptor.floor < point := by
  obtain ⟨next, following, rfl⟩ := Outcome.map_eq_ok_iff.mp found
  apply floor_lt_withComponent
  rw [Component.value_of_next following]
  exact Nat.lt_succ_self _

theorem isRaisedAt_of_raise (inside : index < descriptor.precision)
    (found : descriptor.raise index = .ok point) : descriptor.IsRaisedAt index point := by
  obtain ⟨next, following, rfl⟩ := Outcome.map_eq_ok_iff.mp found
  refine ⟨⟨_, getElem?_numbers inside, ?_⟩, ?_⟩
  · rw [components_withComponent inside, Component.value_of_next following]
  · unfold withComponent
    split <;> rfl

theorem exists_raise (inside : index < descriptor.precision)
    (fits : descriptor.numbers[index]? ≠ some Component.limit) :
    ∃ point, descriptor.raise index = .ok point := by
  rw [getElem?_numbers inside, ne_eq, Option.some_inj] at fits
  obtain ⟨next, following⟩ := Component.exists_next_iff.mpr fits
  exact ⟨_, Outcome.map_eq_ok_iff.mpr ⟨next, following, rfl⟩⟩

namespace IsRaisedAt

variable {other : Point}

theorem ne_limit (raised : descriptor.IsRaisedAt index point) :
    descriptor.numbers[index]? ≠ some Component.limit := by
  obtain ⟨number, isNumber, components⟩ := raised.components
  have among : number + 1 ∈ point.components := by
    rw [components]
    simp
  have fits := Core.le_limit_of_mem_components among
  rw [isNumber]
  intro greatest
  have same := Option.some.inj greatest
  omega

private theorem lt_precision (raised : descriptor.IsRaisedAt index point) :
    index < descriptor.precision := by
  obtain ⟨number, isNumber, -⟩ := raised.components
  obtain ⟨inside, -⟩ := List.getElem?_eq_some_iff.mp isNumber
  rwa [length_numbers] at inside

private theorem unique (raised : descriptor.IsRaisedAt index point)
    (raisedToo : descriptor.IsRaisedAt index other) : point = other := by
  obtain ⟨number, isNumber, components⟩ := raised.components
  obtain ⟨again, isNumberToo, componentsToo⟩ := raisedToo.components
  cases isNumber.symm.trans isNumberToo
  have core : point.toCore = other.toCore :=
    Core.eq_of_components_eq (components.trans componentsToo.symm)
  have preRelease := raised.preRelease.trans raisedToo.preRelease.symm
  cases point
  cases other
  simp_all

theorem raise_eq_ok (raised : descriptor.IsRaisedAt index point) :
    descriptor.raise index = .ok point := by
  obtain ⟨other, found⟩ := exists_raise raised.lt_precision raised.ne_limit
  rw [found, raised.unique (isRaisedAt_of_raise raised.lt_precision found)]

private theorem floor_lt (raised : descriptor.IsRaisedAt index point) : descriptor.floor < point :=
  floor_lt_of_raise raised.raise_eq_ok

end IsRaisedAt

/-! ### Floors -/

theorem next_floor_of_release (release : descriptor.floor.preRelease = none) :
    descriptor.floor.next = descriptor.raise 2 := by
  unfold Point.next
  rw [release, ← nextPatch_eq_raise]
  rfl

theorem next_floor_of_preRelease {preRelease : PreRelease} (complete : descriptor.precision = 3)
    (found : descriptor.preRelease = some preRelease) :
    descriptor.floor.next = .ok ⟨descriptor.floor.toCore, some preRelease.next⟩ := by
  have named : descriptor.floor.preRelease = some preRelease := by
    rw [floor, isComplete, complete, found]
    rfl
  unfold Point.next
  rw [named]

private theorem patch_eq_zero (incomplete : descriptor.precision ≠ 3)
    (numbered : descriptor.hasWildcard = false) : descriptor.patch = 0 := by
  cases descriptor with
  | one major => rfl
  | two major minor => rfl
  | three major minor patch preRelease build =>
      refine absurd ?_ incomplete
      rw [hasWildcard, List.any_eq_false] at numbered
      rw [precision, List.takeWhile_eq_self_iff.mpr]
      · rfl
      · simpa using numbered

theorem next_floor_of_incomplete (incomplete : descriptor.precision ≠ 3)
    (numbered : descriptor.hasWildcard = false) :
    descriptor.floor.next = .ok ⟨⟨descriptor.major, descriptor.minor, 1⟩, some .least⟩ := by
  have release : descriptor.floor.preRelease = none := by
    rw [floor, isComplete, beq_false_of_ne incomplete]
    rfl
  have patch : descriptor.component 2 = 0 := patch_eq_zero incomplete numbered
  rw [next_floor_of_release release, raise, patch]
  rfl

end Descriptor

namespace Npm

variable {options : Options} {sigil : Sigil} {descriptor : Descriptor} {source : String}
  {index : Nat} {point : Point} {branch : Branch} {conjunction : Conjunction}

/-! ### What a term raises -/

/-- The index of the number that a term raises, if it raises one. A complete descriptor with a
pre-release has a next point without that, and the terms of `>=` and `<` do not look past their
descriptor. -/
def raised? (sigil : Sigil) (descriptor : Descriptor) : Option Nat :=
  match sigil with
  | .plain | .atMost | .greater =>
      match descriptor.precision with
      | 0 => none
      | 1 => some 0
      | 2 => some 1
      | _ => if descriptor.preRelease.isSome then none else some 2
  | .tilde =>
      match descriptor.precision with
      | 0 => none
      | 1 => some 0
      | _ => some 1
  | .caret =>
      if descriptor.precision = 0 then none
      else if descriptor.major ≠ 0 ∨ descriptor.precision = 1 then some 0
      else if descriptor.minor ≠ 0 ∨ descriptor.precision = 2 then some 1
      else some 2
  | .notEqual => if descriptor.isComplete && descriptor.preRelease.isNone then some 2 else none
  | .less | .atLeast => none

/-- Whether a term goes up to the end of the line that its descriptor stands in. -/
def RunsToLine (sigil : Sigil) (descriptor : Descriptor) : Prop :=
  sigil = .tilde ∨ sigil ∈ [.plain, .atMost, .greater] ∧ descriptor.precision ≠ 3

/-- Whether no number that has to be raised is the greatest there is. -/
def Fits (sigil : Sigil) (descriptor : Descriptor) : Prop :=
  ∀ index ∈ raised? sigil descriptor, descriptor.numbers[index]? ≠ some Component.limit

/-- The points at which a term stops accepting what it names: a number is raised, or a pre-release
followed by the next one. -/
inductive IsPast (sigil : Sigil) (descriptor : Descriptor) : Point → Prop
  | raised {index : Nat} {point : Point} (raises : raised? sigil descriptor = some index)
      (isRaised : descriptor.IsRaisedAt index point) : IsPast sigil descriptor point
  | series {preRelease : PreRelease} (complete : descriptor.precision = 3)
      (found : descriptor.preRelease = some preRelease)
      (steps : sigil ∈ [.plain, .notEqual, .atMost, .greater]) :
      IsPast sigil descriptor ⟨descriptor.floor.toCore, some preRelease.next⟩

theorem lt_precision_of_raised? (raises : raised? sigil descriptor = some index) :
    index < descriptor.precision := by
  have short := descriptor.precision_le
  unfold raised? Descriptor.isComplete at raises
  grind

private theorem raised?_of_wildcard (none : descriptor.precision = 0) :
    raised? sigil descriptor = .none := by
  cases sigil <;> simp [raised?, Descriptor.isComplete, none]

theorem raised?_of_line (numbered : descriptor.precision ≠ 0)
    (runs : RunsToLine sigil descriptor) :
    raised? sigil descriptor = some (if descriptor.precision = 1 then 0 else 1) := by
  have short := descriptor.precision_le
  unfold RunsToLine at runs
  unfold raised?
  grind

theorem raised?_of_complete (complete : descriptor.precision = 3)
    (steps : sigil ∈ [.plain, .notEqual, .atMost, .greater]) :
    raised? sigil descriptor = if descriptor.preRelease.isSome then none else some 2 := by
  cases found : descriptor.preRelease <;> cases sigil <;>
    simp_all [raised?, Descriptor.isComplete]

theorem nextLine_eq_raise (descriptor : Descriptor) : nextLine descriptor =
    (descriptor.raise (if descriptor.precision = 1 then 0 else 1)).mapError
      ConstraintError.version := by
  unfold nextLine
  split
  · rw [Descriptor.nextMajor_eq_raise]
  · rw [Descriptor.nextMinor_eq_raise]

theorem nextLine_eq_ok_iff : nextLine descriptor = .ok point ↔
    descriptor.raise (if descriptor.precision = 1 then 0 else 1) = .ok point := by
  rw [nextLine_eq_raise, Outcome.mapError_eq_ok_iff]

theorem raised?_caret (numbered : descriptor.precision ≠ 0) :
    ∃ index, raised? .caret descriptor = some index ∧
      caretStop descriptor = descriptor.raise index := by
  unfold raised? caretStop
  simp only [if_neg numbered]
  split
  · exact ⟨0, rfl, descriptor.nextMajor_eq_raise⟩
  · split
    · exact ⟨1, rfl, descriptor.nextMinor_eq_raise⟩
    · exact ⟨2, rfl, descriptor.nextPatch_eq_raise⟩

theorem fits_of_wildcard (none : descriptor.precision = 0) : Fits sigil descriptor := by
  intro index raises
  rw [raised?_of_wildcard none] at raises
  cases raises

theorem fits_of_incomplete (incomplete : descriptor.precision ≠ 3) :
    Fits .notEqual descriptor := by
  intro index raises
  simp [raised?, Descriptor.isComplete, incomplete] at raises

namespace IsPast

theorem fits (past : IsPast sigil descriptor point) : Fits sigil descriptor := by
  intro index raises
  cases past with
  | raised raisesToo isRaised =>
      cases raisesToo.symm.trans raises
      exact isRaised.ne_limit
  | series complete found steps =>
      rw [raised?_of_complete complete steps, found] at raises
      cases raises

theorem floor_lt (past : IsPast sigil descriptor point) : descriptor.floor < point := by
  cases past with
  | raised raises isRaised => exact isRaised.floor_lt
  | series complete found steps =>
      have next := Descriptor.next_floor_of_preRelease complete found
      exact (Point.lt_next_iff next).mpr le_rfl

end IsPast

theorem exists_raise_of_fits (raises : raised? sigil descriptor = some index)
    (fits : Fits sigil descriptor) : ∃ point, descriptor.raise index = .ok point :=
  Descriptor.exists_raise (lt_precision_of_raised? raises) (fits index raises)

theorem isPast_of_raise (raises : raised? sigil descriptor = some index)
    (found : descriptor.raise index = .ok point) : IsPast sigil descriptor point :=
  .raised raises (Descriptor.isRaisedAt_of_raise (lt_precision_of_raised? raises) found)

theorem isPast_of_nextLine (numbered : descriptor.precision ≠ 0)
    (runs : RunsToLine sigil descriptor) (next : nextLine descriptor = .ok point) :
    IsPast sigil descriptor point :=
  isPast_of_raise (raised?_of_line numbered runs) (nextLine_eq_ok_iff.mp next)

theorem exists_nextLine (numbered : descriptor.precision ≠ 0)
    (runs : RunsToLine sigil descriptor) (fits : Fits sigil descriptor) :
    ∃ point, nextLine descriptor = .ok point := by
  simp only [nextLine_eq_ok_iff]
  exact exists_raise_of_fits (raised?_of_line numbered runs) fits

theorem isPast_of_caretStop (numbered : descriptor.precision ≠ 0)
    (stops : caretStop descriptor = .ok point) : IsPast .caret descriptor point := by
  obtain ⟨index, raises, same⟩ := raised?_caret numbered
  rw [same] at stops
  exact isPast_of_raise raises stops

private theorem exists_caretStop (numbered : descriptor.precision ≠ 0)
    (fits : Fits .caret descriptor) :
    ∃ point, caretStop descriptor = .ok point := by
  obtain ⟨index, raises, same⟩ := raised?_caret numbered
  rw [same]
  exact exists_raise_of_fits raises fits

theorem isPast_of_next_floor (complete : descriptor.precision = 3)
    (steps : sigil ∈ [.plain, .notEqual, .atMost, .greater])
    (next : descriptor.floor.next = .ok point) : IsPast sigil descriptor point := by
  have raises := raised?_of_complete complete steps
  cases found : descriptor.preRelease with
  | none =>
      rw [found] at raises
      have release := Descriptor.preRelease_floor found
      rw [Descriptor.next_floor_of_release release] at next
      exact isPast_of_raise raises next
  | some preRelease =>
      rw [Descriptor.next_floor_of_preRelease complete found] at next
      cases next
      exact .series complete found steps

theorem exists_next_floor_iff (complete : descriptor.precision = 3)
    (steps : sigil ∈ [.plain, .notEqual, .atMost, .greater]) :
    (∃ point, descriptor.floor.next = .ok point) ↔ Fits sigil descriptor := by
  constructor
  · intro following
    obtain ⟨point, next⟩ := following
    exact (isPast_of_next_floor complete steps next).fits
  · intro fits
    have raises := raised?_of_complete complete steps
    cases found : descriptor.preRelease with
    | none =>
        rw [found] at raises
        rw [Descriptor.next_floor_of_release (Descriptor.preRelease_floor found)]
        exact exists_raise_of_fits raises fits
    | some preRelease => exact ⟨_, Descriptor.next_floor_of_preRelease complete found⟩

/-! ### What a term comes down to -/

/-- What the terms of each sigil come down to, case by case. No comparator has a reference that is
not the floor of the descriptor or past what the term names. -/
inductive Means (options : Options) (descriptor : Descriptor) : Sigil → Conjunction → Prop
  | any {sigil : Sigil} (none : descriptor.precision = 0)
      (inclusive : sigil ∈ [.plain, .tilde, .caret, .atMost, .atLeast]) :
      Means options descriptor sigil []
  | nothing {sigil : Sigil} (none : descriptor.precision = 0)
      (exclusive : sigil ∈ [.notEqual, .less, .greater]) :
      Means options descriptor sigil [⟨.below, .least⟩]
  | range {sigil : Sigil} {start stop : Point} (range : sigil ∈ [.plain, .tilde, .caret])
      (starts : start ∈ lowerBound options descriptor) (past : IsPast sigil descriptor stop) :
      Means options descriptor sigil [⟨.atLeast, start⟩, ⟨.below, stop⟩]
  | exactly (complete : descriptor.precision = 3) :
      Means options descriptor .plain [⟨.equal, descriptor.floor⟩]
  | excluding (numbered : descriptor.hasWildcard = false) :
      Means options descriptor .notEqual [⟨.notEqual, descriptor.floor⟩]
  | below {stop : Point} (stops : stop ∈ [descriptor.floor, descriptor.floor.withLeastPreRelease]) :
      Means options descriptor .less [⟨.below, stop⟩]
  | upTo {stop : Point} (past : IsPast .atMost descriptor stop) :
      Means options descriptor .atMost [⟨.below, stop⟩]
  | above {start : Point} (past : IsPast .greater descriptor start) :
      Means options descriptor .greater [⟨.atLeast, start⟩]
  | onwards {start : Point}
      (starts : start ∈ [descriptor.floor, descriptor.floor.withLeastPreRelease]) :
      Means options descriptor .atLeast [⟨.atLeast, start⟩]

theorem mem_of_lowerBound {start : Point} (starts : start ∈ lowerBound options descriptor) :
    start ∈ [descriptor.floor, descriptor.floor.withLeastPreRelease] := by
  unfold lowerBound at starts
  split at starts
  · cases starts
  · split at starts <;> cases starts <;> simp

theorem means_of_bounded {next : Except ConstraintError Point}
    (range : sigil ∈ [.plain, .tilde, .caret]) (numbered : descriptor.precision ≠ 0)
    (past : ∀ stop, next = .ok stop → IsPast sigil descriptor stop)
    (found : (next >>= fun stop => bounded (lowerBound options descriptor) (some stop)) =
      .ok branch) : Means options descriptor sigil branch.conjunction := by
  obtain ⟨stop, stops, limits⟩ := Outcome.bind_eq_ok_iff.mp found
  obtain ⟨start, starts, -⟩ := exists_lowerBound options numbered
  rw [conjunction_of_bounded limits, starts]
  exact .range range starts (past stop stops)

theorem lt_of_lowerBound {start stop : Point} (starts : start ∈ lowerBound options descriptor)
    (past : IsPast sigil descriptor stop) : start < stop := by
  have upToFloor : start ≤ descriptor.floor := by
    rcases List.mem_pair.mp (mem_of_lowerBound starts) with rfl | rfl
    · exact le_rfl
    · exact descriptor.floor.withLeastPreRelease_le
  exact upToFloor.trans_lt past.floor_lt

theorem exists_bounded {next : Except ConstraintError Point} {stop : Point}
    (stops : next = .ok stop) (past : IsPast sigil descriptor stop) :
    ∃ branch, (next >>= fun stop => bounded (lowerBound options descriptor) (some stop)) =
      .ok branch := by
  have ordered : ∀ start ∈ lowerBound options descriptor, ∀ last ∈ some stop, start < last := by
    intro start starts last isLast
    cases isLast
    exact lt_of_lowerBound starts past
  obtain ⟨branch, limits⟩ := exists_bounded_iff.mpr ordered
  exact ⟨branch, Outcome.bind_eq_ok_iff.mpr ⟨stop, stops, limits⟩⟩

/-! ### Terms -/

private theorem means_of_plain (found : plain options descriptor = .ok branch) :
    Means options descriptor .plain branch.conjunction := by
  have ofLine (line : descriptor.precision = 1 ∨ descriptor.precision = 2)
      (found : (nextLine descriptor >>= fun stop =>
        bounded (lowerBound options descriptor) (some stop)) = .ok branch) :
      Means options descriptor .plain branch.conjunction := by
    have numbered : descriptor.precision ≠ 0 := by omega
    have runs : RunsToLine .plain descriptor := .inr ⟨by decide, by omega⟩
    exact means_of_bounded (by decide) numbered (fun _ => isPast_of_nextLine numbered runs) found
  unfold plain at found
  split at found
  · next none =>
    cases Outcome.pure_eq_ok_iff.mp found
    exact .any none (by decide)
  · next one => exact ofLine (.inl one) found
  · next two => exact ofLine (.inr two) found
  · next numbered notOne notTwo =>
    cases Outcome.pure_eq_ok_iff.mp found
    have complete : descriptor.precision = 3 := by
      by_contra incomplete
      exact (Descriptor.precision_of_incomplete numbered incomplete).elim notOne notTwo
    exact .exactly complete

private theorem exists_plain (fits : Fits .plain descriptor) :
    ∃ branch, plain options descriptor = .ok branch := by
  have ofLine (line : descriptor.precision = 1 ∨ descriptor.precision = 2) :
      ∃ branch, (nextLine descriptor >>= fun stop =>
        bounded (lowerBound options descriptor) (some stop)) = .ok branch := by
    have numbered : descriptor.precision ≠ 0 := by omega
    have runs : RunsToLine .plain descriptor := .inr ⟨by decide, by omega⟩
    obtain ⟨stop, next⟩ := exists_nextLine numbered runs fits
    exact exists_bounded next (isPast_of_nextLine numbered runs next)
  unfold plain
  split
  · exact ⟨_, rfl⟩
  · next one => exact ofLine (.inl one)
  · next two => exact ofLine (.inr two)
  · exact ⟨_, rfl⟩

private theorem means_of_tilde (found : tilde options descriptor = .ok branch) :
    Means options descriptor .tilde branch.conjunction := by
  unfold tilde at found
  split at found
  · next none =>
    cases Outcome.pure_eq_ok_iff.mp found
    exact .any none (by decide)
  · next numbered =>
    have runs : RunsToLine .tilde descriptor := .inl rfl
    exact means_of_bounded (by decide) numbered (fun _ => isPast_of_nextLine numbered runs) found

private theorem exists_tilde (fits : Fits .tilde descriptor) :
    ∃ branch, tilde options descriptor = .ok branch := by
  unfold tilde
  split
  · exact ⟨_, rfl⟩
  · next numbered =>
    have runs : RunsToLine .tilde descriptor := .inl rfl
    obtain ⟨stop, next⟩ := exists_nextLine numbered runs fits
    exact exists_bounded next (isPast_of_nextLine numbered runs next)

private theorem means_of_caret (found : caret options descriptor = .ok branch) :
    Means options descriptor .caret branch.conjunction := by
  unfold caret at found
  split at found
  · next none =>
    cases Outcome.pure_eq_ok_iff.mp found
    exact .any none (by decide)
  · next numbered =>
    refine means_of_bounded (by decide) numbered (fun stop stops => ?_) found
    exact isPast_of_caretStop numbered (Outcome.mapError_eq_ok_iff.mp stops)

private theorem exists_caret (fits : Fits .caret descriptor) :
    ∃ branch, caret options descriptor = .ok branch := by
  unfold caret
  split
  · exact ⟨_, rfl⟩
  · next numbered =>
    obtain ⟨stop, stops⟩ := exists_caretStop numbered fits
    exact exists_bounded (Outcome.mapError_eq_ok_iff.mpr stops) (isPast_of_caretStop numbered stops)

private theorem means_of_notEqual (found : notEqual source descriptor = .ok branch) :
    Means options descriptor .notEqual branch.conjunction := by
  unfold notEqual at found
  split at found
  · next none =>
    cases found
    exact .nothing none (by decide)
  · split at found
    · cases found
    · next numbered =>
      cases found
      exact .excluding (Bool.eq_false_iff.mpr numbered)

theorem exists_notEqual_iff : (∃ branch, notEqual source descriptor = .ok branch) ↔
    ¬(descriptor.precision ≠ 0 ∧ descriptor.hasWildcard = true) := by
  unfold notEqual
  split
  · next none => simp [none]
  · next numbered => cases descriptor.hasWildcard <;> simp [numbered]

private theorem means_less (options : Options) (descriptor : Descriptor) :
    Means options descriptor .less (less descriptor).conjunction := by
  unfold less
  split
  · next none => exact .nothing none (by decide)
  · exact .below (by simp)
  · exact .below (by simp)

theorem exists_drawnBehind {operator : Operator} {whole : Branch} {line : Point → Condition}
    (behind : sigil = .atMost ∨ sigil = .greater) (fits : Fits sigil descriptor) :
    ∃ branch, drawnBehind operator whole line descriptor = .ok branch := by
  unfold drawnBehind
  split
  · exact ⟨_, rfl⟩
  · next complete =>
    have steps : sigil ∈ [.plain, .notEqual, .atMost, .greater] := by simp [behind]
    obtain ⟨next, following⟩ := (exists_next_floor_iff complete steps).mpr fits
    exact exists_comparison operator following
  · next numbered incomplete =>
    have runs : RunsToLine sigil descriptor := .inr ⟨by simp [behind], incomplete⟩
    obtain ⟨stop, next⟩ := exists_nextLine numbered runs fits
    exact ⟨_, Outcome.bind_eq_ok_iff.mpr ⟨stop, next, rfl⟩⟩

theorem means_of_atMost (found : atMost descriptor = .ok branch) :
    Means options descriptor .atMost branch.conjunction := by
  rw [atMost_eq_drawnBehind] at found
  rcases drawnBehind_cases found with
    ⟨none, same⟩ | ⟨complete, found⟩ | ⟨numbered, incomplete, stop, next, same⟩
  · subst same
    exact .any none (by decide)
  · obtain ⟨next, following, conjunction⟩ := conjunction_comparison_atMost found
    rw [conjunction]
    exact .upTo (isPast_of_next_floor complete (by decide) following)
  · subst same
    exact .upTo (isPast_of_nextLine numbered (.inr ⟨by decide, incomplete⟩) next)

private theorem means_of_greater (found : greater descriptor = .ok branch) :
    Means options descriptor .greater branch.conjunction := by
  rw [greater_eq_drawnBehind] at found
  rcases drawnBehind_cases found with
    ⟨none, same⟩ | ⟨complete, found⟩ | ⟨numbered, incomplete, start, next, same⟩
  · subst same
    exact .nothing none (by decide)
  · obtain ⟨comparator, made, conjunction⟩ := conjunction_of_comparison found
    obtain ⟨next, following, rfl⟩ := Outcome.map_eq_ok_iff.mp made
    rw [conjunction]
    exact .above (isPast_of_next_floor complete (by decide) following)
  · subst same
    exact .above (isPast_of_nextLine numbered (.inr ⟨by decide, incomplete⟩) next)

private theorem means_of_atLeast (found : atLeast options descriptor = .ok branch) :
    Means options descriptor .atLeast branch.conjunction := by
  unfold atLeast at found
  split at found
  · next none =>
    cases found
    exact .any none (by decide)
  · cases found
    exact .onwards (by simp)
  · next numbered _ =>
    obtain ⟨start, starts, -⟩ := exists_lowerBound options numbered
    rw [conjunction_of_bounded found, starts]
    exact .onwards (mem_of_lowerBound starts)

theorem means_of_term (found : term options source sigil descriptor = .ok branch) :
    Means options descriptor sigil branch.conjunction := by
  cases sigil with
  | plain => exact means_of_plain found
  | tilde => exact means_of_tilde found
  | caret => exact means_of_caret found
  | notEqual => exact means_of_notEqual found
  | less =>
      cases found
      exact means_less options descriptor
  | atMost => exact means_of_atMost found
  | greater => exact means_of_greater found
  | atLeast => exact means_of_atLeast found

/-- A term whose numbers fit comes down to something, unless it excludes a wildcard. -/
theorem exists_term (fits : Fits sigil descriptor)
    (exact : ¬(sigil = .notEqual ∧ descriptor.precision ≠ 0 ∧ descriptor.hasWildcard = true)) :
    ∃ branch, term options source sigil descriptor = .ok branch := by
  cases sigil with
  | plain => exact exists_plain fits
  | tilde => exact exists_tilde fits
  | caret => exact exists_caret fits
  | notEqual => exact exists_notEqual_iff.mpr fun excludes => exact ⟨rfl, excludes⟩
  | less => exact ⟨_, rfl⟩
  | atMost =>
      rw [term, atMost_eq_drawnBehind]
      exact exists_drawnBehind (.inl rfl) fits
  | greater =>
      rw [term, greater_eq_drawnBehind]
      exact exists_drawnBehind (.inr rfl) fits
  | atLeast => exact exists_atLeast options descriptor

end Npm

end Versioning
