import Versioning.Proofs.Constraint.Parsing
import Versioning.Proofs.Constraint.PreRelease
import Versioning.Proofs.Descriptor
import Versioning.Proofs.Npm.Term
import Versioning.Version.Reading

/-!
Npm texts that name releases only. Where no term stands above a version or excludes one, and no
version has a pre-release, ranges begin at releases, and they stop at releases or at the first
pre-releases of cores. Such ranges hold a pre-release only where they pass over its core, so that by
default none is admitted.
-/

namespace Versioning

open Range (Covers)

/-! ### Bounds at releases -/

private theorem PassesOver.and {held kept : Point → Prop} {core : Core}
    (first : PassesOver held core) (second : PassesOver kept core) :
    PassesOver (fun point => held point ∧ kept point) core := by
  obtain ⟨origin, early, holds⟩ := first
  obtain ⟨start, earlyStart, keeps⟩ := second
  rcases le_total origin start with before | after
  · refine ⟨start, earlyStart, fun point above below => ?_⟩
    exact ⟨holds point (before.trans above) below, keeps point above below⟩
  · refine ⟨origin, early, fun point above below => ?_⟩
    exact ⟨holds point above below, keeps point (after.trans above) below⟩

/-- Whether a bound lies outside of the pre-releases of every core. To stop at the first of them is
to stop before them. -/
def Comparator.AvoidsPreReleases (comparator : Comparator) : Prop :=
  match comparator.relation with
  | .equal | .atLeast => comparator.reference.preRelease = none
  | .below => ∀ preRelease ∈ comparator.reference.preRelease, preRelease = .least
  | .notEqual => False

private theorem Comparator.AvoidsPreReleases.passesOver {comparator : Comparator} {point : Point}
    (avoids : comparator.AvoidsPreReleases) (preRelease : point.isPreRelease = true)
    (held : comparator.relation.holds point comparator.reference = true) :
    PassesOver (fun other => comparator.relation.holds other comparator.reference = true)
      point.toCore := by
  obtain ⟨relation, reference⟩ := comparator
  have first := Point.firstPreRelease_le preRelease
  have last := Point.lt_toPoint preRelease
  have among (notBefore : point.toCore.firstPreRelease ≤ reference)
      (before : reference < point.toCore.toPoint) :
      reference.toCore = point.toCore ∧ reference.preRelease.isSome = true :=
    Core.firstPreRelease_le_and_lt_toPoint_iff.mp ⟨notBefore, before⟩
  cases relation with
  | equal =>
      obtain rfl : point = reference := beq_iff_eq.mp held
      have release : point.preRelease = none := avoids
      rw [Point.isPreRelease, release] at preRelease
      contradiction
  | notEqual => exact avoids.elim
  | atLeast =>
      have release : reference.preRelease = none := avoids
      have upTo : reference ≤ point := of_decide_eq_true held
      refine ⟨reference, .inr (not_le.mp fun notBefore => ?_), fun other above _ => ?_⟩
      · have preRelease := (among notBefore (upTo.trans_lt last)).2
        rw [release] at preRelease
        contradiction
      · exact decide_eq_true above
  | below =>
      have least : ∀ preRelease ∈ reference.preRelease, preRelease = .least := avoids
      have ahead : point < reference := of_decide_eq_true held
      refine ⟨.least, .inl rfl, fun other _ below => decide_eq_true (below.trans_le ?_)⟩
      refine not_lt.mp fun before => ?_
      -- the bound would be the first pre-release of the core, which stands above none of them
      obtain ⟨sameCore, preRelease⟩ := among (first.trans ahead.le) before
      obtain ⟨found, isFound⟩ := Option.isSome_iff_exists.mp preRelease
      have same : reference = point.toCore.firstPreRelease := by
        obtain ⟨core, preRelease⟩ := reference
        cases sameCore
        cases isFound
        rw [least found rfl]
        rfl
      exact not_lt.mpr first (same ▸ ahead)

private theorem Conjunction.passesOver {conjunction : Conjunction} {point : Point}
    (avoid : ∀ comparator ∈ conjunction, comparator.AvoidsPreReleases)
    (preRelease : point.isPreRelease = true) (held : conjunction.HoldsAt point) :
    PassesOver conjunction.HoldsAt point.toCore := by
  induction conjunction with
  | nil => exact ⟨.least, .inl rfl, fun _ _ _ => List.forall_mem_nil _⟩
  | cons comparator rest ih =>
      obtain ⟨avoidsFirst, avoidRest⟩ := List.forall_mem_cons.mp avoid
      obtain ⟨holdsFirst, holdsRest⟩ := List.forall_mem_cons.mp held
      refine ((avoidsFirst.passesOver preRelease holdsFirst).and (ih avoidRest holdsRest)).mono ?_
      intro other holds
      exact List.forall_mem_cons.mpr holds

private theorem Constraint.isSatisfiedBy_eq_false {constraint : Constraint} {version : Version}
    (avoid : ∀ branch ∈ constraint.branches, ∀ comparator ∈ branch.conjunction,
      comparator.AvoidsPreReleases) (preRelease : version.isPreRelease = true) :
    constraint.isSatisfiedBy version = false := by
  rw [Bool.eq_false_iff, ne_eq, isSatisfiedBy_iff]
  intro ⟨covered, stays⟩
  have covers := covers_normalize constraint.ranges_eq
  obtain ⟨conjunction, member, held⟩ := (covers version.toPoint).mp covered
  obtain ⟨branch, among, rfl⟩ := List.mem_map.mp member
  refine stays preRelease ((Conjunction.passesOver (avoid branch among) preRelease held).mono ?_)
  exact fun point holds => (covers point).mpr ⟨_, member, holds⟩

/-! ### Conditions at releases -/

def Operator.AvoidsPreReleases (operator : Operator) (point : Point) : Prop :=
  match operator with
  | .equal | .atMost | .atLeast => point.preRelease = none
  | .less => ∀ preRelease ∈ point.preRelease, preRelease = .least
  | .notEqual | .greater => False

theorem forall_eq_least {point : Point} (first : point.preRelease = some .least) :
    ∀ preRelease ∈ point.preRelease, preRelease = .least := by
  intro preRelease isPreRelease
  rw [first] at isPreRelease
  exact (Option.some.inj isPreRelease).symm

theorem preRelease_of_bind {next : Except VersionError Component} {core : Component → Core}
    {point : Point} (found : (next >>= fun number => pure ⟨core number, some .least⟩) = .ok point) :
    point.preRelease = some .least := by
  obtain ⟨number, -, same⟩ := Outcome.bind_eq_ok_iff.mp found
  cases Outcome.pure_eq_ok_iff.mp same
  rfl

theorem Point.preRelease_next {point next : Point} (release : point.preRelease = none)
    (found : point.next = .ok next) : next.preRelease = some .least := by
  unfold Point.next at found
  rw [release] at found
  exact preRelease_of_bind found

private theorem Condition.avoidsPreReleases {condition : Condition}
    (avoids : condition.operator.AvoidsPreReleases condition.version.toPoint) :
    condition.comparator.AvoidsPreReleases := by
  obtain ⟨operator, version, comparator, same⟩ := condition
  cases operator with
  | notEqual => exact avoids.elim
  | greater => exact avoids.elim
  | atMost =>
      obtain ⟨stop, next, rfl⟩ := Outcome.map_eq_ok_iff.mp same
      exact forall_eq_least (Point.preRelease_next avoids next)
  | _ =>
      cases same
      exact avoids

private theorem Branch.IsMadeOf.avoidsPreReleases {branch : Branch}
    (made : branch.IsMadeOf Operator.AvoidsPreReleases) :
    ∀ comparator ∈ branch.conjunction, comparator.AvoidsPreReleases := by
  intro comparator member
  obtain ⟨predicate, among, ofPredicate⟩ := List.mem_flatMap.mp member
  rcases made.forall_mem predicate among with rfl | ⟨condition, rfl, -, avoids⟩
  · cases ofPredicate
  · cases List.mem_singleton.mp ofPredicate
    exact condition.avoidsPreReleases avoids

/-! ### Descriptors without pre-releases -/

namespace Descriptor

variable {descriptor : Descriptor} {point : Point}

theorem preRelease_nextMajor (found : descriptor.nextMajor = .ok point) :
    point.preRelease = some .least := preRelease_of_bind found

theorem preRelease_nextMinor (found : descriptor.nextMinor = .ok point) :
    point.preRelease = some .least := preRelease_of_bind found

private theorem preRelease_nextPatch (found : descriptor.nextPatch = .ok point) :
    point.preRelease = some .least := preRelease_of_bind found

end Descriptor

namespace Npm

variable {options : Options} {descriptor : Descriptor} {operator : Operator} {point : Point}

private theorem preRelease_nextLine (found : nextLine descriptor = .ok point) :
    point.preRelease = some .least := by
  have found := Outcome.mapError_eq_ok_iff.mp found
  split at found
  · exact Descriptor.preRelease_nextMajor found
  · exact Descriptor.preRelease_nextMinor found

private theorem preRelease_caretStop (found : caretStop descriptor = .ok point) :
    point.preRelease = some .least := by
  unfold caretStop at found
  split at found
  · exact Descriptor.preRelease_nextMajor found
  · split at found
    · exact Descriptor.preRelease_nextMinor found
    · exact Descriptor.preRelease_nextPatch found

private theorem preRelease_hyphenStop (release : descriptor.preRelease = none)
    (found : hyphenStop descriptor = .ok (some point)) : point.preRelease = some .least := by
  unfold hyphenStop at found
  split at found
  · cases found
  all_goals
    obtain ⟨stop, next, same⟩ := Outcome.map_eq_ok_iff.mp found
    cases same
  · exact Descriptor.preRelease_nextMajor next
  · exact Descriptor.preRelease_nextMinor next
  · exact Point.preRelease_next (Descriptor.preRelease_floor release) next

theorem preRelease_lowerBound (bare : options.includePreRelease = false)
    (release : descriptor.preRelease = none) (starts : point ∈ lowerBound options descriptor) :
    point.preRelease = none := by
  unfold lowerBound at starts
  rw [bare] at starts
  split at starts
  · cases starts
  · cases starts
    exact Descriptor.preRelease_floor release

private theorem Yields.avoidsPreReleases {sigil : Sigil} (bare : options.includePreRelease = false)
    (notGreater : sigil ≠ .greater) (notExcluding : sigil ≠ .notEqual)
    (release : descriptor.preRelease = none)
    (yields : Yields options descriptor sigil operator point) :
    operator.AvoidsPreReleases point := by
  have floor := Descriptor.preRelease_floor release
  cases yields with
  | exact => exact floor
  | excluded => exact (notExcluding rfl).elim
  | nothing => exact forall_eq_least rfl
  | start range starts => exact preRelease_lowerBound bare release starts
  | line next => exact forall_eq_least (preRelease_nextLine next)
  | caretLine stops => exact forall_eq_least (preRelease_caretStop stops)
  | below =>
      intro preRelease isPreRelease
      rw [floor] at isPreRelease
      cases isPreRelease
  | belowLine =>
      apply forall_eq_least
      rw [Point.withLeastPreRelease, floor]
      rfl
  | atMost => exact floor
  | greater => exact (notGreater rfl).elim
  | pastLine => exact (notGreater rfl).elim
  | atLeast => exact floor

private theorem YieldsBetween.avoidsPreReleases {low high : Descriptor}
    (bare : options.includePreRelease = false) (releaseLow : low.preRelease = none)
    (releaseHigh : high.preRelease = none)
    (yields : YieldsBetween options low high operator point) :
    operator.AvoidsPreReleases point := by
  cases yields with
  | start starts => exact preRelease_lowerBound bare releaseLow starts
  | stop stops => exact forall_eq_least (preRelease_hyphenStop releaseHigh stops)
  | last => exact Descriptor.preRelease_floor releaseHigh

/-! ### Texts without pre-releases -/

def isReleaseTerm (dialect : Descriptor.Dialect) (term : Sigil × Word) : Bool :=
  term.1 != .greater && term.1 != .notEqual &&
    match Descriptor.ofChars dialect term.2 with
    | .ok descriptor => descriptor.preRelease.isNone
    | .error _ => true

/-- Whether no term of a text has the sigil `>` or `!=`, and no version in it has a pre-release. -/
def namesReleasesOnly (options : Options) (source : String) : Bool :=
  match alternatives source with
  | .ok alternatives => alternatives.all fun words =>
      (terms (glue [] words)).all (isReleaseTerm options.dialect)
  | .error _ => true

private theorem preRelease_of_isReleaseTerm {dialect : Descriptor.Dialect} {sigil : Sigil}
    {word : Word} (release : isReleaseTerm dialect (sigil, word) = true)
    (described : Descriptor.ofChars dialect word = .ok descriptor) :
    sigil ≠ .greater ∧ sigil ≠ .notEqual ∧ descriptor.preRelease = none := by
  simpa [isReleaseTerm, described, and_assoc] using release

private theorem TokensYield.avoidsPreReleases {tokens : List Word}
    (bare : options.includePreRelease = false)
    (releases : (terms tokens).all (isReleaseTerm options.dialect) = true)
    (yields : TokensYield options tokens operator point) : operator.AvoidsPreReleases point := by
  have release := List.all_eq_true.mp releases
  cases yields with
  | term member described yields =>
      obtain ⟨notGreater, notExcluding, release⟩ :=
        preRelease_of_isReleaseTerm (release _ member) described
      exact yields.avoidsPreReleases bare notGreater notExcluding release
  | hyphen memberLow memberHigh describedLow describedHigh yields =>
      obtain ⟨-, -, releaseLow⟩ := preRelease_of_isReleaseTerm (release _ memberLow) describedLow
      obtain ⟨-, -, releaseHigh⟩ := preRelease_of_isReleaseTerm (release _ memberHigh) describedHigh
      exact yields.avoidsPreReleases bare releaseLow releaseHigh

private theorem avoidsPreReleases_of_read {source : String} {branches : List Branch}
    (bare : options.includePreRelease = false) (releases : namesReleasesOnly options source = true)
    (found : read options source = .ok branches) :
    ∀ branch ∈ branches, ∀ comparator ∈ branch.conjunction, comparator.AvoidsPreReleases := by
  intro branch member
  obtain ⟨alternatives, cut, -⟩ := Outcome.bind_eq_ok_iff.mp found
  obtain ⟨words, among, made⟩ := isMadeOf_read cut found branch member
  rw [namesReleasesOnly, cut] at releases
  have release := List.all_eq_true.mp releases words among
  exact (made.mono fun _ _ yields => yields.avoidsPreReleases bare release).avoidsPreReleases

end Npm

/-- A text that names releases only admits no pre-release by default. -/
theorem Constraint.isSatisfiedBy_eq_false_of_namesReleasesOnly {loose : Bool} {source : String}
    {constraint : Constraint} (read : parse (.npm ⟨loose, false⟩) source = .ok constraint)
    (releases : Npm.namesReleasesOnly ⟨loose, false⟩ source = true) (version : Version)
    (preRelease : version.isPreRelease = true) : constraint.isSatisfiedBy version = false := by
  obtain ⟨readBranches, -, -, -⟩ := parse_npm_eq_ok_iff.mp read
  exact isSatisfiedBy_eq_false (Npm.avoidsPreReleases_of_read rfl releases readBranches) preRelease

theorem Constraint.isSatisfiedBy_eq_false_of_namesReleasesOnly_caret :
    ∃ constraint version, parse (.npm ⟨false, false⟩) "^1.2.3 <1.9 || 0.2 - 2" = .ok constraint ∧
      Npm.namesReleasesOnly ⟨false, false⟩ "^1.2.3 <1.9 || 0.2 - 2" = true ∧
      Version.parse "1.9.0-0" = .ok version ∧ version.isPreRelease = true ∧
      constraint.isSatisfiedBy version = false := by
  obtain ⟨constraint, read, -⟩ : ∃ constraint,
      parse (.npm ⟨false, false⟩) "^1.2.3 <1.9 || 0.2 - 2" = .ok constraint ∧
        constraint.branches = [_, _] := exists_parse rfl rfl ⟨_, rfl⟩
  have releases : Npm.namesReleasesOnly ⟨false, false⟩ "^1.2.3 <1.9 || 0.2 - 2" = true := rfl
  exact ⟨constraint, ⟨⟨⟨1, ⟨9, by decide⟩, 0⟩, some .least⟩, none⟩, read, releases, rfl, rfl,
    isSatisfiedBy_eq_false_of_namesReleasesOnly read releases _ rfl⟩

end Versioning
