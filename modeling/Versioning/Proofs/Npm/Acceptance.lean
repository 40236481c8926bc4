import Versioning.Proofs.Constraint.Parsing
import Versioning.Proofs.Constraint.Satisfaction
import Versioning.Proofs.Npm.SingleTerm
import Versioning.Proofs.Npm.Standing
import Versioning.Proofs.Npm.Term

/-!
What npm terms accept of releases. A term comes down to half-open bounds, most of them least
pre-releases. Of releases it accepts those whose components stand to the numbers of its descriptor
as its sigil says, and a text of one term makes a constraint of just these.
-/

namespace Versioning

namespace Npm

/-- What a term accepts of releases. -/
def Accepts (sigil : Sigil) (descriptor : Descriptor) (version : Version) : Prop :=
  match sigil with
  | .plain => descriptor.standing version = .eq
  | .less => descriptor.standing version = .lt
  | .atMost => (descriptor.standing version).isLE = true
  | .greater => descriptor.standing version = .gt
  | .atLeast => (descriptor.standing version).isGE = true
  | .tilde => descriptor.precision = 0 ∨ descriptor.floor ≤ version.toPoint ∧
      descriptor.numbers.take 2 <+: version.components
  | .caret => descriptor.precision = 0 ∨ descriptor.floor ≤ version.toPoint ∧
      descriptor.significant <+: version.components
  | .notEqual => descriptor.precision ≠ 0 ∧ version.toPoint ≠ descriptor.floor

variable {options : Options} {descriptor : Descriptor} {branch : Branch} {version : Version}
  {point : Point}

/-! ### Branches -/

theorem admits_single {condition : Condition} :
    (single condition).admits version = condition.comparator.admits version := by
  simp [single, Branch.admits, Predicate.admits, Predicate.comparators, Conjunction.admits]

theorem admits_any : Branch.admits [.any] version = true := rfl

theorem not_admits_nothing : (single .nothing).admits version = false := by
  rw [admits_single]
  exact decide_eq_false (not_lt.mpr (Point.least_le version.toPoint))

theorem admits_below_iff : (single (.below point)).admits version = true ↔
    version.toPoint < point := by
  rw [admits_single]
  exact decide_eq_true_iff

theorem admits_atLeast_iff : (single (.atLeast point)).admits version = true ↔
    point ≤ version.toPoint := by
  rw [admits_single]
  exact decide_eq_true_iff

theorem admits_exactly_iff : (single (.exactly point)).admits version = true ↔
    version.toPoint = point := by
  rw [admits_single]
  exact beq_iff_eq

private theorem admits_excluding_iff : (single (.excluding point)).admits version = true ↔
    version.toPoint ≠ point := by
  rw [admits_single]
  exact bne_iff_ne

theorem admits_comparison_iff {operator : Operator}
    (found : comparison operator point = .ok branch) :
    branch.admits version = true ↔ operator.allows (compare version.toPoint point) = true := by
  obtain ⟨condition, rfl, rfl, same⟩ := comparison_eq_ok found
  have compared : compare version.toPoint point = compare version condition.version := by
    rw [same]
    rfl
  rw [single, Branch.admits, List.all_cons, List.all_nil, Bool.and_true, compared]
  exact condition.admits_iff

theorem admits_atMost_iff (found : comparison .atMost point = .ok branch) :
    branch.admits version = true ↔ version.toPoint ≤ point :=
  admits_comparison_iff found

private theorem admits_greater_iff (found : comparison .greater point = .ok branch) :
    branch.admits version = true ↔ point < version.toPoint := by
  rw [admits_comparison_iff found, Operator.allows, Ordering.isGT_iff_eq_gt, compare_gt_iff_gt]

theorem admits_bounded_iff {start stop : Option Point} (found : bounded start stop = .ok branch) :
    branch.admits version = true ↔
      (∀ point ∈ start, point ≤ version.toPoint) ∧ ∀ point ∈ stop, version.toPoint < point := by
  obtain ⟨range, between, found⟩ := Outcome.bind_eq_ok_iff.mp found
  obtain ⟨startEq, stopEq⟩ := Range.bounds_of_between between
  rw [startEq, stopEq] at found
  -- where there is no bound at all, the branch is the one condition that all versions meet
  have conditions : branch.admits version = true ↔
      ∀ condition ∈ start.toList.map Condition.atLeast ++ stop.toList.map Condition.below,
        (single condition).admits version = true := by
    split at found
    · next none =>
      cases Outcome.pure_eq_ok_iff.mp found
      rw [none]
      exact iff_of_true rfl (List.forall_mem_nil _)
    · cases Outcome.pure_eq_ok_iff.mp found
      simp only [Branch.admits, single, List.all_map, List.all_eq_true, List.all_cons, List.all_nil,
        Bool.and_true, Function.comp_apply]
  rw [conditions]
  simp only [List.forall_mem_append, List.forall_mem_map, Option.mem_toList, admits_atLeast_iff,
    admits_below_iff]
  exact Iff.rfl

theorem eq_of_bounded {start : Option Point} {stop : Point}
    (found : bounded start (some stop) = .ok branch) :
    branch = (start.toList.map fun point => .condition (.atLeast point)) ++
      [.condition (.below stop)] := by
  obtain ⟨range, between, found⟩ := Outcome.bind_eq_ok_iff.mp found
  obtain ⟨starts, stops⟩ := Range.bounds_of_between between
  rw [starts, stops] at found
  cases start <;> exact (Outcome.pure_eq_ok_iff.mp found).symm

theorem admits_hyphen_iff_of_isComplete {low high : Descriptor} (complete : high.isComplete = true)
    (found : hyphen options low high = .ok branch) : branch.admits version = true ↔
      (∀ start ∈ lowerBound options low, start ≤ version.toPoint) ∧
        version.toPoint ≤ high.floor := by
  have stops : hyphenStop high = high.floor.next.map some := by
    rw [hyphenStop, beq_iff_eq.mp complete]
    rfl
  obtain ⟨stop, isStop, found⟩ := Outcome.bind_eq_ok_iff.mp found
  rw [stops, Outcome.mapError_eq_ok_iff, Outcome.map_eq_ok_iff] at isStop
  obtain ⟨next, -, rfl⟩ := isStop
  obtain ⟨whole, limits, found⟩ := Outcome.bind_eq_ok_iff.mp found
  rw [if_pos complete] at found
  obtain ⟨last, compared, found⟩ := Outcome.bind_eq_ok_iff.mp found
  cases Outcome.pure_eq_ok_iff.mp found
  rw [eq_of_bounded limits, List.dropLast_concat, Branch.admits, List.all_append, Bool.and_eq_true]
  refine and_congr ?_ (admits_atMost_iff compared)
  have each (point : Point) : (Predicate.condition (.atLeast point)).admits version = true ↔
      point ≤ version.toPoint := by
    rw [← admits_atLeast_iff, single, Branch.admits, List.all_cons, List.all_nil, Bool.and_true]
  simp only [List.all_map, List.all_eq_true, Option.mem_toList, Function.comp_apply, each]
  exact Iff.rfl

theorem lowerBound_le_iff (numbered : descriptor.precision ≠ 0)
    (release : version.preRelease = none) :
    (∀ start ∈ lowerBound options descriptor, start ≤ version.toPoint) ↔
      descriptor.floor ≤ version.toPoint := by
  have lowered : descriptor.floor.withLeastPreRelease ≤ version.toPoint ↔
      descriptor.floor ≤ version.toPoint := by
    rw [← not_lt, ← not_lt, Point.lt_iff_of_release release, Point.lt_iff_of_release release]
    rfl
  rw [lowerBound, if_neg numbered]
  split
  · simpa using lowered
  · simp

theorem exists_stop_of_line (numbered : descriptor.precision ≠ 0)
    (release : version.preRelease = none)
    (found : (nextLine descriptor >>= fun stop =>
      bounded (lowerBound options descriptor) (some stop)) = .ok branch) :
    ∃ stop, nextLine descriptor = .ok stop ∧
      (branch.admits version = true ↔
        descriptor.floor ≤ version.toPoint ∧ version.toPoint < stop) := by
  obtain ⟨stop, next, found⟩ := Outcome.bind_eq_ok_iff.mp found
  refine ⟨stop, next, ?_⟩
  rw [admits_bounded_iff found, lowerBound_le_iff numbered release]
  simp

/-! ### Terms -/

private theorem admits_plain_iff (lead : descriptor.NumbersLead)
    (release : version.preRelease = none) (found : plain options descriptor = .ok branch) :
    branch.admits version = true ↔ Accepts .plain descriptor version := by
  -- within a line is from the floor on and below the stop: neither less nor greater
  have ofLine (line : descriptor.precision = 1 ∨ descriptor.precision = 2)
      (found : (nextLine descriptor >>= fun stop =>
        bounded (lowerBound options descriptor) (some stop)) = .ok branch) :
      branch.admits version = true ↔ Accepts .plain descriptor version := by
    have numbered : descriptor.precision ≠ 0 := by omega
    obtain ⟨stop, next, admits⟩ := exists_stop_of_line numbered release found
    rw [admits, ← not_lt, ← Descriptor.standing_eq_lt_iff lead numbered release,
      ← Descriptor.standing_isLE_iff lead line next release, Accepts]
    cases descriptor.standing version <;> simp
  unfold plain at found
  split at found
  · next none =>
    cases Outcome.pure_eq_ok_iff.mp found
    exact iff_of_true admits_any (Descriptor.standing_of_precision_eq_zero none)
  · next one => exact ofLine (.inl one) found
  · next two => exact ofLine (.inr two) found
  · next numbered notOne notTwo =>
    cases Outcome.pure_eq_ok_iff.mp found
    have complete : descriptor.precision = 3 := by
      by_contra incomplete
      exact (Descriptor.precision_of_incomplete numbered incomplete).elim notOne notTwo
    rw [admits_exactly_iff, Accepts, Descriptor.standing_of_precision_eq_three complete,
      compare_eq_iff_eq]

private theorem admits_less_iff (lead : descriptor.NumbersLead)
    (release : version.preRelease = none) :
    (less descriptor).admits version = true ↔ Accepts .less descriptor version := by
  unfold less
  split
  · next none =>
    rw [not_admits_nothing, Accepts, Descriptor.standing_of_precision_eq_zero none]
    decide
  · next complete =>
    rw [admits_below_iff, Accepts, Descriptor.standing_eq_lt_iff lead (by omega) release]
  · next numbered _ =>
    rw [admits_below_iff, Accepts, Descriptor.standing_eq_lt_iff lead numbered release,
      Point.lt_iff_of_release release, Point.lt_iff_of_release release]
    exact Iff.rfl

private theorem admits_atMost_term_iff (lead : descriptor.NumbersLead)
    (release : version.preRelease = none) (found : atMost descriptor = .ok branch) :
    branch.admits version = true ↔ Accepts .atMost descriptor version := by
  rw [atMost_eq_drawnBehind] at found
  rcases drawnBehind_cases found with
    ⟨none, same⟩ | ⟨complete, found⟩ | ⟨numbered, incomplete, stop, next, same⟩
  · subst same
    rw [Accepts, Descriptor.standing_of_precision_eq_zero none]
    exact iff_of_true admits_any rfl
  · rw [admits_atMost_iff found, Accepts, Descriptor.standing_of_precision_eq_three complete]
    exact Iff.rfl
  · subst same
    have line := Descriptor.precision_of_incomplete numbered incomplete
    rw [admits_below_iff, Accepts, Descriptor.standing_isLE_iff lead line next release]

private theorem admits_greater_term_iff (lead : descriptor.NumbersLead)
    (release : version.preRelease = none) (found : greater descriptor = .ok branch) :
    branch.admits version = true ↔ Accepts .greater descriptor version := by
  rw [greater_eq_drawnBehind] at found
  rcases drawnBehind_cases found with
    ⟨none, same⟩ | ⟨complete, found⟩ | ⟨numbered, incomplete, stop, next, same⟩
  · subst same
    rw [not_admits_nothing, Accepts, Descriptor.standing_of_precision_eq_zero none]
    decide
  · rw [admits_greater_iff found, Accepts, Descriptor.standing_of_precision_eq_three complete,
      compare_gt_iff_gt]
  · subst same
    have line := Descriptor.precision_of_incomplete numbered incomplete
    rw [admits_atLeast_iff, ← not_lt, ← Descriptor.standing_isLE_iff lead line next release,
      Accepts]
    cases descriptor.standing version <;> simp

private theorem admits_atLeast_term_iff (lead : descriptor.NumbersLead)
    (release : version.preRelease = none) (found : atLeast options descriptor = .ok branch) :
    branch.admits version = true ↔ Accepts .atLeast descriptor version := by
  have ofFloor (numbered : descriptor.precision ≠ 0) : descriptor.floor ≤ version.toPoint ↔
      Accepts .atLeast descriptor version := by
    rw [← not_lt, ← Descriptor.standing_eq_lt_iff lead numbered release, Accepts]
    cases descriptor.standing version <;> simp
  unfold atLeast at found
  split at found
  · next none =>
    cases found
    rw [Accepts, Descriptor.standing_of_precision_eq_zero none]
    exact iff_of_true admits_any rfl
  · next complete =>
    cases found
    rw [admits_atLeast_iff, ofFloor (by omega)]
  · next numbered incomplete =>
    rw [admits_bounded_iff found, lowerBound_le_iff numbered release, ← ofFloor numbered]
    simp

private theorem admits_notEqual_iff {source : String}
    (found : notEqual source descriptor = .ok branch) :
    branch.admits version = true ↔ Accepts .notEqual descriptor version := by
  unfold notEqual at found
  split at found
  · next none =>
    cases found
    rw [not_admits_nothing]
    exact iff_of_false Bool.false_ne_true fun accepts => accepts.1 none
  · next numbered =>
    split at found
    · cases found
    · cases found
      rw [admits_excluding_iff]
      exact (and_iff_right numbered).symm

private theorem admits_tilde_iff (lead : descriptor.NumbersLead)
    (release : version.preRelease = none) (found : tilde options descriptor = .ok branch) :
    branch.admits version = true ↔ Accepts .tilde descriptor version := by
  unfold tilde at found
  split at found
  · next none =>
    cases Outcome.pure_eq_ok_iff.mp found
    exact iff_of_true admits_any (.inl none)
  · next numbered =>
    obtain ⟨stop, next, admits⟩ := exists_stop_of_line numbered release found
    rw [admits, Accepts, or_iff_right numbered]
    exact and_congr_right fun above =>
      Descriptor.lt_nextLine_iff_prefix lead numbered next release above

private theorem admits_caret_iff (lead : descriptor.NumbersLead)
    (release : version.preRelease = none) (found : caret options descriptor = .ok branch) :
    branch.admits version = true ↔ Accepts .caret descriptor version := by
  unfold caret at found
  split at found
  · next none =>
    cases Outcome.pure_eq_ok_iff.mp found
    exact iff_of_true admits_any (.inl none)
  · next numbered =>
    obtain ⟨stop, stops, found⟩ := Outcome.bind_eq_ok_iff.mp found
    rw [admits_bounded_iff found, lowerBound_le_iff numbered release, Accepts,
      or_iff_right numbered]
    refine and_congr_right fun above => ?_
    have stops := Outcome.mapError_eq_ok_iff.mp stops
    rw [← Descriptor.lt_caretStop_iff_prefix lead numbered stops release above]
    simp

private theorem admits_term_iff {source : String} {sigil : Sigil} (lead : descriptor.NumbersLead)
    (release : version.preRelease = none)
    (found : term options source sigil descriptor = .ok branch) :
    branch.admits version = true ↔ Accepts sigil descriptor version := by
  cases sigil with
  | plain => exact admits_plain_iff lead release found
  | tilde => exact admits_tilde_iff lead release found
  | caret => exact admits_caret_iff lead release found
  | notEqual => exact admits_notEqual_iff found
  | less =>
      cases found
      exact admits_less_iff lead release
  | atMost => exact admits_atMost_term_iff lead release found
  | greater => exact admits_greater_term_iff lead release found
  | atLeast => exact admits_atLeast_term_iff lead release found

end Npm

namespace Constraint

/-- A release is admitted as soon as some branch has all of its predicates admit it. -/
theorem admits_iff_of_release {constraint : Constraint} {includePreRelease : Bool}
    {version : Version} (release : version.isPreRelease = false) :
    constraint.admits includePreRelease version = true ↔
      ∃ branch ∈ constraint.branches, branch.admits version = true := by
  simp only [Branch.admits, List.all_eq_true]
  rw [← covers_iff, admits_iff_covers_of_release release]

/-- Whenever a sigil and a descriptor make a constraint, it admits the releases that the sigil
accepts for the descriptor. -/
theorem admits_iff_accepts {options : Npm.Options} {mark blanks text : String}
    {sigil : Npm.Sigil} {descriptor : Descriptor} {constraint : Constraint}
    (spelled : (mark, sigil) ∈ Npm.Sigil.spellings) (blank : Text.IsBlanks blanks.toList)
    (solid : ∀ c ∈ text.toList, Text.isBlank c = false) (apart : text.toList.head? ≠ some '=')
    (described : Descriptor.parse options.dialect text = .ok descriptor)
    (lead : descriptor.NumbersLead)
    (parsed : parse (.npm options) (mark ++ blanks ++ text) = .ok constraint)
    (includePreRelease : Bool) (version : Version) (release : version.isPreRelease = false) :
    constraint.admits includePreRelease version = true ↔
      Npm.Accepts sigil descriptor version := by
  have isTerm : Npm.IsTermText options mark sigil blanks.toList text.toList descriptor :=
    ⟨spelled, blank, solid, apart, described⟩
  have written : (mark ++ blanks ++ text).toList =
      mark.toList ++ (blanks.toList ++ text.toList) := by
    rw [String.toList_append, String.toList_append, List.append_assoc]
  obtain ⟨readBranches, -⟩ := parse_npm_eq_ok_iff.mp parsed
  rw [isTerm.read_eq written] at readBranches
  obtain ⟨branch, found, only⟩ := Outcome.map_eq_ok_iff.mp readBranches
  have bare : version.preRelease = none :=
    Option.isNone_iff_eq_none.mp (Option.isSome_eq_false_iff.mp release)
  rw [admits_iff_of_release release, ← only, ← Npm.admits_term_iff lead bare found]
  simp

theorem admits_iff_accepts_caret :
    ∃ constraint version, parse (.npm ⟨false, false⟩) ("^" ++ " " ++ "0.2.3") = .ok constraint ∧
      Version.parse "0.2.9" = .ok version ∧ constraint.isSatisfiedBy version = true := by
  obtain ⟨constraint, parsed, -⟩ : ∃ constraint,
      parse (.npm ⟨false, false⟩) ("^" ++ " " ++ "0.2.3") = .ok constraint ∧
        constraint.branches = [_] := exists_parse rfl rfl ⟨_, rfl⟩
  let descriptor : Descriptor :=
    .three (.number 0) (.number ⟨2, by decide⟩) (.number ⟨3, by decide⟩) none none
  let version : Version := .release 0 ⟨2, by decide⟩ ⟨9, by decide⟩
  have described : Descriptor.parse (Npm.Options.dialect ⟨false, false⟩) "0.2.3" =
      .ok descriptor := rfl
  have spelled : ("^", .caret) ∈ Npm.Sigil.spellings := by decide
  have blank : Text.IsBlanks " ".toList := List.all_eq_true.mp rfl
  have solid : ∀ c ∈ "0.2.3".toList, Text.isBlank c = false :=
    fun c member => Bool.eq_false_iff.mpr (List.any_eq_false.mp rfl c member)
  have accepts : Npm.Accepts .caret descriptor version := .inr ⟨by decide, by decide⟩
  exact ⟨constraint, version, parsed, rfl,
    (admits_iff_accepts spelled blank solid (by decide) described
      (List.forall_mem_nil _) parsed false version rfl).mpr accepts⟩

end Constraint

end Versioning
