import Versioning.Proofs.Conjunction.Overflow
import Versioning.Proofs.Constraint.BoundOrigins
import Versioning.Proofs.Npm.Meaning

/-!
Terms at the greatest component. A text of one term makes no constraint exactly if a number that has
to be raised is the greatest there is, whether the term itself has to raise it or only its ranges
do, or if a wildcard is excluded. The bounds of the constraints that are made are exact: none of
them is wrapped around or held back at the limit.
-/

namespace Versioning

open Range (Covers)

theorem Conjunction.exists_ranges_singleton_iff {relation : Relation} {point : Point}
    (single : relation = .equal ∨ relation = .notEqual) :
    (∃ ranges, Conjunction.ranges [⟨relation, point⟩] = .ok ranges) ↔
      ∃ next, point.next = .ok next := by
  rw [exists_ranges_iff, isSome_clash?_iff, Point.exists_next_iff]
  rcases single with rfl | rfl
  · simp [references]
  · simp [references, bounds, HoldsAt]

instance : Nontrivial Point := ⟨.least, Core.toPoint ⟨0, 0, 0⟩, by decide⟩

namespace Npm

variable {options : Options} {sigil : Sigil} {descriptor : Descriptor} {bound : Point}
  {conjunction : Conjunction}

/-! ### Ranges -/

/-- The comparators of a term have ranges exactly if its numbers fit. Where the term had to raise a
number itself, there would be no comparators otherwise. -/
theorem exists_ranges_iff_fits (means : Means options descriptor sigil conjunction) :
    (∃ ranges, Conjunction.ranges conjunction = .ok ranges) ↔ Fits sigil descriptor := by
  have bounding {comparators : Conjunction} (fits : Fits sigil descriptor)
      (each : ∀ comparator ∈ comparators,
        comparator.relation = .atLeast ∨ comparator.relation = .below) :
      (∃ ranges, Conjunction.ranges comparators = .ok ranges) ↔ Fits sigil descriptor :=
    iff_of_true (Conjunction.exists_ranges_of_bounds each) fits
  cases means with
  | any none _ => exact bounding (fits_of_wildcard none) (by simp)
  | nothing none _ => exact bounding (fits_of_wildcard none) (by simp)
  | range _ starts past => exact bounding past.fits (by simp)
  | below stops => exact bounding (fun _ raises => nomatch raises) (by simp)
  | upTo past => exact bounding past.fits (by simp)
  | above past => exact bounding past.fits (by simp)
  | onwards starts => exact bounding (fun _ raises => nomatch raises) (by simp)
  -- only a point that is singled out is stepped over by the ranges and not by the term
  | exactly complete =>
      rw [Conjunction.exists_ranges_singleton_iff (.inl rfl)]
      exact exists_next_floor_iff complete (by decide)
  | excluding numbered =>
      rw [Conjunction.exists_ranges_singleton_iff (.inr rfl)]
      by_cases complete : descriptor.precision = 3
      · exact exists_next_floor_iff complete (by decide)
      · refine iff_of_true ⟨_, Descriptor.next_floor_of_incomplete complete numbered⟩ ?_
        exact fits_of_incomplete complete

/-! ### Bounds -/

/-- Where the ranges of a term may start. -/
inductive IsStart (sigil : Sigil) (descriptor : Descriptor) : Point → Prop
  | floor (includes : sigil ∈ [.plain, .tilde, .caret, .atLeast]) :
      IsStart sigil descriptor descriptor.floor
  | lowered (includes : sigil ∈ [.plain, .tilde, .caret, .atLeast]) :
      IsStart sigil descriptor descriptor.floor.withLeastPreRelease
  | past {point : Point} (exceeds : sigil ∈ [.notEqual, .greater])
      (past : IsPast sigil descriptor point) : IsStart sigil descriptor point
  | afterExcluded (excludes : sigil = .notEqual) (incomplete : descriptor.precision ≠ 3) :
      IsStart sigil descriptor ⟨⟨descriptor.major, descriptor.minor, 1⟩, some .least⟩

/-- Where the ranges of a term may stop. Those that are empty stop at the least point. -/
inductive IsStop (sigil : Sigil) (descriptor : Descriptor) : Point → Prop
  | floor (excludes : sigil ∈ [.notEqual, .less]) : IsStop sigil descriptor descriptor.floor
  | lowered (excludes : sigil = .less) :
      IsStop sigil descriptor descriptor.floor.withLeastPreRelease
  | past {point : Point} (includes : sigil ∈ [.plain, .tilde, .caret, .atMost])
      (past : IsPast sigil descriptor point) : IsStop sigil descriptor point
  | nothing (none : descriptor.precision = 0) (exclusive : sigil ∈ [.notEqual, .less, .greater]) :
      IsStop sigil descriptor .least

private theorem isStart_of_mem {start : Point}
    (member : start ∈ [descriptor.floor, descriptor.floor.withLeastPreRelease])
    (includes : sigil ∈ [.plain, .tilde, .caret, .atLeast]) : IsStart sigil descriptor start := by
  rcases List.mem_pair.mp member with rfl | rfl
  · exact .floor includes
  · exact .lowered includes

theorem isStop_of_mem {stop : Point}
    (member : stop ∈ [descriptor.floor, descriptor.floor.withLeastPreRelease]) :
    IsStop .less descriptor stop := by
  rcases List.mem_pair.mp member with rfl | rfl
  · exact .floor (by decide)
  · exact .lowered rfl

theorem isStart_of_next_floor {next : Point} (numbered : descriptor.hasWildcard = false)
    (follows : descriptor.floor.next = .ok next) : IsStart .notEqual descriptor next := by
  by_cases complete : descriptor.precision = 3
  · exact .past (by decide) (isPast_of_next_floor complete (by decide) follows)
  · rw [Descriptor.next_floor_of_incomplete complete numbered] at follows
    cases follows
    exact .afterExcluded rfl complete

private theorem isStart_of_starts (means : Means options descriptor sigil conjunction)
    (starts : conjunction.Starts bound) : IsStart sigil descriptor bound := by
  obtain ⟨comparator, member, starts⟩ := starts
  cases means with
  | any none _ => cases member
  | nothing none _ =>
      cases List.mem_singleton.mp member
      cases starts
  | range ofRange begins past =>
      rcases List.mem_pair.mp member with rfl | rfl
      · cases starts
        have includes : [Sigil.plain, .tilde, .caret] ⊆ [.plain, .tilde, .caret, .atLeast] := by
          decide
        exact isStart_of_mem (mem_of_lowerBound begins) (includes ofRange)
      · cases starts
  | exactly complete =>
      cases List.mem_singleton.mp member
      cases starts
      exact .floor (by decide)
  | excluding numbered =>
      cases List.mem_singleton.mp member
      cases starts with
      | afterNotEqual follows => exact isStart_of_next_floor numbered follows
  | below stops =>
      cases List.mem_singleton.mp member
      cases starts
  | upTo past =>
      cases List.mem_singleton.mp member
      cases starts
  | above past =>
      cases List.mem_singleton.mp member
      cases starts
      exact .past (by decide) past
  | onwards begins =>
      cases List.mem_singleton.mp member
      cases starts
      exact isStart_of_mem begins (by decide)

private theorem isStop_of_stops (means : Means options descriptor sigil conjunction)
    (stops : conjunction.Stops bound) : IsStop sigil descriptor bound := by
  obtain ⟨comparator, member, stops⟩ := stops
  cases means with
  | any none _ => cases member
  | nothing none exclusive =>
      cases List.mem_singleton.mp member
      cases stops
      exact .nothing none exclusive
  | range ofRange begins past =>
      rcases List.mem_pair.mp member with rfl | rfl
      · cases stops
      · cases stops
        have includes : [Sigil.plain, .tilde, .caret] ⊆ [.plain, .tilde, .caret, .atMost] := by
          decide
        exact .past (includes ofRange) past
  | exactly complete =>
      cases List.mem_singleton.mp member
      cases stops with
      | afterEqual follows =>
          exact .past (by decide) (isPast_of_next_floor complete (by decide) follows)
  | excluding numbered =>
      cases List.mem_singleton.mp member
      cases stops
      exact .floor (by decide)
  | below ends =>
      cases List.mem_singleton.mp member
      cases stops
      exact isStop_of_mem ends
  | upTo past =>
      cases List.mem_singleton.mp member
      cases stops
      exact .past (by decide) past
  | above past =>
      cases List.mem_singleton.mp member
      cases stops
  | onwards begins =>
      cases List.mem_singleton.mp member
      cases stops

theorem exists_holdsAt_or_isStop_least (means : Means options descriptor sigil conjunction) :
    (∃ point, conjunction.HoldsAt point) ∨ IsStop sigil descriptor .least := by
  cases means with
  | any none _ => exact .inl ⟨.least, List.forall_mem_nil _⟩
  | nothing none exclusive => exact .inr (.nothing none exclusive)
  | @range _ start stop _ starts past =>
      refine .inl ⟨start, List.forall_mem_cons.mpr ⟨decide_eq_true le_rfl, ?_⟩⟩
      exact List.forall_mem_singleton.mpr (decide_eq_true (lt_of_lowerBound starts past))
  | exactly complete =>
      exact .inl ⟨descriptor.floor, List.forall_mem_singleton.mpr (beq_iff_eq.mpr rfl)⟩
  | excluding numbered =>
      obtain ⟨other, different⟩ := exists_ne descriptor.floor
      exact .inl ⟨other, List.forall_mem_singleton.mpr (bne_iff_ne.mpr different)⟩
  | @below stop stops =>
      by_cases least : stop = .least
      · exact .inr (least ▸ isStop_of_mem stops)
      · have above : Point.least < stop := lt_of_le_of_ne (Point.least_le stop) (Ne.symm least)
        exact .inl ⟨.least, List.forall_mem_singleton.mpr (decide_eq_true above)⟩
  | upTo past =>
      exact .inl ⟨descriptor.floor, List.forall_mem_singleton.mpr (decide_eq_true past.floor_lt)⟩
  | @above start past =>
      exact .inl ⟨start, List.forall_mem_singleton.mpr (decide_eq_true le_rfl)⟩
  | @onwards start starts =>
      exact .inl ⟨start, List.forall_mem_singleton.mpr (decide_eq_true le_rfl)⟩

end Npm

namespace Constraint

/-! ### Texts -/

variable {options : Npm.Options} {mark blanks text : String} {sigil : Npm.Sigil}
  {descriptor : Descriptor} {constraint : Constraint}

theorem read_term (isTerm : Npm.IsTermText options mark sigil blanks.toList text.toList descriptor)
    (source : String) (written : source = mark ++ blanks ++ text) : Npm.read options source =
      (Npm.term options source sigil descriptor).map fun branch => [branch] := by
  apply isTerm.read_eq
  rw [written, String.toList_append, String.toList_append, List.append_assoc]

theorem exists_branch_of_parse
    (isTerm : Npm.IsTermText options mark sigil blanks.toList text.toList descriptor)
    (parsed : parse (.npm options) (mark ++ blanks ++ text) = .ok constraint) :
    ∃ branch, Npm.term options (mark ++ blanks ++ text) sigil descriptor = .ok branch ∧
      constraint.branches = [branch] := by
  obtain ⟨read, -⟩ := parse_npm_eq_ok_iff.mp parsed
  rw [read_term isTerm _ rfl] at read
  obtain ⟨branch, found, only⟩ := Outcome.map_eq_ok_iff.mp read
  exact ⟨branch, found, only.symm⟩

private theorem exists_parse_of_term {branch : Branch}
    (isTerm : Npm.IsTermText options mark sigil blanks.toList text.toList descriptor)
    (found : Npm.term options (mark ++ blanks ++ text) sigil descriptor = .ok branch)
    (ranges : ∃ ranges, branch.conjunction.ranges = .ok ranges) :
    ∃ constraint, parse (.npm options) (mark ++ blanks ++ text) = .ok constraint := by
  have read : Npm.read options (mark ++ blanks ++ text) = .ok [branch] := by
    rw [read_term isTerm _ rfl, found]
    rfl
  have reading : Grammar.read (.npm options) (mark ++ blanks ++ text) = .ok ⟨[branch], none⟩ :=
    Outcome.bind_eq_ok_iff.mpr ⟨_, read, rfl⟩
  have some : [branch].all List.isEmpty = false := by
    simpa using (Npm.isMadeOf_term found).ne_nil
  obtain ⟨constraint, parsed, -⟩ := exists_parse reading some
    (exists_normalize_iff.mpr (List.forall_mem_singleton.mpr ranges))
  exact ⟨constraint, parsed⟩

private theorem exists_parse_term_iff
    (isTerm : Npm.IsTermText options mark sigil blanks.toList text.toList descriptor) :
    (∃ constraint, parse (.npm options) (mark ++ blanks ++ text) = .ok constraint) ↔
      ¬(sigil = .notEqual ∧ descriptor.precision ≠ 0 ∧ descriptor.hasWildcard = true) ∧
        Npm.Fits sigil descriptor := by
  constructor
  · intro made
    obtain ⟨constraint, parsed⟩ := made
    obtain ⟨branch, found, only⟩ := exists_branch_of_parse isTerm parsed
    have ranges := exists_normalize_iff.mp ⟨_, constraint.ranges_eq⟩
    rw [only] at ranges
    have alone := ranges branch.conjunction (List.mem_singleton_self _)
    refine ⟨fun excludes => ?_, (Npm.exists_ranges_iff_fits (Npm.means_of_term found)).mp alone⟩
    obtain ⟨rfl, wildcard⟩ := excludes
    exact Npm.exists_notEqual_iff.mp ⟨branch, found⟩ wildcard
  · intro ⟨exact, fits⟩
    obtain ⟨branch, found⟩ := Npm.exists_term fits exact
    exact exists_parse_of_term isTerm found
      ((Npm.exists_ranges_iff_fits (Npm.means_of_term found)).mpr fits)

private theorem isBounded_of_parse
    (isTerm : Npm.IsTermText options mark sigil blanks.toList text.toList descriptor)
    (parsed : parse (.npm options) (mark ++ blanks ++ text) = .ok constraint) :
    ∀ range ∈ constraint.ranges,
      (∀ start ∈ range.start, Npm.IsStart sigil descriptor start) ∧
        ∀ stop ∈ range.stop, Npm.IsStop sigil descriptor stop := by
  intro range member
  obtain ⟨branch, found, only⟩ := exists_branch_of_parse isTerm parsed
  have means := Npm.means_of_term found
  have normal := constraint.ranges_eq
  rw [only] at normal
  have listed : range ∈ constraint.ranges.toList := Array.mem_toList_iff.mpr member
  rcases isBoundedBy_normalize normal with alone | bounded
  · -- no point is held, so the least point has to be the stop of the term itself
    have least : Npm.IsStop sigil descriptor .least := by
      refine (Npm.exists_holdsAt_or_isStop_least means).resolve_left fun holds => ?_
      obtain ⟨point, held⟩ := holds
      have covered := (covers_normalize normal point).mpr ⟨_, List.mem_singleton_self _, held⟩
      rw [alone] at covered
      exact Range.not_covers_empty point covered
    rw [alone] at listed
    cases List.mem_singleton.mp listed
    constructor
    · intro start starts
      cases starts
    · intro stop stops
      cases stops
      exact least
  · constructor
    · intro start isStart
      obtain ⟨conjunction, written, starts⟩ := (bounded range listed).start_of start isStart
      cases List.mem_singleton.mp written
      exact Npm.isStart_of_starts means starts
    · intro stop isStop
      obtain ⟨conjunction, written, stops⟩ := (bounded range listed).stop_of stop isStop
      cases List.mem_singleton.mp written
      exact Npm.isStop_of_stops means stops

/-- A text of one term fails exactly if it excludes a version with a wildcard behind its numbers, or
if the number that the term has to raise is the greatest there is. Where it does not fail, each
bound of its ranges is the floor of the descriptor or follows upon what the descriptor names, with
exactly one more in a single number. -/
theorem parse_term_fails_iff (spelled : (mark, sigil) ∈ Npm.Sigil.spellings)
    (blank : Text.IsBlanks blanks.toList) (solid : ∀ c ∈ text.toList, Text.isBlank c = false)
    (apart : text.toList.head? ≠ some '=')
    (described : Descriptor.parse options.dialect text = .ok descriptor) :
    ((∃ error, parse (.npm options) (mark ++ blanks ++ text) = .error error) ↔
      sigil = .notEqual ∧ descriptor.precision ≠ 0 ∧ descriptor.hasWildcard = true ∨
        ∃ index, Npm.raised? sigil descriptor = some index ∧
          descriptor.numbers[index]? = some Component.limit) ∧
    ∀ constraint, parse (.npm options) (mark ++ blanks ++ text) = .ok constraint →
      ∀ range ∈ constraint.ranges,
        (∀ start ∈ range.start, Npm.IsStart sigil descriptor start) ∧
          ∀ stop ∈ range.stop, Npm.IsStop sigil descriptor stop := by
  have isTerm : Npm.IsTermText options mark sigil blanks.toList text.toList descriptor :=
    ⟨spelled, blank, solid, apart, described⟩
  refine ⟨?_, fun constraint parsed => isBounded_of_parse isTerm parsed⟩
  have overflows : ¬Npm.Fits sigil descriptor ↔
      ∃ index, Npm.raised? sigil descriptor = some index ∧
        descriptor.numbers[index]? = some Component.limit := by
    simp [Npm.Fits]
  rw [Outcome.exists_eq_error_iff, exists_parse_term_iff isTerm, not_and_or, not_not, overflows]

theorem parse_term_fails_iff_atMost :
    (∃ error, parse (.npm ⟨false, false⟩) ("<=" ++ " " ++ "1.18446744073709551615.x") =
      .error error) ∧
    ∃ descriptor constraint,
      Descriptor.parse .npm "1.18446744073709551614.x" = .ok descriptor ∧
      parse (.npm ⟨false, false⟩) ("<=" ++ " " ++ "1.18446744073709551614.x") = .ok constraint ∧
      ∀ range ∈ constraint.ranges,
        (∀ start ∈ range.start, Npm.IsStart .atMost descriptor start) ∧
          ∀ stop ∈ range.stop, Npm.IsStop .atMost descriptor stop := by
  have spelled : ("<=", .atMost) ∈ Npm.Sigil.spellings := by decide
  have blank : Text.IsBlanks " ".toList := List.all_eq_true.mp rfl
  have solid (text : String) (none : text.toList.any Text.isBlank = false) :
      ∀ c ∈ text.toList, Text.isBlank c = false :=
    fun c member => Bool.eq_false_iff.mpr (List.any_eq_false.mp none c member)
  let descriptor (minor : Component) : Descriptor :=
    .three (.number 1) (.number minor) (.wildcard .lowerX) none none
  let beforeLimit : Component := ⟨18446744073709551614, by decide⟩
  have describedAtLimit : Descriptor.parse (Npm.Options.dialect ⟨false, false⟩)
      "1.18446744073709551615.x" = .ok (descriptor ⟨Component.limit, le_rfl⟩) := rfl
  have described : Descriptor.parse (Npm.Options.dialect ⟨false, false⟩)
      "1.18446744073709551614.x" = .ok (descriptor beforeLimit) := rfl
  have greatest :=
    parse_term_fails_iff spelled blank (solid _ rfl) (by decide) describedAtLimit
  have lesser := parse_term_fails_iff spelled blank (solid _ rfl) (by decide) described
  refine ⟨greatest.1.mpr (.inr ⟨1, rfl, rfl⟩), ?_⟩
  obtain ⟨constraint, parsed⟩ : ∃ constraint,
      parse (.npm ⟨false, false⟩) ("<=" ++ " " ++ "1.18446744073709551614.x") =
        .ok constraint := by
    by_contra none
    rw [← Outcome.exists_eq_error_iff, lesser.1] at none
    rcases none with ⟨excludes, -⟩ | ⟨index, raises, same⟩
    · cases excludes
    · obtain rfl : 1 = index := Option.some.inj raises
      exact absurd (Option.some.inj same) (by decide)
  exact ⟨_, constraint, rfl, parsed, lesser.2 constraint parsed⟩

end Constraint

end Versioning
