import Versioning.Proofs.Conjunction.Interval
import Versioning.Proofs.Constraint.Equality
import Versioning.Proofs.Npm.Acceptance
import Versioning.Proofs.Npm.Layout

/-!
Hyphen ranges. A range between two descriptors is the interval from where `>=` begins at the lower
end to where `<=` stops at the upper one, and it is refused where this interval is empty. So the two
ends may as well be written as a pair of terms, which is not refused but makes the empty constraint.
-/

namespace Versioning

namespace Npm

variable {options : Options} {loose : Bool} {low high : Descriptor} {branch : Branch}
  {start stop : Option Point}

/-! ### Intervals -/

theorem conjunction_of_bounded (found : bounded start stop = .ok branch) :
    branch.conjunction = .interval start stop := by
  obtain ⟨range, between, found⟩ := Outcome.bind_eq_ok_iff.mp found
  obtain ⟨startEq, stopEq⟩ := Range.bounds_of_between between
  rw [startEq, stopEq] at found
  cases start <;> cases stop <;> cases Outcome.pure_eq_ok_iff.mp found <;> rfl

theorem exists_bounded_iff : (∃ branch, bounded start stop = .ok branch) ↔
    ∀ first ∈ start, ∀ last ∈ stop, first < last := by
  constructor
  · rintro ⟨branch, found⟩
    obtain ⟨range, between, -⟩ := Outcome.bind_eq_ok_iff.mp found
    obtain ⟨rfl, rfl⟩ := Range.bounds_of_between between
    exact range.start_lt_stop
  · intro ordered
    have between : Range.between (start.map Point.toVersion) (stop.map Point.toVersion) =
        .ok ⟨start, stop, ordered⟩ :=
      Range.between_eq_ok_iff.mpr (by cases start <;> cases stop <;> exact ⟨rfl, rfl⟩)
    unfold bounded
    rw [between]
    cases start <;> cases stop <;> exact ⟨_, rfl⟩

theorem conjunction_comparison_atMost {point : Point}
    (found : comparison .atMost point = .ok branch) :
    ∃ next, point.next = .ok next ∧ branch.conjunction = .interval none (some next) := by
  obtain ⟨comparator, made, conjunction⟩ := conjunction_of_comparison found
  obtain ⟨next, following, rfl⟩ := Outcome.map_eq_ok_iff.mp made
  exact ⟨next, following, conjunction⟩

/-! ### Ends -/

theorem hyphenStop_of_isComplete (complete : high.isComplete = true) :
    hyphenStop high = high.floor.next.map some := by
  rw [hyphenStop, beq_iff_eq.mp complete]
  rfl

theorem hyphenStop_of_line (line : high.precision = 1 ∨ high.precision = 2) :
    hyphenStop high = .ok stop ↔ ∃ point, nextLine high = .ok point ∧ some point = stop := by
  unfold hyphenStop nextLine
  rcases line with one | two
  · simp only [one, if_true, Outcome.mapError_eq_ok_iff, Outcome.map_eq_ok_iff]
  · have notOne : ¬2 = 1 := by decide
    simp only [two, if_neg notOne, Outcome.mapError_eq_ok_iff, Outcome.map_eq_ok_iff]

/-- A hyphen range is the interval between its ends. -/
theorem conjunction_of_hyphen (found : hyphen options low high = .ok branch) :
    ∃ stop, hyphenStop high = .ok stop ∧
      (∀ first ∈ lowerBound options low, ∀ last ∈ stop, first < last) ∧
      branch.conjunction = .interval (lowerBound options low) stop := by
  obtain ⟨stop, stops, limited⟩ := Outcome.bind_eq_ok_iff.mp found
  obtain ⟨whole, limits, replaced⟩ := Outcome.bind_eq_ok_iff.mp limited
  rw [Outcome.mapError_eq_ok_iff] at stops
  refine ⟨stop, stops, exists_bounded_iff.mp ⟨whole, limits⟩, ?_⟩
  clear found limited
  split at replaced
  · next complete =>
    -- the condition below the next point gives way to one up to the point itself
    rw [hyphenStop_of_isComplete complete] at stops
    obtain ⟨next, following, rfl⟩ := Outcome.map_eq_ok_iff.mp stops
    obtain ⟨last, compared, same⟩ := Outcome.bind_eq_ok_iff.mp replaced
    obtain ⟨other, again, conjunction⟩ := conjunction_comparison_atMost compared
    cases following.symm.trans again
    cases Outcome.pure_eq_ok_iff.mp same
    rw [eq_of_bounded limits, List.dropLast_concat, Branch.conjunction, List.flatMap_append]
    change _ ++ last.conjunction = _
    rw [conjunction]
    cases lowerBound options low <;> rfl
  · cases Outcome.pure_eq_ok_iff.mp replaced
    exact conjunction_of_bounded limits

theorem exists_hyphen (stops : hyphenStop high = .ok stop)
    (ordered : ∀ first ∈ lowerBound options low, ∀ last ∈ stop, first < last) :
    ∃ branch, hyphen options low high = .ok branch := by
  obtain ⟨whole, limits⟩ := exists_bounded_iff.mpr ordered
  unfold hyphen
  rw [stops]
  dsimp only [Except.mapError, bind, Except.bind]
  rw [limits]
  dsimp only
  split
  · next complete =>
    rw [hyphenStop_of_isComplete complete] at stops
    obtain ⟨next, following, -⟩ := Outcome.map_eq_ok_iff.mp stops
    obtain ⟨last, compared⟩ := exists_comparison .atMost following
    rw [compared]
    exact ⟨_, rfl⟩
  · exact ⟨_, rfl⟩

private theorem least_lt_of_nextLine {point : Point} (next : nextLine high = .ok point) :
    Point.least < point := by
  have next := Outcome.mapError_eq_ok_iff.mp next
  apply lt_of_le_of_ne (Point.least_le point)
  rintro rfl
  split at next
  · obtain ⟨major, following, same⟩ := Outcome.bind_eq_ok_iff.mp next
    have bumped := Component.value_of_next following
    have zero : major.value = 0 := congrArg (·.major.value) (Outcome.pure_eq_ok_iff.mp same)
    omega
  · obtain ⟨minor, following, same⟩ := Outcome.bind_eq_ok_iff.mp next
    have bumped := Component.value_of_next following
    have zero : minor.value = 0 := congrArg (·.minor.value) (Outcome.pure_eq_ok_iff.mp same)
    omega

theorem least_lt_of_hyphenStop (stops : hyphenStop high = .ok stop) :
    ∀ last ∈ stop, Point.least < last := by
  by_cases none : high.precision = 0
  · rw [hyphenStop, none] at stops
    cases stops
    simp
  by_cases complete : high.precision = 3
  · rw [hyphenStop_of_isComplete (beq_iff_eq.mpr complete)] at stops
    obtain ⟨next, following, rfl⟩ := Outcome.map_eq_ok_iff.mp stops
    rintro _ ⟨⟩
    exact (Point.lt_next_iff following).mpr (Point.least_le _)
  · have line := Descriptor.precision_of_incomplete none complete
    obtain ⟨point, next, rfl⟩ := (hyphenStop_of_line line).mp stops
    rintro _ ⟨⟩
    exact least_lt_of_nextLine next

theorem conjunction_of_atLeast (alike : options.includePreRelease = false ∨ low.precision ≠ 3)
    (found : atLeast options low = .ok branch) :
    branch.conjunction = .interval (lowerBound options low) none := by
  unfold atLeast at found
  split at found
  · next none =>
    cases found
    rw [lowerBound, if_pos none]
    rfl
  · next complete =>
    cases found
    have excluding := alike.resolve_right fun incomplete => incomplete complete
    rw [lowerBound, if_neg (by omega), if_neg (Bool.eq_false_iff.mp excluding)]
    rfl
  · exact conjunction_of_bounded found

theorem exists_atLeast (options : Options) (low : Descriptor) :
    ∃ branch, atLeast options low = .ok branch := by
  unfold atLeast
  split
  · exact ⟨_, rfl⟩
  · exact ⟨_, rfl⟩
  · exact exists_bounded_iff.mpr (by simp)

theorem conjunction_of_atMost (found : atMost high = .ok branch) :
    ∃ stop, hyphenStop high = .ok stop ∧ branch.conjunction = .interval none stop := by
  rw [atMost_eq_drawnBehind] at found
  rcases drawnBehind_cases found with
    ⟨none, same⟩ | ⟨complete, found⟩ | ⟨numbered, incomplete, stop, next, same⟩
  · subst same
    have stops : hyphenStop high = .ok Option.none := by
      rw [hyphenStop, none]
      rfl
    exact ⟨Option.none, stops, rfl⟩
  · obtain ⟨next, following, conjunction⟩ := conjunction_comparison_atMost found
    refine ⟨some next, ?_, conjunction⟩
    rw [hyphenStop_of_isComplete (beq_iff_eq.mpr complete), following]
    rfl
  · subst same
    have line := Descriptor.precision_of_incomplete numbered incomplete
    exact ⟨some stop, (hyphenStop_of_line line).mpr ⟨stop, next, rfl⟩, rfl⟩

theorem exists_atMost (stops : hyphenStop high = .ok stop) :
    ∃ branch, atMost high = .ok branch := by
  unfold atMost
  split
  · exact ⟨_, rfl⟩
  · next complete =>
    rw [hyphenStop_of_isComplete (beq_iff_eq.mpr complete)] at stops
    obtain ⟨next, following, -⟩ := Outcome.map_eq_ok_iff.mp stops
    exact exists_comparison .atMost following
  · next numbered incomplete =>
    have line := Descriptor.precision_of_incomplete numbered incomplete
    obtain ⟨point, next, -⟩ := (hyphenStop_of_line line).mp stops
    exact ⟨_, Outcome.bind_eq_ok_iff.mpr ⟨point, next, rfl⟩⟩

theorem conjunction_of_pair {lower upper : Branch}
    (foundLower : atLeast ⟨loose, false⟩ low = .ok lower) (foundUpper : atMost high = .ok upper) :
    ∃ stop, hyphenStop high = .ok stop ∧
      Branch.conjunction (lower ++ upper) = .interval (lowerBound ⟨loose, false⟩ low) stop := by
  obtain ⟨stop, stops, stopsThere⟩ := conjunction_of_atMost foundUpper
  have startsThere := conjunction_of_atLeast (.inl rfl) foundLower
  refine ⟨stop, stops, ?_⟩
  rw [Branch.conjunction, List.flatMap_append, ← Branch.conjunction, ← Branch.conjunction,
    startsThere, stopsThere]
  simp [Conjunction.interval]

/-! ### Texts -/

variable {branches : List Branch}

def DescriptorWord.text (word : DescriptorWord) : String := String.ofList word.chars

def DescriptorWord.ofText (text : String) (solid : text.toList.any Text.isBlank = false)
    (accepted : ∃ options descriptor,
      Descriptor.parse (Options.dialect options) text = .ok descriptor) : DescriptorWord :=
  ⟨text.toList, fun c member => Bool.eq_false_iff.mpr (List.any_eq_false.mp solid c member),
    accepted⟩

theorem read_hyphen_eq_ok_iff {low high : DescriptorWord} :
    read options (low.text ++ " - " ++ high.text) = .ok branches ↔
      ∃ first last branch, Descriptor.ofChars options.dialect low.chars = .ok first ∧
        Descriptor.ofChars options.dialect high.chars = .ok last ∧
        hyphen options first last = .ok branch ∧ branches = [branch] := by
  have blank : Text.IsBlanks [' '] := List.all_eq_true.mp rfl
  have written : Clause.AreWrittenAs [.between low high]
      (low.text ++ " - " ++ high.text).toList := by
    have same : (low.text ++ " - " ++ high.text).toList =
        low.chars ++ ([' '] ++ '-' :: ([' '] ++ high.chars)) := by
      simp [DescriptorWord.text]
    rw [same]
    exact .one (.between (.refl _) blank (List.cons_ne_nil _ _) blank (List.cons_ne_nil _ _))
  rw [written.read_eq_ok_iff_of_singleton]
  simp only [Clause.readBranch_between_eq_ok_iff]
  constructor
  · rintro ⟨branch, only, first, last, describedFirst, describedLast, found⟩
    exact ⟨first, last, branch, describedFirst, describedLast, found, only⟩
  · rintro ⟨first, last, branch, describedFirst, describedLast, found, only⟩
    exact ⟨branch, only, first, last, describedFirst, describedLast, found⟩

theorem glue_words_pair (low high : DescriptorWord) :
    glue [] (Text.words (">=" ++ low.text ++ " <=" ++ high.text).toList) =
      ['>' :: '=' :: low.chars, '<' :: '=' :: high.chars] := by
  have solid {mark : String} {sigil : Sigil} (spelled : (mark, sigil) ∈ Sigil.spellings)
      (word : DescriptorWord) :
      Text.words (mark.toList ++ word.chars) = [mark.toList ++ word.chars] :=
    Text.words_eq_singleton (List.append_ne_nil_of_right_ne_nil _ word.ne_nil)
      (List.forall_mem_append.mpr
        ⟨fun c member => (Sigil.solid_of_mem_spelling spelled c member).1, word.solid⟩)
  have atLeast : (">=", .atLeast) ∈ Sigil.spellings := by decide
  have atMost : ("<=", .atMost) ∈ Sigil.spellings := by decide
  have same : (">=" ++ low.text ++ " <=" ++ high.text).toList =
      ">=".toList ++ low.chars ++ ([' '] ++ ("<=".toList ++ high.chars)) := by
    simp [DescriptorWord.text]
  rw [same, Text.words_append_gap _ _ (List.cons_ne_nil _ _) (List.all_eq_true.mp rfl),
    solid atLeast, solid atMost]
  refine glue_eq (List.forall_mem_cons.mpr ⟨low.standsAlone_append _, ?_⟩)
  exact List.forall_mem_singleton.mpr (high.standsAlone_append _)

private theorem readTokens_pair_eq_ok_iff {source : String} {low high : Word} :
    readTokens options source ['>' :: '=' :: low, '<' :: '=' :: high] = .ok branch ↔
      ∃ first last lower upper, Descriptor.ofChars options.dialect low = .ok first ∧
        Descriptor.ofChars options.dialect high = .ok last ∧
        atLeast options first = .ok lower ∧ atMost last = .ok upper ∧
        branch = lower ++ upper := by
  change ([_, _].mapM (readTerm options source)).map List.flatten = .ok branch ↔ _
  rw [Outcome.map_eq_ok_iff]
  simp only [Outcome.mapM_eq_ok_iff, List.forall₂_cons_left_iff, List.forall₂_nil_left_iff,
    readTerm_eq_ok_iff]
  constructor
  · rintro ⟨_, ⟨lower, _, ⟨first, describedFirst, foundLower⟩, ⟨upper, _,
      ⟨last, describedLast, foundUpper⟩, rfl, rfl⟩, rfl⟩, rfl⟩
    exact ⟨first, last, lower, upper, describedFirst, describedLast, foundLower, foundUpper,
      by simp⟩
  · rintro ⟨first, last, lower, upper, describedFirst, describedLast, foundLower, foundUpper, rfl⟩
    exact ⟨[lower, upper], ⟨lower, [upper], ⟨first, describedFirst, foundLower⟩,
      ⟨upper, [], ⟨last, describedLast, foundUpper⟩, rfl, rfl⟩, rfl⟩, by simp⟩

theorem read_pair_eq_ok_iff {low high : DescriptorWord} :
    read options (">=" ++ low.text ++ " <=" ++ high.text) = .ok branches ↔
      ∃ first last lower upper, Descriptor.ofChars options.dialect low.chars = .ok first ∧
        Descriptor.ofChars options.dialect high.chars = .ok last ∧
        atLeast options first = .ok lower ∧ atMost last = .ok upper ∧
        branches = [lower ++ upper] := by
  generalize written : ">=" ++ low.text ++ " <=" ++ high.text = source
  have noBar : '|' ∉ source.toList := by
    simp [← written, DescriptorWord.text, low.bar_not_mem, high.bar_not_mem]
  have tokens := written ▸ glue_words_pair low high
  have some : Text.words source.toList ≠ [] := by
    intro none
    rw [none] at tokens
    cases tokens
  have alone : read options source = .ok branches ↔
      ∃ branch, readTokens options source ['>' :: '=' :: low.chars, '<' :: '=' :: high.chars] =
        .ok branch ∧ branches = [branch] := by
    unfold read
    rw [alternatives_of_no_bar noBar, ← tokens, ← readBranch_of_ne_nil some]
    exact Outcome.mapM_eq_ok_iff.trans (by simp [List.forall₂_cons_left_iff])
  simp only [alone, readTokens_pair_eq_ok_iff]
  constructor
  · rintro ⟨_, ⟨first, last, lower, upper, describedFirst, describedLast, found, foundUpper, rfl⟩,
      only⟩
    exact ⟨first, last, lower, upper, describedFirst, describedLast, found, foundUpper, only⟩
  · rintro ⟨first, last, lower, upper, describedFirst, describedLast, found, foundUpper, only⟩
    exact ⟨_, ⟨first, last, lower, upper, describedFirst, describedLast, found, foundUpper, rfl⟩,
      only⟩

end Npm

namespace Constraint

open Range (Covers)

variable {constraint : Constraint} {options : Npm.Options} {branch : Branch} {source : String}
  {start stop : Option Point}

/-! ### Constraints of one interval -/

theorem covers_iff_holdsAt (only : constraint.branches = [branch]) (point : Point) :
    Covers constraint.ranges.toList point ↔ branch.conjunction.HoldsAt point := by
  rw [covers_normalize constraint.ranges_eq, only]
  simp

theorem covers_iff_of_interval (only : constraint.branches = [branch])
    (isInterval : branch.conjunction = .interval start stop) (point : Point) :
    Covers constraint.ranges.toList point ↔ (Conjunction.interval start stop).HoldsAt point :=
  isInterval ▸ covers_iff_holdsAt only point

theorem exists_parse_of_interval (read : Npm.read options source = .ok [branch])
    (some : branch ≠ []) (isInterval : branch.conjunction = .interval start stop) :
    ∃ constraint, parse (.npm options) source = .ok constraint ∧
      constraint.branches = [branch] := by
  refine exists_parse (Grammar.read_npm_eq_ok_iff.mpr ⟨rfl, read⟩) ?_ ?_
  · simpa using some
  · refine exists_normalize_iff.mpr (List.forall_mem_singleton.mpr ?_)
    rw [isInterval]
    exact Conjunction.exists_ranges_interval start stop

private theorem ranges_ne_empty_iff :
    constraint.ranges ≠ #[.empty] ↔ ∃ point, Covers constraint.ranges.toList point := by
  rw [ne_eq, ← Array.toList_inj]
  constructor
  · intro some
    obtain ⟨nonempty, separated⟩ := constraint.isCanonical.resolve_left some
    exact separated.exists_covers nonempty
  · rintro ⟨point, covered⟩ empty
    rw [empty] at covered
    exact Range.not_covers_empty point covered

private theorem beq_of_forall_covers {other : Constraint} (preferred : constraint.preferred = none)
    (preferredOther : other.preferred = none)
    (same : ∀ point, Covers constraint.ranges.toList point ↔ Covers other.ranges.toList point) :
    (constraint == other) = true := by
  refine beq_eq_true_iff.mpr ⟨Array.toList_inj.mp ?_, preferred.trans preferredOther.symm⟩
  exact constraint.isCanonical.eq_of_covers_iff other.isCanonical same

/-! ### Hyphen ranges and pairs of terms -/

variable {low high : Npm.DescriptorWord} {first last : Descriptor} {loose : Bool}

theorem exists_interval_of_parse_hyphen
    (parsed : parse (.npm options) (low.text ++ " - " ++ high.text) = .ok constraint) :
    ∃ first last stop, Descriptor.ofChars options.dialect low.chars = .ok first ∧
      Descriptor.ofChars options.dialect high.chars = .ok last ∧
      Npm.hyphenStop last = .ok stop ∧
      (∀ start ∈ Npm.lowerBound options first, ∀ point ∈ stop, start < point) ∧
      ∀ point, Covers constraint.ranges.toList point ↔
        (Conjunction.interval (Npm.lowerBound options first) stop).HoldsAt point := by
  obtain ⟨read, -⟩ := parse_npm_eq_ok_iff.mp parsed
  obtain ⟨first, last, branch, describedFirst, describedLast, found, only⟩ :=
    Npm.read_hyphen_eq_ok_iff.mp read
  obtain ⟨stop, stops, ordered, isInterval⟩ := Npm.conjunction_of_hyphen found
  exact ⟨first, last, stop, describedFirst, describedLast, stops, ordered,
    covers_iff_of_interval only isInterval⟩

private theorem exists_parse_hyphen
    (describedFirst : Descriptor.ofChars options.dialect low.chars = .ok first)
    (describedLast : Descriptor.ofChars options.dialect high.chars = .ok last)
    (stops : Npm.hyphenStop last = .ok stop)
    (ordered : ∀ start ∈ Npm.lowerBound options first, ∀ point ∈ stop, start < point) :
    ∃ constraint, parse (.npm options) (low.text ++ " - " ++ high.text) = .ok constraint := by
  obtain ⟨branch, found⟩ := Npm.exists_hyphen stops ordered
  obtain ⟨stop, -, -, isInterval⟩ := Npm.conjunction_of_hyphen found
  have read := Npm.read_hyphen_eq_ok_iff.mpr
    ⟨first, last, branch, describedFirst, describedLast, found, rfl⟩
  obtain ⟨constraint, parsed, -⟩ :=
    exists_parse_of_interval read (Npm.isMadeOf_hyphen found).ne_nil isInterval
  exact ⟨constraint, parsed⟩

theorem exists_interval_of_parse_pair
    (parsed : parse (.npm ⟨loose, false⟩) (">=" ++ low.text ++ " <=" ++ high.text) =
      .ok constraint) :
    ∃ first last stop,
      Descriptor.ofChars (Npm.Options.dialect ⟨loose, false⟩) low.chars = .ok first ∧
      Descriptor.ofChars (Npm.Options.dialect ⟨loose, false⟩) high.chars = .ok last ∧
      Npm.hyphenStop last = .ok stop ∧
      ∀ point, Covers constraint.ranges.toList point ↔
        (Conjunction.interval (Npm.lowerBound ⟨loose, false⟩ first) stop).HoldsAt point := by
  obtain ⟨read, -⟩ := parse_npm_eq_ok_iff.mp parsed
  obtain ⟨first, last, lower, upper, describedFirst, describedLast, foundLower, foundUpper, only⟩ :=
    Npm.read_pair_eq_ok_iff.mp read
  obtain ⟨stop, stops, isInterval⟩ := Npm.conjunction_of_pair foundLower foundUpper
  exact ⟨first, last, stop, describedFirst, describedLast, stops,
    covers_iff_of_interval only isInterval⟩

private theorem exists_parse_pair (describedFirst :
      Descriptor.ofChars (Npm.Options.dialect ⟨loose, false⟩) low.chars = .ok first)
    (describedLast :
      Descriptor.ofChars (Npm.Options.dialect ⟨loose, false⟩) high.chars = .ok last)
    (stops : Npm.hyphenStop last = .ok stop) :
    ∃ constraint, parse (.npm ⟨loose, false⟩) (">=" ++ low.text ++ " <=" ++ high.text) =
      .ok constraint := by
  obtain ⟨lower, foundLower⟩ := Npm.exists_atLeast ⟨loose, false⟩ first
  obtain ⟨upper, foundUpper⟩ := Npm.exists_atMost stops
  obtain ⟨stop, -, isInterval⟩ := Npm.conjunction_of_pair foundLower foundUpper
  have read := Npm.read_pair_eq_ok_iff.mpr
    ⟨first, last, lower, upper, describedFirst, describedLast, foundLower, foundUpper, rfl⟩
  have some : lower ++ upper ≠ [] :=
    List.append_ne_nil_of_left_ne_nil (Npm.isMadeOf_atLeast foundLower).ne_nil _
  obtain ⟨constraint, parsed, -⟩ := exists_parse_of_interval read some isInterval
  exact ⟨constraint, parsed⟩

private theorem beq_of_parse_hyphen {pair : Constraint}
    (parsed : parse (.npm ⟨loose, false⟩) (low.text ++ " - " ++ high.text) = .ok constraint)
    (parsedPair : parse (.npm ⟨loose, false⟩) (">=" ++ low.text ++ " <=" ++ high.text) =
      .ok pair) : (constraint == pair) = true := by
  obtain ⟨first, last, stop, describedFirst, describedLast, stops, -, covers⟩ :=
    exists_interval_of_parse_hyphen parsed
  obtain ⟨other, another, stop, again, againLast, stopsAgain, coversPair⟩ :=
    exists_interval_of_parse_pair parsedPair
  cases describedFirst.symm.trans again
  cases describedLast.symm.trans againLast
  cases stops.symm.trans stopsAgain
  refine beq_of_forall_covers (parse_npm_eq_ok_iff.mp parsed).2.2.2
    (parse_npm_eq_ok_iff.mp parsedPair).2.2.2 fun point => ?_
  rw [covers, coversPair]

/-- A hyphen range makes a constraint exactly if the pair of terms for its ends makes one that is
not empty, and the two constraints are equal. -/
theorem parse_hyphen_iff_parse_pair (loose : Bool) (low high : Npm.DescriptorWord) :
    ((∃ constraint,
        parse (.npm ⟨loose, false⟩) (low.text ++ " - " ++ high.text) = .ok constraint) ↔
      ∃ pair, parse (.npm ⟨loose, false⟩) (">=" ++ low.text ++ " <=" ++ high.text) = .ok pair ∧
        pair.ranges ≠ #[.empty]) ∧
    ∀ constraint pair,
      parse (.npm ⟨loose, false⟩) (low.text ++ " - " ++ high.text) = .ok constraint →
      parse (.npm ⟨loose, false⟩) (">=" ++ low.text ++ " <=" ++ high.text) = .ok pair →
      (constraint == pair) = true := by
  refine ⟨⟨?_, ?_⟩, fun constraint pair => beq_of_parse_hyphen⟩
  · rintro ⟨constraint, parsed⟩
    obtain ⟨first, last, stop, describedFirst, describedLast, stops, ordered, covers⟩ :=
      exists_interval_of_parse_hyphen parsed
    obtain ⟨pair, parsedPair⟩ := exists_parse_pair describedFirst describedLast stops
    obtain ⟨ranges, -⟩ := beq_eq_true_iff.mp (beq_of_parse_hyphen parsed parsedPair)
    refine ⟨pair, parsedPair, ranges ▸ ranges_ne_empty_iff.mpr ?_⟩
    simp only [covers]
    exact (Conjunction.exists_holdsAt_interval_iff (Npm.least_lt_of_hyphenStop stops)).mpr ordered
  · rintro ⟨pair, parsed, some⟩
    obtain ⟨first, last, stop, describedFirst, describedLast, stops, covers⟩ :=
      exists_interval_of_parse_pair parsed
    have held := ranges_ne_empty_iff.mp some
    simp only [covers] at held
    -- what the pair holds stands between the ends, so that they are in order
    have ordered :=
      (Conjunction.exists_holdsAt_interval_iff (Npm.least_lt_of_hyphenStop stops)).mp held
    exact exists_parse_hyphen describedFirst describedLast stops ordered

theorem parse_hyphen_iff_parse_pair_incomplete :
    ∃ constraint pair, parse (.npm ⟨false, false⟩) "1.2 - 2.x" = .ok constraint ∧
      parse (.npm ⟨false, false⟩) ">=1.2 <=2.x" = .ok pair ∧ pair.ranges ≠ #[.empty] ∧
      (constraint == pair) = true := by
  let low : Npm.DescriptorWord := .ofText "1.2" rfl ⟨.standard, _, rfl⟩
  let high : Npm.DescriptorWord := .ofText "2.x" rfl ⟨.standard, _, rfl⟩
  obtain ⟨constraint, parsed, -⟩ : ∃ constraint,
      parse (.npm ⟨false, false⟩) "1.2 - 2.x" = .ok constraint ∧ constraint.branches = [_] :=
    exists_parse rfl rfl ⟨_, rfl⟩
  obtain ⟨accepted, equal⟩ := parse_hyphen_iff_parse_pair false low high
  obtain ⟨pair, parsedPair, some⟩ := accepted.mp ⟨constraint, parsed⟩
  exact ⟨constraint, pair, parsed, parsedPair, some, equal constraint pair parsed parsedPair⟩

end Constraint

end Versioning
