import Versioning.Proofs.Npm.Hyphen

/-!
Descriptors with open positions. What stands behind the first wildcard is passed over by the
precision and by the stops of lines, but a number there is still part of the floor. So of two
descriptors with the same leading numbers each stands for the other in most terms, and in all of
them where more or less than one number leads. Where one does, the ranges that begin at the floor
or end below it tell the patches apart.
-/

namespace Versioning

namespace Descriptor

variable {descriptor first second : Descriptor}

theorem numbers_cases (descriptor : Descriptor) :
    descriptor.precision = 0 ∧ descriptor.numbers = [] ∨
    descriptor.precision = 1 ∧ descriptor.numbers = [descriptor.major.value] ∧
      descriptor.minor = 0 ∨
    descriptor.precision = 2 ∧
      descriptor.numbers = [descriptor.major.value, descriptor.minor.value] ∧
      descriptor.patch = 0 ∨
    descriptor.precision = 3 ∧ descriptor.numbers =
      [descriptor.major.value, descriptor.minor.value, descriptor.patch.value] := by
  cases descriptor with
  | one major =>
      cases major with
      | wildcard _ => exact .inl ⟨rfl, rfl⟩
      | number _ => exact .inr (.inl ⟨rfl, rfl, rfl⟩)
  | two major minor =>
      cases major with
      | wildcard _ => exact .inl ⟨rfl, rfl⟩
      | number _ =>
          cases minor with
          | wildcard _ => exact .inr (.inl ⟨rfl, rfl, rfl⟩)
          | number _ => exact .inr (.inr (.inl ⟨rfl, rfl, rfl⟩))
  | three major minor patch _ _ =>
      cases major with
      | wildcard _ => exact .inl ⟨rfl, rfl⟩
      | number _ =>
          cases minor with
          | wildcard _ => exact .inr (.inl ⟨rfl, rfl, rfl⟩)
          | number _ =>
              cases patch with
              | wildcard _ => exact .inr (.inr (.inl ⟨rfl, rfl, rfl⟩))
              | number _ => exact .inr (.inr (.inr ⟨rfl, rfl⟩))

/-! ### Descriptors with the same leading numbers -/

/-- Whether two descriptors leave the same positions open and have the same numbers in front. -/
structure AreOpenAlike (first second : Descriptor) : Prop where
  numbers : first.numbers = second.numbers
  incomplete : first.precision < 3

namespace AreOpenAlike

theorem precision_eq (alike : AreOpenAlike first second) : first.precision = second.precision := by
  rw [← length_numbers, ← length_numbers, alike.numbers]

theorem symm (alike : AreOpenAlike first second) : AreOpenAlike second first :=
  ⟨alike.numbers.symm, alike.precision_eq ▸ alike.incomplete⟩

theorem line (alike : AreOpenAlike first second) (numbered : first.precision ≠ 0) :
    first.precision = 1 ∨ first.precision = 2 :=
  precision_of_incomplete numbered alike.incomplete.ne

theorem isComplete_eq_false (alike : AreOpenAlike first second) : first.isComplete = false :=
  beq_eq_false_iff_ne.mpr alike.incomplete.ne

theorem components_eq (alike : AreOpenAlike first second) (numbered : first.precision ≠ 0) :
    first.major = second.major ∧ first.minor = second.minor ∧
      (first.precision ≠ 1 → first.patch = second.patch) := by
  have precision := alike.precision_eq
  have numbers := alike.numbers
  have incomplete := alike.incomplete
  rcases first.numbers_cases with ⟨_, -⟩ | ⟨_, leads, minor⟩ | ⟨_, leads, patch⟩ | ⟨_, -⟩ <;>
    rcases second.numbers_cases with ⟨_, -⟩ | ⟨_, leadsOther, minorOther⟩ |
      ⟨_, leadsOther, patchOther⟩ | ⟨_, -⟩ <;> try omega
  · rw [leads, leadsOther, List.cons.injEq] at numbers
    exact ⟨Component.ext numbers.1, minor.trans minorOther.symm, by omega⟩
  · rw [leads, leadsOther, List.cons.injEq, List.cons.injEq] at numbers
    exact ⟨Component.ext numbers.1, Component.ext numbers.2.1,
      fun _ => patch.trans patchOther.symm⟩

theorem floor_eq (alike : AreOpenAlike first second) (numbered : first.precision ≠ 0)
    (patch : first.precision ≠ 1 ∨ first.patch = second.patch) : first.floor = second.floor := by
  obtain ⟨major, minor, patchOfTwo⟩ := alike.components_eq numbered
  rw [floor, floor, major, minor, patch.elim patchOfTwo id, alike.isComplete_eq_false,
    alike.symm.isComplete_eq_false]
  rfl

theorem nextMajor_eq (alike : AreOpenAlike first second) (numbered : first.precision ≠ 0) :
    first.nextMajor = second.nextMajor := by
  rw [nextMajor, nextMajor, (alike.components_eq numbered).1]

theorem nextMinor_eq (alike : AreOpenAlike first second) (numbered : first.precision ≠ 0) :
    first.nextMinor = second.nextMinor := by
  obtain ⟨major, minor, -⟩ := alike.components_eq numbered
  rw [nextMinor, nextMinor, major, minor]

end AreOpenAlike

end Descriptor

namespace Npm

open Descriptor (AreOpenAlike)

variable {options : Options} {first second descriptor : Descriptor} {sigil : Sigil}
  {source other : String} {stop : Option Point}

/-! ### Bounds -/

theorem nextLine_eq (alike : AreOpenAlike first second) (numbered : first.precision ≠ 0) :
    nextLine first = nextLine second := by
  rw [nextLine, nextLine, alike.precision_eq, alike.nextMajor_eq numbered,
    alike.nextMinor_eq numbered]

private theorem caretStop_of_line (line : descriptor.precision = 1 ∨ descriptor.precision = 2) :
    caretStop descriptor = if descriptor.major ≠ 0 ∨ descriptor.precision = 1 then
      descriptor.nextMajor else descriptor.nextMinor := by
  unfold caretStop
  rcases line with one | two
  · simp [one]
  · simp [two]

theorem caretStop_eq (alike : AreOpenAlike first second) (numbered : first.precision ≠ 0) :
    caretStop first = caretStop second := by
  have line := alike.line numbered
  rw [caretStop_of_line line, caretStop_of_line (alike.precision_eq ▸ line),
    (alike.components_eq numbered).1, alike.precision_eq, alike.nextMajor_eq numbered,
    alike.nextMinor_eq numbered]

private theorem hyphenStop_eq (alike : AreOpenAlike first second) :
    hyphenStop first = hyphenStop second := by
  unfold hyphenStop
  rw [← alike.precision_eq]
  by_cases none : first.precision = 0
  · rw [none]
    rfl
  · rcases alike.line none with one | two
    · rw [one, alike.nextMajor_eq none]
      rfl
    · rw [two, alike.nextMinor_eq none]
      rfl

theorem lowerBound_eq (alike : AreOpenAlike first second)
    (patch : first.precision ≠ 1 ∨ first.patch = second.patch) :
    lowerBound options first = lowerBound options second := by
  unfold lowerBound
  rw [← alike.precision_eq]
  split_ifs with none
  · rfl
  · rw [alike.floor_eq none patch]
  · rw [alike.floor_eq none patch]

theorem exists_lowerBound (options : Options) (numbered : descriptor.precision ≠ 0) :
    ∃ start, lowerBound options descriptor = some start ∧ start.patch = descriptor.patch := by
  unfold lowerBound
  rw [if_neg numbered]
  split
  · exact ⟨_, rfl, rfl⟩
  · exact ⟨_, rfl, rfl⟩

theorem patch_eq_of_interval (alike : AreOpenAlike first second) (numbered : first.precision ≠ 0)
    (ordered : ∀ start ∈ lowerBound options first, ∀ point ∈ stop, start < point)
    (orderedOther : ∀ start ∈ lowerBound options second, ∀ point ∈ stop, start < point)
    (same : ∀ point,
      (Conjunction.interval (lowerBound options first) stop).HoldsAt point ↔
        (Conjunction.interval (lowerBound options second) stop).HoldsAt point) :
    first.patch = second.patch := by
  obtain ⟨start, begins, patch⟩ := exists_lowerBound options numbered
  obtain ⟨startOther, beginsOther, patchOther⟩ :=
    exists_lowerBound options (alike.precision_eq ▸ numbered)
  rw [begins, beginsOther] at same
  have starts : start = startOther := Conjunction.start_eq_of_holdsAt_iff
    (ordered start begins) (orderedOther startOther beginsOther) same
  rw [← patch, starts, patchOther]

/-! ### Terms -/

private theorem term_of_wildcard (none : descriptor.precision = 0) (ranged : sigil ≠ .notEqual) :
    term options source sigil descriptor =
      .ok (if sigil = .less ∨ sigil = .greater then single .nothing else [.any]) := by
  cases sigil <;> simp_all [term, plain, tilde, caret, less, atMost, greater, atLeast] <;> rfl

theorem term_of_line (line : descriptor.precision = 1 ∨ descriptor.precision = 2) :
    term options source sigil descriptor = match sigil with
      | .plain | .tilde => do bounded (lowerBound options descriptor) (some (← nextLine descriptor))
      | .caret => do
          let stop ← (caretStop descriptor).mapError ConstraintError.version
          bounded (lowerBound options descriptor) (some stop)
      | .notEqual => notEqual source descriptor
      | .less => .ok (single (.below descriptor.floor.withLeastPreRelease))
      | .atMost => do return single (.below (← nextLine descriptor))
      | .greater => do return single (.atLeast (← nextLine descriptor))
      | .atLeast => bounded (lowerBound options descriptor) none := by
  rcases line with one | two
  · cases sigil <;> simp [term, plain, tilde, caret, less, atMost, greater, atLeast, one]
  · cases sigil <;> simp [term, plain, tilde, caret, less, atMost, greater, atLeast, two]

private theorem term_eq (alike : AreOpenAlike first second) (ranged : sigil ≠ .notEqual)
    (patch : first.precision ≠ 1 ∨ first.patch = second.patch ∨ sigil = .atMost ∨
      sigil = .greater) :
    term options source sigil first = term options other sigil second := by
  by_cases none : first.precision = 0
  · rw [term_of_wildcard none ranged, term_of_wildcard (alike.precision_eq ▸ none) ranged]
  have line := alike.line none
  have next := nextLine_eq alike none
  rw [term_of_line line, term_of_line (alike.precision_eq ▸ line)]
  have ofFloor (notStop : ¬(sigil = .atMost ∨ sigil = .greater)) :
      first.floor = second.floor ∧ lowerBound options first = lowerBound options second := by
    have patch : first.precision ≠ 1 ∨ first.patch = second.patch :=
      patch.imp_right fun same => same.resolve_right notStop
    exact ⟨alike.floor_eq none patch, lowerBound_eq alike patch⟩
  cases sigil with
  | notEqual => contradiction
  | plain => simp only [next, (ofFloor (by decide)).2]
  | tilde => simp only [next, (ofFloor (by decide)).2]
  | caret => simp only [caretStop_eq alike none, (ofFloor (by decide)).2]
  | less => simp only [(ofFloor (by decide)).1]
  | atMost => simp only [next]
  | greater => simp only [next]
  | atLeast => simp only [(ofFloor (by decide)).2]

theorem patch_eq_of_bounded {branch branchOther : Branch} (alike : AreOpenAlike first second)
    (numbered : first.precision ≠ 0)
    (found : bounded (lowerBound options first) stop = .ok branch)
    (foundOther : bounded (lowerBound options second) stop = .ok branchOther)
    (same : ∀ point, branch.conjunction.HoldsAt point ↔ branchOther.conjunction.HoldsAt point) :
    first.patch = second.patch := by
  rw [conjunction_of_bounded found, conjunction_of_bounded foundOther] at same
  exact patch_eq_of_interval alike numbered (exists_bounded_iff.mp ⟨_, found⟩)
    (exists_bounded_iff.mp ⟨_, foundOther⟩) same

private theorem patch_eq_of_stop {branch branchOther : Branch}
    {next nextOther : Except ConstraintError Point} (alike : AreOpenAlike first second)
    (numbered : first.precision ≠ 0) (stops : next = nextOther)
    (found : (next >>= fun stop => bounded (lowerBound options first) (some stop)) = .ok branch)
    (foundOther : (nextOther >>= fun stop => bounded (lowerBound options second) (some stop)) =
      .ok branchOther)
    (same : ∀ point, branch.conjunction.HoldsAt point ↔ branchOther.conjunction.HoldsAt point) :
    first.patch = second.patch := by
  obtain ⟨stop, following, limits⟩ := Outcome.bind_eq_ok_iff.mp found
  obtain ⟨stopOther, followingOther, limitsOther⟩ := Outcome.bind_eq_ok_iff.mp foundOther
  cases following.symm.trans (stops.trans followingOther)
  exact patch_eq_of_bounded alike numbered limits limitsOther same

theorem patch_eq_of_term {branch branchOther : Branch} (alike : AreOpenAlike first second)
    (numbered : first.precision ≠ 0) (ranged : sigil ≠ .notEqual) (notAtMost : sigil ≠ .atMost)
    (notGreater : sigil ≠ .greater) (found : term options source sigil first = .ok branch)
    (foundOther : term options other sigil second = .ok branchOther)
    (same : ∀ point, branch.conjunction.HoldsAt point ↔ branchOther.conjunction.HoldsAt point) :
    first.patch = second.patch := by
  have line := alike.line numbered
  rw [term_of_line line] at found
  rw [term_of_line (alike.precision_eq ▸ line)] at foundOther
  cases sigil with
  | notEqual => contradiction
  | atMost => contradiction
  | greater => contradiction
  | plain =>
      exact patch_eq_of_stop alike numbered (nextLine_eq alike numbered) found foundOther same
  | tilde =>
      exact patch_eq_of_stop alike numbered (nextLine_eq alike numbered) found foundOther same
  | caret =>
      have stops := congrArg (Except.mapError ConstraintError.version) (caretStop_eq alike numbered)
      exact patch_eq_of_stop alike numbered stops found foundOther same
  | atLeast => exact patch_eq_of_bounded alike numbered found foundOther same
  | less =>
      cases found
      cases foundOther
      have stops : first.floor.withLeastPreRelease = second.floor.withLeastPreRelease :=
        Conjunction.stop_eq_of_holdsAt_iff same
      exact congrArg (·.patch) stops

/-! ### Ends of hyphen ranges -/

private theorem hyphen_eq_of_low {high : Descriptor} (alike : AreOpenAlike first second)
    (patch : first.precision ≠ 1 ∨ first.patch = second.patch) :
    hyphen options first high = hyphen options second high := by
  rw [hyphen, hyphen, lowerBound_eq alike patch]

theorem hyphen_eq_of_high {low : Descriptor} (alike : AreOpenAlike first second) :
    hyphen options low first = hyphen options low second := by
  simp only [hyphen, hyphenStop_eq alike, alike.isComplete_eq_false,
    alike.symm.isComplete_eq_false, Bool.false_eq_true, if_false]

end Npm

namespace Constraint

open Descriptor (AreOpenAlike)
open Range (Covers)

variable {options : Npm.Options} {source other : String} {constraint equal : Constraint}
  {branch branchOther : Branch}

private theorem holdsAt_iff_of_beq (only : constraint.branches = [branch])
    (onlyOther : equal.branches = [branchOther]) (same : (constraint == equal) = true)
    (point : Point) :
    branch.conjunction.HoldsAt point ↔ branchOther.conjunction.HoldsAt point := by
  rw [← covers_iff_holdsAt only, ← covers_iff_holdsAt onlyOther, (beq_eq_true_iff.mp same).1]

theorem exists_beq_of_read
    (read : ∀ branches, Npm.read options source = .ok branches →
      Npm.read options other = .ok branches)
    (parsed : parse (.npm options) source = .ok constraint) :
    ∃ equal, parse (.npm options) other = .ok equal ∧ (constraint == equal) = true := by
  obtain ⟨found, rest⟩ := parse_npm_eq_ok_iff.mp parsed
  exact ⟨constraint, parse_npm_eq_ok_iff.mpr ⟨read _ found, rest⟩,
    beq_eq_true_iff.mpr ⟨rfl, rfl⟩⟩

section

variable {first second opposite : Npm.DescriptorWord} {described describedOther : Descriptor}

private theorem exists_beq_term_iff {mark blanks : String} {sigil : Npm.Sigil}
    (isTerm : Npm.IsTermText options mark sigil blanks.toList first.chars described)
    (isTermOther : Npm.IsTermText options mark sigil blanks.toList second.chars describedOther)
    (alike : AreOpenAlike described describedOther) (ranged : sigil ≠ .notEqual)
    (parsed : parse (.npm options) (mark ++ blanks ++ first.text) = .ok constraint) :
    (∃ equal, parse (.npm options) (mark ++ blanks ++ second.text) = .ok equal ∧
        (constraint == equal) = true) ↔
      described.precision ≠ 1 ∨ described.patch = describedOther.patch ∨ sigil = .atMost ∨
        sigil = .greater := by
  have written (word : Npm.DescriptorWord) : (mark ++ blanks ++ word.text).toList =
      mark.toList ++ (blanks.toList ++ word.chars) := by
    simp [Npm.DescriptorWord.text]
  have read := isTerm.read_eq (written first)
  have readOther := isTermOther.read_eq (written second)
  constructor
  · rintro ⟨equal, parsedOther, same⟩
    obtain ⟨branches, -⟩ := parse_npm_eq_ok_iff.mp parsed
    obtain ⟨branchesOther, -⟩ := parse_npm_eq_ok_iff.mp parsedOther
    obtain ⟨branch, found, only⟩ := Outcome.map_eq_ok_iff.mp (read.symm.trans branches)
    obtain ⟨branchOther, foundOther, onlyOther⟩ :=
      Outcome.map_eq_ok_iff.mp (readOther.symm.trans branchesOther)
    by_contra differs
    simp only [not_or, not_not] at differs
    obtain ⟨one, patch, notAtMost, notGreater⟩ := differs
    exact patch (Npm.patch_eq_of_term alike (by omega) ranged notAtMost notGreater found
      foundOther (holdsAt_iff_of_beq only.symm onlyOther.symm same))
  · intro patch
    refine exists_beq_of_read (fun branches found => ?_) parsed
    rwa [readOther, ← Npm.term_eq alike ranged patch, ← read]

private theorem exists_beq_low_iff
    (isFirst : Descriptor.ofChars options.dialect first.chars = .ok described)
    (isSecond : Descriptor.ofChars options.dialect second.chars = .ok describedOther)
    (alike : AreOpenAlike described describedOther)
    (parsed : parse (.npm options) (first.text ++ " - " ++ opposite.text) = .ok constraint) :
    (∃ equal, parse (.npm options) (second.text ++ " - " ++ opposite.text) = .ok equal ∧
        (constraint == equal) = true) ↔
      described.precision ≠ 1 ∨ described.patch = describedOther.patch := by
  constructor
  · rintro ⟨equal, parsedOther, same⟩
    obtain ⟨low, high, stop, isLow, isHigh, stops, ordered, covers⟩ :=
      exists_interval_of_parse_hyphen parsed
    obtain ⟨lowOther, highOther, stopOther, isLowOther, isHighOther, stopsOther, orderedOther,
      coversOther⟩ := exists_interval_of_parse_hyphen parsedOther
    cases isFirst.symm.trans isLow
    cases isSecond.symm.trans isLowOther
    cases isHigh.symm.trans isHighOther
    cases stops.symm.trans stopsOther
    by_contra differs
    simp only [not_or, not_not] at differs
    obtain ⟨one, patch⟩ := differs
    refine patch (Npm.patch_eq_of_interval alike (by omega) ordered orderedOther fun point => ?_)
    rw [← covers, ← coversOther, (beq_eq_true_iff.mp same).1]
  · intro patch
    refine exists_beq_of_read (fun branches read => ?_) parsed
    obtain ⟨low, high, branch, isLow, isHigh, found, only⟩ := Npm.read_hyphen_eq_ok_iff.mp read
    cases isFirst.symm.trans isLow
    rw [Npm.hyphen_eq_of_low alike patch] at found
    exact Npm.read_hyphen_eq_ok_iff.mpr
      ⟨describedOther, high, branch, isSecond, isHigh, found, only⟩

private theorem exists_beq_high
    (isFirst : Descriptor.ofChars options.dialect first.chars = .ok described)
    (isSecond : Descriptor.ofChars options.dialect second.chars = .ok describedOther)
    (alike : AreOpenAlike described describedOther)
    (parsed : parse (.npm options) (opposite.text ++ " - " ++ first.text) = .ok constraint) :
    ∃ equal, parse (.npm options) (opposite.text ++ " - " ++ second.text) = .ok equal ∧
      (constraint == equal) = true := by
  refine exists_beq_of_read (fun branches read => ?_) parsed
  obtain ⟨low, high, branch, isLow, isHigh, found, only⟩ := Npm.read_hyphen_eq_ok_iff.mp read
  cases isFirst.symm.trans isHigh
  rw [Npm.hyphen_eq_of_high alike] at found
  exact Npm.read_hyphen_eq_ok_iff.mpr ⟨low, describedOther, branch, isLow, isSecond, found, only⟩

/-- What stands behind the numbers of a descriptor with open positions makes no difference, except
for a number that is third where the second position is a wildcard. This patch counts in the terms
that begin at the floor of the descriptor or end below it, and at the lower end of a hyphen range,
so that a text of one patch makes a constraint equal to that of another only if the two are the
same. -/
theorem exists_beq_iff_of_areOpenAlike {mark blanks : String} {sigil : Npm.Sigil}
    (isTerm : Npm.IsTermText options mark sigil blanks.toList first.chars described)
    (isTermOther : Npm.IsTermText options mark sigil blanks.toList second.chars describedOther)
    (alike : AreOpenAlike described describedOther) (ranged : sigil ≠ .notEqual)
    (opposite : Npm.DescriptorWord) :
    (∀ constraint, parse (.npm options) (mark ++ blanks ++ first.text) = .ok constraint →
      ((∃ equal, parse (.npm options) (mark ++ blanks ++ second.text) = .ok equal ∧
          (constraint == equal) = true) ↔
        described.precision ≠ 1 ∨ described.patch = describedOther.patch ∨ sigil = .atMost ∨
          sigil = .greater)) ∧
    (∀ constraint, parse (.npm options) (first.text ++ " - " ++ opposite.text) = .ok constraint →
      ((∃ equal, parse (.npm options) (second.text ++ " - " ++ opposite.text) = .ok equal ∧
          (constraint == equal) = true) ↔
        described.precision ≠ 1 ∨ described.patch = describedOther.patch)) ∧
    ∀ constraint, parse (.npm options) (opposite.text ++ " - " ++ first.text) = .ok constraint →
      ∃ equal, parse (.npm options) (opposite.text ++ " - " ++ second.text) = .ok equal ∧
        (constraint == equal) = true :=
  ⟨fun _ => exists_beq_term_iff isTerm isTermOther alike ranged,
    fun _ => exists_beq_low_iff isTerm.described isTermOther.described alike,
    fun _ => exists_beq_high isTerm.described isTermOther.described alike⟩

end

theorem exists_beq_iff_of_areOpenAlike_tilde :
    ∃ constraint equal, parse (.npm ⟨false, false⟩) "~ 1.x.*-rc" = .ok constraint ∧
      parse (.npm ⟨false, false⟩) "~ 1" = .ok equal ∧ (constraint == equal) = true := by
  let first : Npm.DescriptorWord := .ofText "1.x.*-rc" rfl ⟨.standard, _, rfl⟩
  let second : Npm.DescriptorWord := .ofText "1" rfl ⟨.standard, _, rfl⟩
  obtain ⟨constraint, parsed, -⟩ : ∃ constraint,
      parse (.npm ⟨false, false⟩) "~ 1.x.*-rc" = .ok constraint ∧ constraint.branches = [_] :=
    exists_parse rfl rfl ⟨_, rfl⟩
  have apart : "1.x.*-rc".toList.head? ≠ some '=' := by decide
  have apartOther : "1".toList.head? ≠ some '=' := by decide
  let preRelease : PreRelease := ⟨[.alphanumeric "rc" rfl], List.cons_ne_nil _ _⟩
  have isTerm : Npm.IsTermText ⟨false, false⟩ "~" .tilde " ".toList first.chars
      (.three (.number 1) (.wildcard .lowerX) (.wildcard .star) (some preRelease) none) :=
    ⟨by decide, List.all_eq_true.mp rfl, first.solid, apart, rfl⟩
  have isTermOther : Npm.IsTermText ⟨false, false⟩ "~" .tilde " ".toList second.chars
      (.one (.number 1)) :=
    ⟨by decide, List.all_eq_true.mp rfl, second.solid, apartOther, rfl⟩
  have same := (exists_beq_iff_of_areOpenAlike isTerm isTermOther ⟨rfl, by decide⟩ (by decide)
    first).1 constraint parsed
  obtain ⟨equal, parsedEqual, beq⟩ := same.mpr (.inr (.inl rfl))
  exact ⟨constraint, equal, parsed, parsedEqual, beq⟩

theorem not_beq_of_number_behind_wildcard :
    ∃ constraint other, parse (.npm ⟨false, false⟩) "1.x.3" = .ok constraint ∧
      parse (.npm ⟨false, false⟩) "1" = .ok other ∧ (constraint == other) = false := by
  obtain ⟨constraint, parsed, branches⟩ : ∃ constraint,
      parse (.npm ⟨false, false⟩) "1.x.3" = .ok constraint ∧ constraint.branches = [_] :=
    exists_parse rfl rfl ⟨_, rfl⟩
  obtain ⟨other, parsedOther, branchesOther⟩ : ∃ other,
      parse (.npm ⟨false, false⟩) "1" = .ok other ∧ other.branches = [_] :=
    exists_parse rfl rfl ⟨_, rfl⟩
  refine ⟨constraint, other, parsed, parsedOther, Bool.eq_false_iff.mpr fun same => ?_⟩
  -- the first release of the line is below the one and within the other
  have refused : ¬Covers constraint.ranges.toList (Version.release 1 0 0).toPoint := by
    rw [covers_iff, branches]
    decide
  rw [(beq_eq_true_iff.mp same).1, covers_iff, branchesOther] at refused
  exact refused (by decide)

end Constraint

end Versioning
