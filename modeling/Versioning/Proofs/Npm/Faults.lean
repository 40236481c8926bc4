import Versioning.Proofs.Npm.Overflow
import Versioning.Proofs.Npm.Tokens

/-!
Why texts make no constraint in the npm grammar. Each error is put down to a part of the text: to a
blank side of a bar, to a word that is no descriptor, to a wildcard that is excluded, to a number
that cannot be raised, to a hyphen range whose ends are out of order, or to a branch whose ranges
would have to step over the last release of a line. Conversely no text with such a part makes a
constraint.
-/

namespace Versioning

namespace Npm

variable {options : Options} {source : String} {sigil : Sigil} {descriptor low high : Descriptor}
  {index : Nat} {branch : Branch} {branches : List Branch} {tokens : List Word} {token : Word}
  {error : ConstraintError}

/-! ### Overflow -/

abbrev overflow : VersionError := .componentOverflow "18446744073709551615 + 1"

private theorem eq_overflow_of_raise {cause : VersionError}
    (failed : descriptor.raise index = .error cause) : cause = overflow :=
  Component.eq_overflow_of_next (Outcome.map_eq_error_iff.mp failed)

private theorem eq_overflow_of_nextLine (failed : nextLine descriptor = .error error) :
    error = .version overflow := by
  rw [nextLine_eq_raise] at failed
  obtain ⟨cause, raising, same⟩ := Outcome.mapError_eq_error_iff.mp failed
  rw [← same, eq_overflow_of_raise raising]

private theorem eq_overflow_of_caretStop {cause : VersionError}
    (numbered : descriptor.precision ≠ 0) (failed : caretStop descriptor = .error cause) :
    cause = overflow := by
  obtain ⟨index, -, same⟩ := raised?_caret numbered
  rw [same] at failed
  exact eq_overflow_of_raise failed

private theorem eq_overflow_of_hyphenStop {cause : VersionError}
    (failed : hyphenStop high = .error cause) : cause = overflow := by
  unfold hyphenStop at failed
  split at failed
  · cases failed
  · rw [Descriptor.nextMajor_eq_raise] at failed
    exact eq_overflow_of_raise (Outcome.map_eq_error_iff.mp failed)
  · rw [Descriptor.nextMinor_eq_raise] at failed
    exact eq_overflow_of_raise (Outcome.map_eq_error_iff.mp failed)
  · exact Point.eq_overflow_of_next (Outcome.map_eq_error_iff.mp failed)

private theorem eq_overflow_of_comparison {operator : Operator} {point : Point}
    (failed : comparison operator point = .error error) : error = .version overflow := by
  obtain ⟨cause, made, same⟩ := Condition.make_eq_error_iff.mp (Outcome.map_eq_error_iff.mp failed)
  obtain ⟨-, next⟩ := Operator.comparator_eq_error_iff.mp made
  rw [same, Point.eq_overflow_of_next next]

theorem error_of_bounded {next : Except ConstraintError Point}
    (past : ∀ stop, next = .ok stop → IsPast sigil descriptor stop)
    (failed : (next >>= fun stop => bounded (lowerBound options descriptor) (some stop)) =
      .error error) : next = .error error := by
  apply (Outcome.bind_eq_error_iff.mp failed).resolve_right
  intro reversed
  obtain ⟨stop, stops, -⟩ := reversed
  have found : ∃ branch, (next >>= fun stop =>
      bounded (lowerBound options descriptor) (some stop)) = .ok branch :=
    exists_bounded stops (past stop stops)
  rw [failed] at found
  obtain ⟨branch, impossible⟩ := found
  cases impossible

/-! ### Terms -/

/-- Whether a term comes down to a single point, which it names itself. It is left to its ranges to
step over the point, so the term does not fail where the point has no next one. -/
def NamesPoint (sigil : Sigil) (descriptor : Descriptor) : Prop :=
  sigil = .notEqual ∨ sigil = .plain ∧ descriptor.precision = 3

private theorem eq_overflow_of_plain (failed : plain options descriptor = .error error) :
    error = .version overflow := by
  have ofLine (line : descriptor.precision = 1 ∨ descriptor.precision = 2)
      (failed : (nextLine descriptor >>= fun stop =>
        bounded (lowerBound options descriptor) (some stop)) = .error error) :
      error = .version overflow := by
    have runs : RunsToLine .plain descriptor := .inr ⟨by decide, by omega⟩
    apply eq_overflow_of_nextLine
    exact error_of_bounded (fun _ => isPast_of_nextLine (by omega) runs) failed
  unfold plain at failed
  split at failed
  · cases failed
  · next one => exact ofLine (.inl one) failed
  · next two => exact ofLine (.inr two) failed
  · cases failed

private theorem eq_overflow_of_tilde (failed : tilde options descriptor = .error error) :
    error = .version overflow := by
  unfold tilde at failed
  split at failed
  · cases failed
  · next numbered =>
    apply eq_overflow_of_nextLine
    exact error_of_bounded (fun _ => isPast_of_nextLine numbered (.inl rfl)) failed

private theorem eq_overflow_of_caret (failed : caret options descriptor = .error error) :
    error = .version overflow := by
  unfold caret at failed
  split at failed
  · cases failed
  · next numbered =>
    have stopping := error_of_bounded
      (fun _ stops => isPast_of_caretStop numbered (Outcome.mapError_eq_ok_iff.mp stops)) failed
    obtain ⟨cause, raising, same⟩ := Outcome.mapError_eq_error_iff.mp stopping
    rw [← same, eq_overflow_of_caretStop numbered raising]

private theorem eq_overflow_of_drawnBehind {operator : Operator} {whole : Branch}
    {line : Point → Condition}
    (failed : drawnBehind operator whole line descriptor = .error error) :
    error = .version overflow := by
  unfold drawnBehind at failed
  split at failed
  · cases failed
  · exact eq_overflow_of_comparison failed
  · exact eq_overflow_of_nextLine (Outcome.bind_pure_eq_error_iff.mp failed)

private theorem eq_overflow_of_term (other : sigil ≠ .notEqual)
    (failed : term options source sigil descriptor = .error error) :
    error = .version overflow := by
  cases sigil with
  | plain => exact eq_overflow_of_plain failed
  | tilde => exact eq_overflow_of_tilde failed
  | caret => exact eq_overflow_of_caret failed
  | notEqual => contradiction
  | less => cases failed
  | atMost =>
      rw [term, atMost_eq_drawnBehind] at failed
      exact eq_overflow_of_drawnBehind failed
  | greater =>
      rw [term, greater_eq_drawnBehind] at failed
      exact eq_overflow_of_drawnBehind failed
  | atLeast =>
      obtain ⟨branch, found⟩ := exists_atLeast options descriptor
      cases failed.symm.trans found

private theorem error_of_notEqual (failed : notEqual source descriptor = .error error) :
    descriptor.precision ≠ 0 ∧ descriptor.hasWildcard = true ∧
      error = .malformed source (.wildcardExcluded descriptor.text) := by
  unfold notEqual at failed
  split at failed
  · cases failed
  · next numbered =>
    split at failed
    · next wildcard =>
      cases failed
      exact ⟨numbered, wildcard, rfl⟩
    · cases failed

/-- A term fails because it excludes a wildcard behind its numbers, or because the number that it
has to raise itself is the greatest there is. -/
theorem error_of_term (failed : term options source sigil descriptor = .error error) :
    (sigil = .notEqual ∧ descriptor.precision ≠ 0 ∧ descriptor.hasWildcard = true ∧
        error = .malformed source (.wildcardExcluded descriptor.text)) ∨
      ¬NamesPoint sigil descriptor ∧ ¬Fits sigil descriptor ∧ error = .version overflow := by
  by_cases excludes : sigil = .notEqual
  · subst excludes
    exact .inl ⟨rfl, error_of_notEqual failed⟩
  · refine .inr ⟨?_, ?_, eq_overflow_of_term excludes failed⟩
    · intro names
      obtain ⟨isPlain, complete⟩ := names.resolve_left excludes
      subst isPlain
      rw [term, plain, complete] at failed
      cases failed
    · intro fits
      have found : ∃ branch, term options source sigil descriptor = .ok branch :=
        exists_term fits fun wildcard => excludes wildcard.1
      rw [failed] at found
      obtain ⟨branch, impossible⟩ := found
      cases impossible

theorem Means.fits {conjunction : Conjunction} (means : Means options descriptor sigil conjunction)
    (raises : ¬NamesPoint sigil descriptor) : Fits sigil descriptor := by
  cases means with
  | any none _ => exact fits_of_wildcard none
  | nothing none _ => exact fits_of_wildcard none
  | range _ starts past => exact past.fits
  | below stops => exact fun _ raises => nomatch raises
  | upTo past => exact past.fits
  | above past => exact past.fits
  | onwards starts => exact fun _ raises => nomatch raises
  | exactly complete => exact absurd (.inr ⟨rfl, complete⟩) raises
  | excluding numbered => exact absurd (.inl rfl) raises

/-! ### Hyphen ranges -/

theorem exists_hyphenStop_iff : (∃ stop, hyphenStop high = .ok stop) ↔ Fits .atMost high := by
  constructor
  · intro ends
    obtain ⟨stop, stops⟩ := ends
    obtain ⟨branch, found⟩ := exists_atMost stops
    have means : Means .standard high .atMost branch.conjunction := means_of_atMost found
    exact means.fits (by simp [NamesPoint])
  · intro fits
    obtain ⟨branch, found⟩ : ∃ branch, atMost high = .ok branch := by
      rw [atMost_eq_drawnBehind]
      exact exists_drawnBehind (.inl rfl) fits
    obtain ⟨stop, stops, -⟩ := conjunction_of_atMost found
    exact ⟨stop, stops⟩

private theorem reversed_of_bounded {start stop : Option Point}
    (failed : bounded start stop = .error error) : ∃ first ∈ start, ∃ last ∈ stop,
      last ≤ first ∧ error = .invalidRange first.toVersion last.toVersion := by
  have between : Range.between (start.map Point.toVersion) (stop.map Point.toVersion) =
      .error error := by
    apply (Outcome.bind_eq_error_iff.mp failed).resolve_right
    intro impossible
    obtain ⟨range, -, impossible⟩ := impossible
    split at impossible <;> cases impossible
  obtain ⟨_, starts, _, stops, reversed, same⟩ := Range.between_eq_error_iff.mp between
  obtain ⟨first, isFirst, ofFirst⟩ := Option.map_eq_some_iff.mp starts
  obtain ⟨last, isLast, ofLast⟩ := Option.map_eq_some_iff.mp stops
  subst ofFirst ofLast
  exact ⟨first, isFirst, last, isLast, reversed, same⟩

/-- A hyphen range fails because its upper end cannot be raised, or because it stops before it
starts. -/
theorem error_of_hyphen (failed : hyphen options low high = .error error) :
    (¬Fits .atMost high ∧ error = .version overflow) ∨
      ∃ start ∈ lowerBound options low, ∃ stop, hyphenStop high = .ok (some stop) ∧
        stop ≤ start ∧ error = .invalidRange start.toVersion stop.toVersion := by
  rcases Outcome.bind_eq_error_iff.mp failed with ending | ⟨stop, stops, limiting⟩
  · obtain ⟨cause, raising, same⟩ := Outcome.mapError_eq_error_iff.mp ending
    rw [eq_overflow_of_hyphenStop raising] at same
    refine .inl ⟨?_, same.symm⟩
    rw [← exists_hyphenStop_iff, ← Outcome.exists_eq_error_iff]
    exact ⟨cause, raising⟩
  · rw [Outcome.mapError_eq_ok_iff] at stops
    rcases Outcome.bind_eq_error_iff.mp limiting with reversing | ⟨whole, limits, -⟩
    · obtain ⟨start, starts, last, isLast, reversed, same⟩ := reversed_of_bounded reversing
      cases isLast
      exact .inr ⟨start, starts, last, stops, reversed, same⟩
    · -- between ends in order nothing else is refused
      obtain ⟨branch, found⟩ := exists_hyphen stops (exists_bounded_iff.mp ⟨whole, limits⟩)
      rw [failed] at found
      cases found

/-! ### Bars -/

/-- Whether a piece of a text between double bars has a single bar in it with nothing but blanks at
a side. -/
def HasBlankSide (source : String) (piece : List Char) : Prop :=
  piece ∈ Text.cutAtDoubleBars source.toList ∧ '|' ∈ piece ∧
    ∃ side ∈ piece.splitOn '|', Text.IsBlanks side

/-- A piece of a text as errors name it, with its blanks made one space each. -/
def collapsed (piece : List Char) : String := String.ofList ([' '].intercalate (Text.words piece))

private theorem error_of_alternatives (failed : Npm.alternatives source = .error error) :
    ∃ piece, HasBlankSide source piece ∧
      error = .malformed source (.emptySideOfBar (collapsed piece)) := by
  obtain ⟨front, piece, back, same, -, ofPiece⟩ :=
    Outcome.mapM_eq_error_iff.mp (Outcome.map_eq_error_iff.mp failed)
  have member : piece ∈ Text.cutAtDoubleBars source.toList := by simp [same]
  unfold alternativesOfPiece at ofPiece
  split at ofPiece
  · next bar =>
    obtain ⟨front, side, back, same, -, ofSide⟩ := Outcome.mapM_eq_error_iff.mp ofPiece
    have among : side ∈ piece.splitOn '|' := by simp [same]
    split at ofSide
    · next none =>
      cases ofSide
      exact ⟨piece, ⟨member, List.contains_iff_mem.mp bar, side, among,
        Text.words_eq_nil_iff.mp none⟩, rfl⟩
    · cases ofSide
  · cases ofPiece

private theorem HasBlankSide.alternatives_ne_ok {piece : List Char}
    {alternatives : List (List Word)} (has : HasBlankSide source piece) :
    Npm.alternatives source ≠ .ok alternatives := by
  intro cut
  obtain ⟨member, bar, side, among, blank⟩ := has
  obtain ⟨lists, pieces, -⟩ := Outcome.map_eq_ok_iff.mp cut
  obtain ⟨list, ofPiece⟩ := Outcome.exists_mapM_eq_ok_iff.mp ⟨lists, pieces⟩ piece member
  rw [alternativesOfPiece, if_pos (List.contains_iff_mem.mpr bar)] at ofPiece
  obtain ⟨words, ofSide⟩ := Outcome.exists_mapM_eq_ok_iff.mp ⟨list, ofPiece⟩ side among
  rw [Text.words_eq_nil_iff.mpr blank] at ofSide
  cases ofSide

/-! ### Faults -/

/-- What may be wrong with a text that makes no constraint, and how each fault is reported. -/
inductive Fault (options : Options) (source : String) : ConstraintError → Prop
  | blankSide {piece : List Char} (has : HasBlankSide source piece) :
      Fault options source (.malformed source (.emptySideOfBar (collapsed piece)))
  | descriptor {word : Word} {error : ConstraintError} (named : NamesDescriptor source word)
      (flaw : Descriptor.Flaw options.dialect word error) : Fault options source error
  | wildcardExcluded {word : Word} {descriptor : Descriptor} (has : HasTerm source .notEqual word)
      (described : Descriptor.ofChars options.dialect word = .ok descriptor)
      (numbered : descriptor.precision ≠ 0) (wildcard : descriptor.hasWildcard = true) :
      Fault options source (.malformed source (.wildcardExcluded descriptor.text))
  | overflow {sigil : Sigil} {word : Word} {descriptor : Descriptor}
      (has : HasTerm source sigil word)
      (described : Descriptor.ofChars options.dialect word = .ok descriptor)
      (raises : ¬NamesPoint sigil descriptor) (unfit : ¬Fits sigil descriptor) :
      Fault options source (.version overflow)
  | overflowAtEnd {low high : Word} {last : Descriptor} (has : HasRange source low high)
      (described : Descriptor.ofChars options.dialect high = .ok last)
      (unfit : ¬Fits .atMost last) :
      Fault options source (.version overflow)
  | reversed {low high : Word} {first last : Descriptor} {start stop : Point}
      (has : HasRange source low high)
      (describedLow : Descriptor.ofChars options.dialect low = .ok first)
      (describedHigh : Descriptor.ofChars options.dialect high = .ok last)
      (starts : start ∈ lowerBound options first) (stops : hyphenStop last = .ok (some stop))
      (reversed : stop ≤ start) :
      Fault options source (.invalidRange start.toVersion stop.toVersion)
  | stepsOverLast {branches : List Branch} {branch : Branch}
      (found : read options source = .ok branches) (member : branch ∈ branches)
      (steps : branch.conjunction.StepsOverLast) :
      Fault options source (.invalidConstraint source)

private theorem fault_of_readTerm (has : HasTerm source (Sigil.read token).1 (Sigil.read token).2)
    (failed : readTerm options source token = .error error) : Fault options source error := by
  rcases readTerm_eq_error_iff.mp failed with flawed | ⟨descriptor, described, ofTerm⟩
  · exact .descriptor (.term has) (Descriptor.flaw_of_ofChars flawed)
  · rcases error_of_term ofTerm with ⟨excludes, numbered, wildcard, same⟩ | ⟨raises, unfit, same⟩
    · rw [excludes] at has
      rw [same]
      exact .wildcardExcluded has described numbered wildcard
    · rw [same]
      exact .overflow has described raises unfit

private theorem fault_of_range {low high : Word} (has : HasRange source low high)
    (failed : readTokens options source [low, ['-'], high] = .error error) :
    Fault options source error := by
  rcases Outcome.bind_eq_error_iff.mp failed with flawed | ⟨first, describedLow, others⟩
  · exact .descriptor (.low has) (Descriptor.flaw_of_ofChars flawed)
  rcases Outcome.bind_eq_error_iff.mp others with flawed | ⟨last, describedHigh, ofRange⟩
  · exact .descriptor (.high has) (Descriptor.flaw_of_ofChars flawed)
  rcases error_of_hyphen ofRange with ⟨unfit, same⟩ | ⟨start, starts, stop, stops, reversed, same⟩
  · rw [same]
    exact .overflowAtEnd has describedHigh unfit
  · rw [same]
    exact .reversed has describedLow describedHigh starts stops reversed

private theorem fault_of_readTokens (has : HasTokens source tokens)
    (failed : readTokens options source tokens = .error error) : Fault options source error := by
  by_cases isRange : ∃ low high, tokens = [low, ['-'], high]
  · obtain ⟨low, high, same⟩ := isRange
    subst same
    exact fault_of_range has failed
  · have apart : ∀ low high, tokens ≠ [low, ['-'], high] := by simpa using isRange
    obtain ⟨token, member, ofTerm⟩ := exists_readTerm_of_readTokens apart failed
    exact fault_of_readTerm ⟨tokens, has, apart, token, member, rfl⟩ ofTerm

theorem fault_of_read (failed : read options source = .error error) :
    Fault options source error := by
  rcases exists_of_read_eq_error failed with cut | ⟨tokens, has, ofTokens⟩
  · obtain ⟨piece, has, same⟩ := error_of_alternatives cut
    rw [same]
    exact .blankSide has
  · exact fault_of_readTokens has ofTokens

private theorem NamesDescriptor.exists_ofChars {word : Word} (named : NamesDescriptor source word)
    (found : read options source = .ok branches) :
    ∃ descriptor, Descriptor.ofChars options.dialect word = .ok descriptor := by
  cases named with
  | term has =>
      obtain ⟨descriptor, described, -⟩ := exists_term_of_read found has
      exact ⟨descriptor, described⟩
  | low has =>
      obtain ⟨first, last, describedLow, -, -⟩ := exists_hyphen_of_read found has
      exact ⟨first, describedLow⟩
  | high has =>
      obtain ⟨first, last, -, describedHigh, -⟩ := exists_hyphen_of_read found has
      exact ⟨last, describedHigh⟩

theorem Fault.stepsOverLast_of_read (fault : Fault options source error)
    (found : read options source = .ok branches) :
    ∃ branch ∈ branches, branch.conjunction.StepsOverLast := by
  cases fault with
  | blankSide has =>
      obtain ⟨alternatives, cut, -⟩ := Outcome.bind_eq_ok_iff.mp found
      exact absurd cut has.alternatives_ne_ok
  | descriptor named flaw =>
      obtain ⟨descriptor, described⟩ := named.exists_ofChars found
      exact absurd described flaw.ofChars_ne_ok
  | wildcardExcluded has described numbered wildcard =>
      obtain ⟨_, again, ofTerm⟩ := exists_term_of_read found has
      cases described.symm.trans again
      exact absurd ⟨numbered, wildcard⟩ (exists_notEqual_iff.mp ofTerm)
  | overflow has described raises unfit =>
      obtain ⟨_, again, branch, ofTerm⟩ := exists_term_of_read found has
      cases described.symm.trans again
      exact absurd ((means_of_term ofTerm).fits raises) unfit
  | overflowAtEnd has described unfit =>
      obtain ⟨first, _, -, again, branch, ofRange⟩ := exists_hyphen_of_read found has
      cases described.symm.trans again
      obtain ⟨stop, stops, -⟩ := conjunction_of_hyphen ofRange
      exact absurd (exists_hyphenStop_iff.mp ⟨stop, stops⟩) unfit
  | reversed has describedLow describedHigh starts stops reversed =>
      obtain ⟨_, _, againLow, againHigh, branch, ofRange⟩ := exists_hyphen_of_read found has
      cases describedLow.symm.trans againLow
      cases describedHigh.symm.trans againHigh
      obtain ⟨_, stopsAgain, ordered, -⟩ := conjunction_of_hyphen ofRange
      cases stops.symm.trans stopsAgain
      exact absurd (ordered _ starts _ rfl) (not_lt.mpr reversed)
  | stepsOverLast again member steps =>
      cases found.symm.trans again
      exact ⟨_, member, steps⟩

private theorem read_ne_invalidConstraint (text : String) :
    read options source ≠ .error (.invalidConstraint text) := by
  intro failed
  cases fault_of_read failed with
  | descriptor named flaw => cases flaw
  | stepsOverLast found _ _ =>
      rw [failed] at found
      cases found

end Npm

namespace Constraint

/-! ### Texts -/

variable {options : Npm.Options} {source : String} {branches : List Branch}
  {error : ConstraintError}

theorem exists_parse_npm_iff (found : Npm.read options source = .ok branches) :
    (∃ constraint, parse (.npm options) source = .ok constraint) ↔
      ¬∃ branch ∈ branches, branch.conjunction.StepsOverLast := by
  constructor
  · intro made steps
    obtain ⟨constraint, parsed⟩ := made
    obtain ⟨again, -⟩ := parse_npm_eq_ok_iff.mp parsed
    cases found.symm.trans again
    obtain ⟨branch, member, stepsOverLast⟩ := steps
    obtain ⟨error, failed⟩ :=
      exists_normalize_eq_error_iff.mpr ⟨_, List.mem_map_of_mem member, stepsOverLast⟩
    rw [constraint.ranges_eq] at failed
    cases failed
  · intro free
    have some : branches.all List.isEmpty = false := by
      obtain ⟨branch, member⟩ := List.exists_mem_of_ne_nil _ (Npm.branches_ne_nil found)
      rw [List.all_eq_false]
      exact ⟨branch, member, by simpa using Npm.branch_ne_nil found branch member⟩
    have normal : ∃ ranges, normalize (branches.map Branch.conjunction) = .ok ranges := by
      by_contra fails
      rw [← Outcome.exists_eq_error_iff, exists_normalize_eq_error_iff] at fails
      obtain ⟨conjunction, member, steps⟩ := fails
      obtain ⟨branch, among, same⟩ := List.mem_map.mp member
      subst same
      exact free ⟨branch, among, steps⟩
    obtain ⟨constraint, parsed, -⟩ :=
      exists_parse (Grammar.read_npm_eq_ok_iff.mpr ⟨rfl, found⟩) some normal
    exact ⟨constraint, parsed⟩

/-- A text makes no constraint where it is not read, or where its branches have no ranges; what the
ranges fail with is not passed on. -/
theorem parse_npm_eq_error_iff : parse (.npm options) source = .error error ↔
    Npm.read options source = .error error ∨ error = .invalidConstraint source ∧
      ∃ branches, Npm.read options source = .ok branches ∧
        ∃ branch ∈ branches, branch.conjunction.StepsOverLast := by
  cases found : Npm.read options source with
  | error cause =>
      have failed := Grammar.read_npm_eq_error_iff.mpr found
      rw [parse, failed]
      simp [bind, Except.bind]
  | ok branches =>
      have reading : Grammar.read (.npm options) source = .ok ⟨branches, none⟩ :=
        Grammar.read_npm_eq_ok_iff.mpr ⟨rfl, found⟩
      have unmade := (exists_parse_npm_iff found).not
      rw [not_not, ← Outcome.exists_eq_error_iff] at unmade
      have named (cause : ConstraintError) (failed : parse (.npm options) source = .error cause) :
          cause = .invalidConstraint source := by
        rw [parse, reading] at failed
        obtain ⟨_, -, same⟩ := Outcome.mapError_eq_error_iff.mp failed
        exact same.symm
      simp only [reduceCtorEq, false_or, Except.ok.injEq, exists_eq_left']
      rw [← unmade]
      constructor
      · intro failed
        exact ⟨named error failed, error, failed⟩
      · intro fails
        obtain ⟨same, cause, failed⟩ := fails
        rw [same, failed, named cause failed]

/-- Every error of a text is one of its faults, and a text with a fault makes no constraint. The
text as a whole is blamed exactly if it is read and one of its branches would have to step over the
last release of a line. No operator is blamed: each token begins with a sigil or none, and those of
ordered comparisons are operators. A text that is read has branches, and each of them has
predicates. -/
theorem parse_npm_faults (options : Npm.Options) (source : String) :
    (∀ error, parse (.npm options) source = .error error → Npm.Fault options source error) ∧
    ((∃ error, parse (.npm options) source = .error error) ↔
      ∃ error, Npm.Fault options source error) ∧
    (∀ text, parse (.npm options) source = .error (.invalidConstraint text) ↔
      text = source ∧ ∃ reading, Grammar.read (.npm options) source = .ok reading ∧
        ∃ branch ∈ reading.branches, branch.conjunction.StepsOverLast) ∧
    (∀ text, parse (.npm options) source ≠ .error (.invalidOperator text)) ∧
    (∀ tokens, Npm.HasTokens source tokens →
      ∀ token ∈ tokens, ∃ mark, Npm.IsMarked token mark) ∧
    ∀ reading, Grammar.read (.npm options) source = .ok reading →
      reading.branches ≠ [] ∧ ∀ branch ∈ reading.branches, branch ≠ [] := by
  have faulty (error : ConstraintError) (failed : parse (.npm options) source = .error error) :
      Npm.Fault options source error := by
    rcases parse_npm_eq_error_iff.mp failed with unread | ⟨same, branches, found, branch, steps⟩
    · exact Npm.fault_of_read unread
    · rw [same]
      exact .stepsOverLast found steps.1 steps.2
  refine ⟨faulty, ⟨?_, ?_⟩, ?_, ?_, fun tokens => Npm.HasTokens.exists_isMarked, ?_⟩
  · intro fails
    obtain ⟨error, failed⟩ := fails
    exact ⟨error, faulty error failed⟩
  · intro isFaulty
    obtain ⟨error, fault⟩ := isFaulty
    cases found : Npm.read options source with
    | error cause => exact ⟨cause, parse_npm_eq_error_iff.mpr (.inl found)⟩
    | ok branches =>
        have steps := fault.stepsOverLast_of_read found
        exact ⟨_, parse_npm_eq_error_iff.mpr (.inr ⟨rfl, branches, found, steps⟩)⟩
  · intro text
    rw [parse_npm_eq_error_iff, or_iff_right (Npm.read_ne_invalidConstraint text),
      ConstraintError.invalidConstraint.injEq]
    apply and_congr_right'
    constructor
    · intro steps
      obtain ⟨branches, found, steps⟩ := steps
      exact ⟨⟨branches, none⟩, Grammar.read_npm_eq_ok_iff.mpr ⟨rfl, found⟩, steps⟩
    · intro steps
      obtain ⟨reading, found, steps⟩ := steps
      exact ⟨reading.branches, (Grammar.read_npm_eq_ok_iff.mp found).2, steps⟩
  · intro text failed
    cases faulty _ failed with
    | descriptor named flaw => cases flaw
  · intro reading found
    have ofNpm := (Grammar.read_npm_eq_ok_iff.mp found).2
    exact ⟨Npm.branches_ne_nil ofNpm, Npm.branch_ne_nil ofNpm⟩

theorem parse_npm_faults_reversed :
    (∃ error, parse (.npm .standard) "2 - 1" = .error error ∧
      Npm.Fault .standard "2 - 1" error) ∧
    parse (.npm .standard) "=1.0.18446744073709551615" =
      .error (.invalidConstraint "=1.0.18446744073709551615") ∧
    (∃ mark, Npm.IsMarked ['<', '=', '1'] mark) ∧
    ∃ reading, Grammar.read (.npm .standard) "1 ||" = .ok reading ∧
      ∀ branch ∈ reading.branches, branch ≠ [] := by
  obtain ⟨faulty, -⟩ := parse_npm_faults .standard "2 - 1"
  obtain ⟨-, -, blamed, -⟩ := parse_npm_faults .standard "=1.0.18446744073709551615"
  obtain ⟨-, -, -, -, marked, -⟩ := parse_npm_faults .standard "<= 1"
  obtain ⟨-, -, -, -, -, nonempty⟩ := parse_npm_faults .standard "1 ||"
  refine ⟨⟨_, rfl, faulty _ rfl⟩, ?_, ?_, ?_⟩
  · let last : Point := Core.toPoint ⟨1, 0, ⟨Component.limit, le_rfl⟩⟩
    have steps : Conjunction.StepsOverLast [⟨.equal, last⟩] :=
      ⟨by simp, .inl ⟨last, List.mem_singleton_self _, rfl, rfl⟩⟩
    exact (blamed _).mpr ⟨rfl, ⟨[Npm.single (.exactly last)], none⟩, rfl, _,
      List.mem_singleton_self _, steps⟩
  · have has : Npm.HasTokens "<= 1" [['<', '=', '1']] :=
      ⟨[[['<', '='], ['1']]], rfl, _, List.mem_singleton_self _, List.cons_ne_nil _ _, rfl⟩
    exact marked _ has _ (List.mem_singleton_self _)
  · exact ⟨_, rfl, (nonempty _ rfl).2⟩

end Constraint

end Versioning
