import Versioning.Proofs.Conjunction.Lowering
import Versioning.Proofs.Npm.Acceptance

/-!
Npm ranges that include pre-releases. A text is read in the same way whether or not they do, except
that the ranges which begin at the floor of a descriptor begin at its least pre-release instead. So
the constraint gains the pre-releases of these floors, and agrees on releases.
-/

namespace Versioning

/-! ### Lowered branches -/

inductive Predicate.Lowers (starts : Point → Prop) : Predicate → Predicate → Prop
  | same {predicate : Predicate} : Lowers starts predicate predicate
  | start {point : Point} (begins : starts point) :
      Lowers starts (.condition (.atLeast point)) (.condition (.atLeast point.withLeastPreRelease))

private theorem Predicate.Lowers.comparators {starts : Point → Prop} {predicate lowered : Predicate}
    (lowers : Lowers starts predicate lowered) :
    Conjunction.Lowers starts predicate.comparators lowered.comparators := by
  cases lowers with
  | same => exact List.forall₂_same.mpr fun _ _ => .same
  | start begins => exact .cons (.start begins) .nil

abbrev Branch.Lowers (starts : Point → Prop) : Branch → Branch → Prop :=
  List.Forall₂ (Predicate.Lowers starts)

namespace Branch.Lowers

variable {starts : Point → Prop} {branch lowered : Branch}

theorem refl : Branch.Lowers starts branch branch :=
  List.forall₂_same.mpr fun _ _ => .same

private theorem conjunction (lowers : Branch.Lowers starts branch lowered) :
    Conjunction.Lowers starts branch.conjunction lowered.conjunction :=
  List.rel_flatMap lowers fun _ _ lowersIt => lowersIt.comparators

private theorem map_conjunction {branches others : List Branch}
    (lowers : List.Forall₂ (Branch.Lowers starts) branches others) :
    List.Forall₂ (Conjunction.Lowers starts) (branches.map Branch.conjunction)
      (others.map Branch.conjunction) := by
  rw [List.forall₂_map_left_iff, List.forall₂_map_right_iff]
  exact lowers.imp fun _ _ => Branch.Lowers.conjunction

private theorem all_isEmpty {branches others : List Branch}
    (lowers : List.Forall₂ (Branch.Lowers starts) branches others) :
    others.all List.isEmpty = branches.all List.isEmpty := by
  induction lowers with
  | nil => rfl
  | cons first later ih =>
      rw [List.all_cons, List.all_cons, ih]
      cases first <;> rfl

end Branch.Lowers

namespace Npm

variable {starts : Point → Prop} {loose : Bool} {descriptor : Descriptor} {branch : Branch}

/-! ### Terms -/

/-- Whether a sigil makes a descriptor a range from its floor on: an x-range, a tilde or a caret, or
`>=` where numbers are left open. -/
def Sigil.IsRange (sigil : Sigil) (descriptor : Descriptor) : Prop :=
  match sigil with
  | .plain | .atLeast => descriptor.precision = 1 ∨ descriptor.precision = 2
  | .tilde | .caret => descriptor.precision ≠ 0
  | .notEqual | .less | .atMost | .greater => False

private theorem bounded_some_eq_ok_iff {start : Point} {stop : Option Point} :
    bounded (some start) stop = .ok branch ↔ (∀ point ∈ stop, start < point) ∧
      branch = .condition (.atLeast start) ::
        stop.toList.map fun point => .condition (.below point) := by
  constructor
  · intro found
    obtain ⟨range, between, found⟩ := Outcome.bind_eq_ok_iff.mp found
    obtain ⟨startEq, stopEq⟩ := Range.bounds_of_between between
    have below := range.start_lt_stop start startEq
    rw [stopEq] at below
    rw [startEq, stopEq] at found
    cases Outcome.pure_eq_ok_iff.mp found
    exact ⟨below, by simp⟩
  · rintro ⟨below, rfl⟩
    refine Outcome.bind_eq_ok_iff.mpr ⟨⟨some start, stop, by simpa using below⟩, ?_, ?_⟩
    · refine Range.between_eq_ok_iff.mpr ⟨rfl, ?_⟩
      cases stop <;> rfl
    · cases stop <;> rfl

/-- Whether the second of two outcomes is a branch as soon as the first is, the same one but for
lower bounds that are moved down. -/
def Lowers (starts : Point → Prop) (outcome lowered : Except ConstraintError Branch) : Prop :=
  ∀ branch, outcome = .ok branch →
    ∃ other, lowered = .ok other ∧ Branch.Lowers starts branch other

namespace Lowers

theorem refl (outcome : Except ConstraintError Branch) : Lowers starts outcome outcome :=
  fun branch found => ⟨branch, found, Branch.Lowers.refl⟩

theorem bind {α : Type} {first : Except ConstraintError α}
    {next nextLowered : α → Except ConstraintError Branch}
    (each : ∀ value, first = .ok value → Lowers starts (next value) (nextLowered value)) :
    Lowers starts (first >>= next) (first >>= nextLowered) := by
  intro branch found
  obtain ⟨value, isValue, found⟩ := Outcome.bind_eq_ok_iff.mp found
  obtain ⟨other, foundOther, lowers⟩ := each value isValue branch found
  exact ⟨other, Outcome.bind_eq_ok_iff.mpr ⟨value, isValue, foundOther⟩, lowers⟩

end Lowers

theorem lowers_bounded {stop : Option Point}
    (begins : descriptor.precision ≠ 0 → starts descriptor.floor) :
    Lowers starts (bounded (lowerBound ⟨loose, false⟩ descriptor) stop)
      (bounded (lowerBound ⟨loose, true⟩ descriptor) stop) := by
  by_cases none : descriptor.precision = 0
  · simp only [lowerBound, none, if_true]
    exact .refl _
  · simp only [lowerBound, if_neg none, if_true, Bool.false_eq_true, if_false]
    intro branch found
    obtain ⟨below, rfl⟩ := bounded_some_eq_ok_iff.mp found
    have belowLowered : ∀ point ∈ stop, descriptor.floor.withLeastPreRelease < point :=
      fun point stops => descriptor.floor.withLeastPreRelease_le.trans_lt (below point stops)
    exact ⟨_, bounded_some_eq_ok_iff.mpr ⟨belowLowered, rfl⟩,
      .cons (.start (begins none)) Branch.Lowers.refl⟩

private theorem lowers_plain (begins : Sigil.plain.IsRange descriptor → starts descriptor.floor) :
    Lowers starts (plain ⟨loose, false⟩ descriptor) (plain ⟨loose, true⟩ descriptor) := by
  unfold plain
  split
  · exact .refl _
  · next one => exact .bind fun stop _ => lowers_bounded fun _ => begins (.inl one)
  · next two => exact .bind fun stop _ => lowers_bounded fun _ => begins (.inr two)
  · exact .refl _

private theorem lowers_tilde (begins : Sigil.tilde.IsRange descriptor → starts descriptor.floor) :
    Lowers starts (tilde ⟨loose, false⟩ descriptor) (tilde ⟨loose, true⟩ descriptor) := by
  unfold tilde
  split_ifs
  · exact .refl _
  · exact .bind fun stop _ => lowers_bounded begins

private theorem lowers_caret (begins : Sigil.caret.IsRange descriptor → starts descriptor.floor) :
    Lowers starts (caret ⟨loose, false⟩ descriptor) (caret ⟨loose, true⟩ descriptor) := by
  unfold caret
  split_ifs
  · exact .refl _
  · exact .bind fun stop _ => lowers_bounded begins

private theorem lowers_atLeast
    (begins : Sigil.atLeast.IsRange descriptor → starts descriptor.floor) :
    Lowers starts (atLeast ⟨loose, false⟩ descriptor) (atLeast ⟨loose, true⟩ descriptor) := by
  unfold atLeast
  split
  · exact .refl _
  · exact .refl _
  · next incomplete =>
    exact lowers_bounded fun numbered =>
      begins (Descriptor.precision_of_incomplete numbered incomplete)

private theorem lowers_term {source : String} {sigil : Sigil}
    (begins : sigil.IsRange descriptor → starts descriptor.floor) :
    Lowers starts (term ⟨loose, false⟩ source sigil descriptor)
      (term ⟨loose, true⟩ source sigil descriptor) := by
  cases sigil with
  | plain => exact lowers_plain begins
  | tilde => exact lowers_tilde begins
  | caret => exact lowers_caret begins
  | atLeast => exact lowers_atLeast begins
  | _ => exact .refl _

theorem lowers_hyphen {low high : Descriptor} (begins : low.precision ≠ 0 → starts low.floor) :
    Lowers starts (hyphen ⟨loose, false⟩ low high) (hyphen ⟨loose, true⟩ low high) := by
  refine .bind fun stop _ branch found => ?_
  obtain ⟨range, limits, found⟩ := Outcome.bind_eq_ok_iff.mp found
  obtain ⟨other, limitsLowered, lowers⟩ := lowers_bounded begins range limits
  split at found
  · next complete =>
    obtain ⟨last, compared, found⟩ := Outcome.bind_eq_ok_iff.mp found
    cases Outcome.pure_eq_ok_iff.mp found
    refine ⟨other.dropLast ++ last, Outcome.bind_eq_ok_iff.mpr ⟨other, limitsLowered, ?_⟩, ?_⟩
    · rw [if_pos complete, compared]
      rfl
    · rw [List.dropLast_eq_take, List.dropLast_eq_take, ← lowers.length_eq]
      exact List.rel_append (List.forall₂_take _ lowers) Branch.Lowers.refl
  · next incomplete =>
    cases Outcome.pure_eq_ok_iff.mp found
    refine ⟨other, Outcome.bind_eq_ok_iff.mpr ⟨other, limitsLowered, ?_⟩, lowers⟩
    rw [if_neg incomplete]
    rfl

/-! ### Texts -/

def TokensBeginRange (dialect : Descriptor.Dialect) (tokens : List Word)
    (descriptor : Descriptor) : Prop :=
  match tokens with
  | [low, ['-'], _] => Descriptor.ofChars dialect low = .ok descriptor ∧ descriptor.precision ≠ 0
  | tokens => ∃ token ∈ tokens,
      Descriptor.ofChars dialect (Sigil.read token).2 = .ok descriptor ∧
        (Sigil.read token).1.IsRange descriptor

/-- Whether a range in a text begins at the floor of a descriptor. -/
def BeginsRange (dialect : Descriptor.Dialect) (source : String) (descriptor : Descriptor) : Prop :=
  ∃ list, alternatives source = .ok list ∧
    ∃ words ∈ list, TokensBeginRange dialect (glue [] words) descriptor

private theorem lowers_readTerm {source : String} {token : Word} (begins : ∀ descriptor,
      Descriptor.ofChars (Options.dialect ⟨loose, true⟩) (Sigil.read token).2 = .ok descriptor →
        (Sigil.read token).1.IsRange descriptor → starts descriptor.floor) :
    Lowers starts (readTerm ⟨loose, false⟩ source token) (readTerm ⟨loose, true⟩ source token) :=
  .bind fun descriptor described => lowers_term (begins descriptor described)

private theorem lowers_readTokens {source : String} {tokens : List Word}
    (begins : ∀ descriptor, TokensBeginRange (Options.dialect ⟨loose, true⟩) tokens descriptor →
      starts descriptor.floor) :
    Lowers starts (readTokens ⟨loose, false⟩ source tokens)
      (readTokens ⟨loose, true⟩ source tokens) := by
  unfold readTokens
  split
  · exact .bind fun low described => .bind fun high _ => lowers_hyphen fun numbered =>
      begins low ⟨described, numbered⟩
  · next _ apart =>
    -- without a dash between two of them all tokens are terms
    have beginsEach : ∀ token ∈ tokens, ∀ descriptor,
        Descriptor.ofChars (Options.dialect ⟨loose, true⟩) (Sigil.read token).2 = .ok descriptor →
          (Sigil.read token).1.IsRange descriptor → starts descriptor.floor := by
      intro token member descriptor described range
      apply begins
      unfold TokensBeginRange
      split
      · exact (apart _ _ rfl).elim
      · exact ⟨token, member, described, range⟩
    intro branch found
    obtain ⟨branches, terms, rfl⟩ := Outcome.map_eq_ok_iff.mp found
    obtain ⟨others, termsLowered, lowers⟩ := Outcome.exists_mapM_related
      (fun token member => lowers_readTerm (beginsEach token member)) terms
    exact ⟨_, Outcome.map_eq_ok_iff.mpr ⟨others, termsLowered, rfl⟩, List.rel_flatten lowers⟩

private theorem lowers_readBranch {source : String} {words : List Word} (begins : ∀ descriptor,
      TokensBeginRange (Options.dialect ⟨loose, true⟩) (glue [] words) descriptor →
        starts descriptor.floor) :
    Lowers starts (readBranch ⟨loose, false⟩ source words)
      (readBranch ⟨loose, true⟩ source words) := by
  cases words with
  | nil => exact .refl _
  | cons word rest => exact lowers_readTokens begins

private theorem exists_read_lowered {source : String} {branches : List Branch}
    (begins : ∀ descriptor, BeginsRange (Options.dialect ⟨loose, true⟩) source descriptor →
      starts descriptor.floor)
    (found : read ⟨loose, false⟩ source = .ok branches) :
    ∃ lowered, read ⟨loose, true⟩ source = .ok lowered ∧
      List.Forall₂ (Branch.Lowers starts) branches lowered := by
  obtain ⟨list, cut, found⟩ := Outcome.bind_eq_ok_iff.mp found
  obtain ⟨lowered, foundLowered, lowers⟩ := Outcome.exists_mapM_related
    (fun words member => lowers_readBranch fun descriptor range =>
      begins descriptor ⟨list, cut, words, member, range⟩) found
  exact ⟨lowered, Outcome.bind_eq_ok_iff.mpr ⟨list, cut, foundLowered⟩, lowers⟩

end Npm

namespace Constraint

/-- Including pre-releases is conservative. Where a text makes a constraint without them it makes a
wider one with them, which agrees on releases. What is gained are pre-releases with the core of a
floor at which a range of the text begins. -/
theorem exists_parse_including_preReleases {loose : Bool} {source : String}
    {constraint : Constraint} (parsed : parse (.npm ⟨loose, false⟩) source = .ok constraint) :
    ∃ wider, parse (.npm ⟨loose, true⟩) source = .ok wider ∧
      (∀ version, constraint.admits true version = true → wider.admits true version = true) ∧
      (∀ asked version, version.isPreRelease = false →
        wider.admits asked version = constraint.admits asked version) ∧
      ∀ asked version, wider.admits asked version = true →
        constraint.admits asked version = false →
          version.isPreRelease = true ∧ ∃ descriptor,
            Npm.BeginsRange (Npm.Options.dialect ⟨loose, true⟩) source descriptor ∧
              version.toCore = descriptor.floor.toCore := by
  let starts := fun (point : Point) => ∃ descriptor,
    Npm.BeginsRange (Npm.Options.dialect ⟨loose, true⟩) source descriptor ∧
      descriptor.floor = point
  obtain ⟨readBranches, some, -⟩ := parse_npm_eq_ok_iff.mp parsed
  have begins (descriptor : Descriptor)
      (range : Npm.BeginsRange (Npm.Options.dialect ⟨loose, true⟩) source descriptor) :
      starts descriptor.floor := ⟨descriptor, range, rfl⟩
  obtain ⟨branches, readLowered, lowers⟩ := Npm.exists_read_lowered begins readBranches
  obtain ⟨ranges, normal, covers, coversOr⟩ :=
    exists_normalize_of_lowers (Branch.Lowers.map_conjunction lowers) constraint.ranges_eq
  obtain ⟨wider, parsedLowered, rfl⟩ := exists_parse
    (Grammar.read_npm_eq_ok_iff.mpr ⟨rfl, readLowered⟩)
    ((Branch.Lowers.all_isEmpty lowers).trans some) ⟨ranges, normal⟩
  obtain rfl : ranges = wider.ranges.toList :=
    Except.ok.inj (normal.symm.trans wider.ranges_eq)
  refine ⟨wider, parsedLowered, ?_, ?_, ?_⟩
  · intro version admitted
    exact admits_including_iff.mpr (covers _ (admits_including_iff.mp admitted))
  · intro asked version release
    rw [Bool.eq_iff_iff, admits_iff_covers_of_release release,
      admits_iff_covers_of_release release]
    refine ⟨fun covered => (coversOr _ covered).resolve_right fun gained => ?_, covers _⟩
    exact Bool.eq_false_iff.mp release gained.1
  · intro asked version admitted refused
    rcases coversOr _ (covers_of_admits admitted) with covered | gained
    · exact absurd (admits_of_covers covers admitted covered) (Bool.eq_false_iff.mp refused)
    · obtain ⟨preRelease, _, ⟨descriptor, range, rfl⟩, sameCore⟩ := gained
      exact ⟨preRelease, descriptor, range, sameCore⟩

theorem exists_parse_including_preReleases_hyphen :
    ∃ (constraint wider : Constraint) (version : Version),
      parse (.npm ⟨false, false⟩) "^1.2.3 !=1.3 || 3 - 4.x" = .ok constraint ∧
        parse (.npm ⟨false, true⟩) "^1.2.3 !=1.3 || 3 - 4.x" = .ok wider ∧
        Version.parse "3.0.0-0" = .ok version ∧
        constraint.admits true version = false ∧ wider.admits true version = true ∧
        ∃ descriptor, Npm.BeginsRange .npm "^1.2.3 !=1.3 || 3 - 4.x" descriptor ∧
          version.toCore = descriptor.floor.toCore := by
  obtain ⟨constraint, parsed, branches⟩ : ∃ constraint,
      parse (.npm ⟨false, false⟩) "^1.2.3 !=1.3 || 3 - 4.x" = .ok constraint ∧
        constraint.branches = [_, _] := exists_parse rfl rfl ⟨_, rfl⟩
  obtain ⟨lowered, parsedLowered, lowers⟩ : ∃ lowered,
      parse (.npm ⟨false, true⟩) "^1.2.3 !=1.3 || 3 - 4.x" = .ok lowered ∧
        lowered.branches = [_, _] := exists_parse rfl rfl ⟨_, rfl⟩
  obtain ⟨wider, parsedWider, -, -, gained⟩ := exists_parse_including_preReleases parsed
  obtain rfl : lowered = wider := Except.ok.inj (parsedLowered.symm.trans parsedWider)
  let version : Version := ⟨⟨⟨⟨3, by decide⟩, 0, 0⟩, some .least⟩, none⟩
  have refused : constraint.admits true version = false := by
    rw [Bool.eq_false_iff, ne_eq, admits_including_iff, covers_iff, branches]
    decide
  have admitted : lowered.admits true version = true := by
    rw [admits_including_iff, covers_iff, lowers]
    decide
  exact ⟨constraint, lowered, version, parsed, parsedLowered, rfl, refused, admitted,
    (gained true version admitted refused).2⟩

end Constraint

end Versioning
