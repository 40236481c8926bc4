import Versioning.Proofs.Version.Identifiers

/-!
What the reader of complete versions accepts and what it refuses. It reads the texts of semantic
versioning whose numbers are in range, and the version that it reads has this very text. Every other
text is refused for the first of its faults, in the order in which the fields get their values.
-/

namespace Versioning

/-! ### Numbers -/

/-- A number as the overall pattern has it: behind the first digit, digits of any script may
stand. -/
def IsPatternNumber (text : List Char) : Prop :=
  text = ['0'] ∨ ∃ first others, text = first :: others ∧ first.isDigit = true ∧ first ≠ '0' ∧
    ∀ c ∈ others, Text.isDecimalDigit c = true

def IsInRange (text : List Char) : Prop :=
  (∀ c ∈ text, c.isDigit = true) ∧ Nat.ofDigitChars 10 text 0 ≤ Component.limit

theorem IsPatternNumber.ne_nil {text : List Char} (pattern : IsPatternNumber text) :
    text ≠ [] := by
  rcases pattern with rfl | ⟨first, others, rfl, -⟩ <;> exact List.cons_ne_nil _ _

private theorem IsPatternNumber.isUnpadded {text : List Char} (pattern : IsPatternNumber text)
    (digits : ∀ c ∈ text, c.isDigit = true) : IsUnpadded text where
  ne_nil := pattern.ne_nil
  digits := digits
  noLeadingZero zero := by
    rcases pattern with same | ⟨first, others, rfl, -, other, -⟩
    · exact same
    · exact absurd (Option.some.inj zero) other

private theorem IsUnpadded.isPatternNumber {text : List Char} (unpadded : IsUnpadded text) :
    IsPatternNumber text := by
  cases text with
  | nil => exact absurd rfl unpadded.ne_nil
  | cons first others =>
      obtain ⟨digit, digits⟩ := List.forall_mem_cons.mp unpadded.digits
      by_cases zero : first = '0'
      · exact .inl (unpadded.noLeadingZero (congrArg some zero))
      · exact .inr ⟨first, others, rfl, digit, zero, fun c member =>
          Text.isDecimalDigit_of_isDigit (digits c member)⟩

theorem Component.ofDigits?_eq_some_iff {digits : List Char} {component : Component} :
    ofDigits? digits = some component ↔ digits ≠ [] ∧ (∀ c ∈ digits, c.isDigit = true) ∧
      Nat.ofDigitChars 10 digits 0 = component.value := by
  unfold ofDigits?
  split
  · next refused =>
    rw [Bool.or_eq_true, List.isEmpty_iff, Bool.not_eq_true'] at refused
    refine iff_of_false (by simp) ?_
    rintro ⟨nonempty, digits, -⟩
    rw [List.all_eq_true.mpr digits] at refused
    exact refused.elim nonempty Bool.noConfusion
  · next accepted =>
    rw [Bool.or_eq_true, List.isEmpty_iff, Bool.not_eq_true', not_or, Bool.not_eq_false,
      List.all_eq_true] at accepted
    constructor
    · intro found
      simp only at found
      split at found
      · cases found
        exact ⟨accepted.1, accepted.2, rfl⟩
      · cases found
    · rintro ⟨-, -, same⟩
      have fits : Nat.ofDigitChars 10 digits 0 ≤ limit := same ▸ component.value_le
      simp only [fits, dite_true, Option.some.injEq]
      exact Component.ext same

namespace Version

variable {number : List Char}

theorem toDigits_of_readComponent {component : Component} (pattern : IsPatternNumber number)
    (read : readComponent (some number) = .ok component) :
    Nat.toDigits 10 component.value = number := by
  rw [readComponent] at read
  split at read
  · next found =>
    cases read
    obtain ⟨-, digits, same⟩ := Component.ofDigits?_eq_some_iff.mp found
    rw [← same, (pattern.isUnpadded digits).toDigits]
  · cases read

theorem readComponent_eq_error_iff (pattern : IsPatternNumber number) {error : VersionError} :
    readComponent (some number) = .error error ↔
      ¬IsInRange number ∧ error = .componentOverflow (String.ofList number) := by
  rw [readComponent]
  split
  · next component found =>
    obtain ⟨-, digits, same⟩ := Component.ofDigits?_eq_some_iff.mp found
    refine iff_of_false (by simp) ?_
    rintro ⟨outOfRange, -⟩
    exact outOfRange ⟨digits, same ▸ component.value_le⟩
  · next missing =>
    have outOfRange : ¬IsInRange number := by
      rintro ⟨digits, fits⟩
      have found : Component.ofDigits? number = some ⟨_, fits⟩ :=
        Component.ofDigits?_eq_some_iff.mpr ⟨pattern.ne_nil, digits, rfl⟩
      rw [missing] at found
      cases found
    rw [Except.error.injEq, eq_comm]
    exact (and_iff_right outOfRange).symm

private theorem exists_readComponent_iff (pattern : IsPatternNumber number) :
    (∃ component, readComponent (some number) = .ok component) ↔ IsInRange number := by
  cases outcome : readComponent (some number) with
  | ok component =>
      refine iff_of_true ⟨component, rfl⟩ (Classical.not_not.mp fun outOfRange => ?_)
      rw [(readComponent_eq_error_iff pattern).mpr ⟨outOfRange, rfl⟩] at outcome
      cases outcome
  | error error =>
      have outOfRange := ((readComponent_eq_error_iff pattern).mp outcome).1
      exact iff_of_false (by simp) outOfRange

end Version

/-! ### Fields -/

namespace Fields

def numbers (fields : Fields) : List (List Char) :=
  fields.major :: (fields.minor.toList ++ fields.patch.toList)

/-- Whether fields make a text of the overall pattern: three numbers, then perhaps a run of
identifier characters and dots behind a hyphen, and one behind a plus. -/
structure HasPattern (fields : Fields) : Prop where
  minor : fields.minor.isSome = true
  patch : fields.patch.isSome = true
  numbers : ∀ number ∈ fields.numbers, IsPatternNumber number
  preRelease : ∀ text ∈ fields.preRelease, Spelling.IsSuffix text
  build : ∀ text ∈ fields.build, Spelling.IsSuffix text

/-- Whether fields make a text of semantic versioning. -/
structure IsSemver (fields : Fields) : Prop where
  minor : fields.minor.isSome = true
  patch : fields.patch.isSome = true
  numbers : ∀ number ∈ fields.numbers, IsUnpadded number
  preRelease : ∀ text ∈ fields.preRelease, IsDotted IsPreReleaseIdentifierText text
  build : ∀ text ∈ fields.build, IsDotted IsIdentifierText text

private theorem IsSemver.hasPattern {fields : Fields} (semver : fields.IsSemver) :
    fields.HasPattern :=
  { semver with
    numbers := fun number among => (semver.numbers number among).isPatternNumber
    preRelease := fun text present => (semver.preRelease text present).identifiers.isSuffix
    build := fun text present => (semver.build text present).isSuffix }

/-- Why fields of the overall pattern make no version: the first of their faults, pre-release before
build metadata before the numbers in order. -/
inductive Refused (source : String) (fields : Fields) : VersionError → Prop
  | preRelease {text : List Char} {fault : PreReleaseFault} (present : text ∈ fields.preRelease)
      (isFault : IsPreReleaseFault text fault) :
      Refused source fields (.invalidPreRelease (String.ofList text) fault)
  | build {text : List Char}
      (validPreRelease : ∀ text ∈ fields.preRelease, IsDotted IsPreReleaseIdentifierText text)
      (present : text ∈ fields.build) (invalid : ¬IsDotted IsIdentifierText text) :
      Refused source fields (.invalidVersion source)
  | number {front back : List (List Char)} {number : List Char}
      (validPreRelease : ∀ text ∈ fields.preRelease, IsDotted IsPreReleaseIdentifierText text)
      (validBuild : ∀ text ∈ fields.build, IsDotted IsIdentifierText text)
      (cut : fields.numbers = front ++ number :: back)
      (inRange : ∀ earlier ∈ front, IsInRange earlier) (outOfRange : ¬IsInRange number) :
      Refused source fields (.componentOverflow (String.ofList number))

private theorem IsSemver.not_refused {source : String} {fields : Fields} (semver : fields.IsSemver)
    (inRange : ∀ number ∈ fields.numbers, Nat.ofDigitChars 10 number 0 ≤ Component.limit)
    {error : VersionError} : ¬fields.Refused source error := by
  intro refused
  cases refused with
  | preRelease present isFault =>
      cases isFault with
      | @first front back part cut valid invalid =>
          exact invalid (semver.preRelease _ present part (by simp [cut]))
  | build validPreRelease present invalid => exact invalid (semver.build _ present)
  | @number front back number validPreRelease validBuild cut earlier outOfRange =>
      have among : number ∈ fields.numbers := by simp [cut]
      exact outOfRange ⟨(semver.numbers number among).digits, inRange number among⟩

end Fields

namespace Spelling

private theorem isNumeral_strict_iff {text : List Char} :
    strict.IsNumeral text ↔ IsPatternNumber text := by
  constructor
  · intro isNumeral
    cases isNumeral with
    | wildcard allowed => cases allowed
    | zero => exact .inl rfl
    | @digits first others digit each =>
        have ascii := digit.resolve_right fun padded => Bool.noConfusion padded.1
        exact .inr ⟨first, others, rfl, ascii.1, ascii.2, each⟩
  · rintro (rfl | ⟨first, others, rfl, digit, other, each⟩)
    · exact .zero
    · exact .digits (.inl ⟨digit, other⟩) each

private theorem fits_strict_iff {fields : Fields} : strict.Fits fields ↔ fields.HasPattern := by
  obtain ⟨major, minor, patch, preRelease, build⟩ := fields
  constructor
  · intro fits
    have complete : patch.isSome = true := fits.complete.resolve_right Bool.noConfusion
    have minorPresent : minor.isSome = true := by
      cases present : minor with
      | some number => rfl
      | none =>
          have noPatch : patch = none := fits.inOrder present
          rw [noPatch] at complete
          cases complete
    refine ⟨minorPresent, complete, fun number among => isNumeral_strict_iff.mp ?_,
      fits.preRelease, fits.build⟩
    simp only [Fields.numbers, List.mem_cons, List.mem_append, Option.mem_toList] at among
    rcases among with rfl | isMinor | isPatch
    · exact fits.major
    · exact fits.minor number isMinor
    · exact fits.patch number isPatch
  · intro pattern
    have numeral (number : List Char) (among : number = major ∨ minor = some number ∨
        patch = some number) : strict.IsNumeral number := by
      refine isNumeral_strict_iff.mpr (pattern.numbers number ?_)
      simpa [Fields.numbers] using among
    refine ⟨numeral major (.inl rfl), fun number isMinor => numeral number (.inr (.inl isMinor)),
      fun number isPatch => numeral number (.inr (.inr isPatch)), pattern.preRelease,
      pattern.build, fun missing => ?_, .inl pattern.patch, .inl pattern.patch, .inr rfl⟩
    have present : minor.isSome = true := pattern.minor
    rw [show minor = none from missing] at present
    cases present

/-- A text is cut into fields of a complete version exactly if they have the overall pattern and
make this text. -/
theorem read?_strict_eq_some_iff {text : List Char} {fields : Fields} :
    strict.read? text = some fields ↔ fields.HasPattern ∧ fields.text = text := by
  constructor
  · intro found
    obtain ⟨fits, front, preRelease, written, -, noMarks, writesPreRelease⟩ :=
      writes_of_read? found
    refine ⟨fits_strict_iff.mp fits, ?_⟩
    rw [written, noMarks rfl, writesPreRelease.eq_led rfl, List.nil_append]
    rfl
  · rintro ⟨pattern, rfl⟩
    exact (fits_strict_iff.mpr pattern).read?_text

end Spelling

namespace Version

variable {source : String} {fields : Fields}

theorem exists_of_mem_numbers_fields {version : Version} {number : List Char}
    (among : number ∈ version.fields.numbers) :
    ∃ component : Component, number = Nat.toDigits 10 component.value := by
  simp only [fields, Fields.numbers, Option.toList_some, List.singleton_append, List.mem_cons,
    List.not_mem_nil, or_false] at among
  rcases among with same | same | same <;> exact ⟨_, same⟩

private theorem isSemver_fields (version : Version) : version.fields.IsSemver where
  minor := rfl
  patch := rfl
  numbers number among := by
    obtain ⟨component, rfl⟩ := exists_of_mem_numbers_fields among
    exact isUnpadded_toDigits component.value
  preRelease text present := by
    obtain ⟨preRelease, -, rfl⟩ := Option.map_eq_some_iff.mp present
    exact (PreRelease.exists_ofChars_iff preRelease.isSuffix_text).mp
      ⟨preRelease, preRelease.ofChars_text⟩
  build text present := by
    obtain ⟨build, -, rfl⟩ := Option.map_eq_some_iff.mp present
    exact isBuildText_iff.mp build.valid

private theorem ofDigitChars_fields_le (version : Version) :
    ∀ number ∈ version.fields.numbers, Nat.ofDigitChars 10 number 0 ≤ Component.limit := by
  intro number among
  obtain ⟨component, rfl⟩ := exists_of_mem_numbers_fields among
  rw [Nat.ofDigitChars_ten_toDigits]
  exact component.value_le

theorem toList_text_of_readBuild {text : List Char} {build : BuildMetadata}
    (read : readBuild source text = .ok build) : build.text.toList = text := by
  rw [readBuild] at read
  split at read
  · next accepted =>
    cases read
    rw [BuildMetadata.ofString?] at accepted
    split at accepted
    · cases accepted
      exact String.toList_ofList
    · cases accepted
  · cases read

theorem readBuild_eq_error_iff {text : List Char} {error : VersionError} :
    readBuild source text = .error error ↔
      ¬IsDotted IsIdentifierText text ∧ error = .invalidVersion source := by
  simp only [readBuild, BuildMetadata.ofString?, String.toList_ofList]
  by_cases valid : isBuildText text = true
  · simp [valid, isBuildText_iff.mp valid]
  · simp [valid, mt isBuildText_iff.mpr valid, eq_comm]

private theorem exists_readBuild_iff {text : List Char} :
    (∃ build, readBuild source text = .ok build) ↔ IsDotted IsIdentifierText text := by
  cases outcome : readBuild source text with
  | ok build =>
      refine iff_of_true ⟨build, rfl⟩ (toList_text_of_readBuild outcome ▸ ?_)
      exact isBuildText_iff.mp build.valid
  | error error =>
      exact iff_of_false (by simp) (readBuild_eq_error_iff.mp outcome).1

theorem fields_of_ofFields (pattern : fields.HasPattern) {version : Version}
    (read : ofFields source fields = .ok version) : version.fields = fields := by
  obtain ⟨major, minor, patch, preRelease, build⟩ := fields
  obtain ⟨minor, rfl⟩ : ∃ number, minor = some number := Option.isSome_iff_exists.mp pattern.minor
  obtain ⟨patch, rfl⟩ : ∃ number, patch = some number := Option.isSome_iff_exists.mp pattern.patch
  have numbers (number : List Char) (among : number ∈ [major, minor, patch]) :
      IsPatternNumber number := pattern.numbers number among
  -- the order in which the fields get their values
  obtain ⟨preReleaseValue, readPreRelease, read⟩ := Outcome.bind_eq_ok_iff.mp read
  obtain ⟨buildValue, readBuild, read⟩ := Outcome.bind_eq_ok_iff.mp read
  obtain ⟨majorValue, readMajor, read⟩ := Outcome.bind_eq_ok_iff.mp read
  obtain ⟨minorValue, readMinor, read⟩ := Outcome.bind_eq_ok_iff.mp read
  obtain ⟨patchValue, readPatch, read⟩ := Outcome.bind_eq_ok_iff.mp read
  cases Outcome.pure_eq_ok_iff.mp read
  simp only [Version.fields, Fields.mk.injEq, Option.some.injEq]
  refine ⟨toDigits_of_readComponent (numbers _ (by simp)) readMajor,
    toDigits_of_readComponent (numbers _ (by simp)) readMinor,
    toDigits_of_readComponent (numbers _ (by simp)) readPatch,
    Outcome.map_of_mapM_option (fun text value found => ?_) readPreRelease,
    Outcome.map_of_mapM_option (fun _ _ found => toList_text_of_readBuild found) readBuild⟩
  rw [PreRelease.toList_text_of_ofChars (Outcome.mapError_eq_ok_iff.mp found),
    String.toList_ofList]

private theorem exists_mapM_parse_iff (pattern : fields.HasPattern) :
    (∃ value, fields.preRelease.mapM (fun text => PreRelease.parse (String.ofList text)) =
      .ok value) ↔
    ∀ text ∈ fields.preRelease, IsDotted IsPreReleaseIdentifierText text := by
  rw [Outcome.exists_mapM_option_iff]
  exact forall₂_congr fun text present =>
    PreRelease.exists_parse_iff (pattern.preRelease text present)

private theorem exists_mapM_readBuild_iff (source : String) (fields : Fields) :
    (∃ value, fields.build.mapM (readBuild source) = .ok value) ↔
      ∀ text ∈ fields.build, IsDotted IsIdentifierText text := by
  rw [Outcome.exists_mapM_option_iff]
  exact forall₂_congr fun text _ => exists_readBuild_iff

private theorem mapM_readComponent_eq_error_iff {numbers : List (List Char)}
    (pattern : ∀ number ∈ numbers, IsPatternNumber number) (error : VersionError) :
    numbers.mapM (fun number => readComponent (some number)) = .error error ↔
      ∃ front number back, numbers = front ++ number :: back ∧
        (∀ earlier ∈ front, IsInRange earlier) ∧ ¬IsInRange number ∧
        error = .componentOverflow (String.ofList number) := by
  rw [Outcome.mapM_eq_error_iff]
  refine exists_congr fun front => exists_congr fun number => exists_congr fun back =>
    and_congr_right fun cut => ?_
  rw [cut] at pattern
  refine and_congr (forall₂_congr fun earlier among => ?_) ?_
  · exact exists_readComponent_iff (pattern earlier (by simp [among]))
  · exact readComponent_eq_error_iff (pattern number (by simp))

private theorem readComponents_eq_error_iff {α : Type} {major minor patch : List Char}
    {make : Component → Component → Component → α} {error : VersionError} :
    (do
      let major ← readComponent (some major)
      let minor ← readComponent (some minor)
      let patch ← readComponent (some patch)
      return make major minor patch) = .error error ↔
    [major, minor, patch].mapM (fun number => readComponent (some number)) = .error error := by
  rw [List.mapM_cons, List.mapM_cons, List.mapM_cons, List.mapM_nil]
  cases readComponent (some major) <;> cases readComponent (some minor) <;>
    cases readComponent (some patch) <;> simp [bind, Except.bind, pure, Except.pure]

theorem ofFields_eq_error_iff (pattern : fields.HasPattern) {error : VersionError} :
    ofFields source fields = .error error ↔ fields.Refused source error := by
  have preReleaseReads := exists_mapM_parse_iff pattern
  have buildReads := exists_mapM_readBuild_iff source fields
  have numbers := mapM_readComponent_eq_error_iff pattern.numbers error
  obtain ⟨major, minor, patch, preRelease, build⟩ := fields
  obtain ⟨minor, rfl⟩ : ∃ number, minor = some number := Option.isSome_iff_exists.mp pattern.minor
  obtain ⟨patch, rfl⟩ : ∃ number, patch = some number := Option.isSome_iff_exists.mp pattern.patch
  -- a later field is the reason only where all the earlier ones have their values
  constructor
  · intro failed
    rcases Outcome.bind_eq_error_iff.mp failed with atPreRelease | ⟨_, readPreRelease, failed⟩
    · obtain ⟨text, present, failed⟩ := Outcome.mapM_option_eq_error_iff.mp atPreRelease
      obtain ⟨fault, isFault, rfl⟩ :=
        (PreRelease.parse_eq_error_iff (pattern.preRelease text present)).mp failed
      exact .preRelease present isFault
    have validPreRelease := preReleaseReads.mp ⟨_, readPreRelease⟩
    rcases Outcome.bind_eq_error_iff.mp failed with atBuild | ⟨_, readBuild, failed⟩
    · obtain ⟨text, present, failed⟩ := Outcome.mapM_option_eq_error_iff.mp atBuild
      obtain ⟨invalid, rfl⟩ := readBuild_eq_error_iff.mp failed
      exact .build validPreRelease present invalid
    have validBuild := buildReads.mp ⟨_, readBuild⟩
    obtain ⟨front, number, back, cut, inRange, outOfRange, rfl⟩ :=
      numbers.mp (readComponents_eq_error_iff.mp failed)
    exact .number validPreRelease validBuild cut inRange outOfRange
  · intro refused
    cases refused with
    | preRelease present isFault =>
        refine Outcome.bind_eq_error_iff.mpr (.inl (Outcome.mapM_option_eq_error_iff.mpr
          ⟨_, present, ?_⟩))
        exact (PreRelease.parse_eq_error_iff (pattern.preRelease _ present)).mpr ⟨_, isFault, rfl⟩
    | build validPreRelease present invalid =>
        obtain ⟨value, readPreRelease⟩ := preReleaseReads.mpr validPreRelease
        refine Outcome.bind_eq_error_iff.mpr (.inr ⟨value, readPreRelease,
          Outcome.bind_eq_error_iff.mpr (.inl (Outcome.mapM_option_eq_error_iff.mpr
            ⟨_, present, ?_⟩))⟩)
        exact readBuild_eq_error_iff.mpr ⟨invalid, rfl⟩
    | number validPreRelease validBuild cut inRange outOfRange =>
        obtain ⟨value, readPreRelease⟩ := preReleaseReads.mpr validPreRelease
        obtain ⟨buildValue, readBuild⟩ := buildReads.mpr validBuild
        refine Outcome.bind_eq_error_iff.mpr (.inr ⟨value, readPreRelease,
          Outcome.bind_eq_error_iff.mpr (.inr ⟨buildValue, readBuild, ?_⟩)⟩)
        exact readComponents_eq_error_iff.mpr
          (numbers.mpr ⟨_, _, _, cut, inRange, outOfRange, rfl⟩)

/-- Why a text is no version: it does not have the overall pattern, or its fields are refused. -/
inductive Refused (source : String) : VersionError → Prop
  | pattern (none : ¬∃ fields : Fields, fields.HasPattern ∧ fields.text = source.toList) :
      Refused source (.invalidVersion source)
  | fields {fields : Fields} {error : VersionError} (pattern : fields.HasPattern)
      (written : fields.text = source.toList) (refused : fields.Refused source error) :
      Refused source error

theorem parse_of_hasPattern (pattern : fields.HasPattern) (written : fields.text = source.toList) :
    parse source = ofFields source fields := by
  rw [parse, Spelling.read?_strict_eq_some_iff.mpr ⟨pattern, written⟩]

theorem fields_of_parse {version : Version} (read : parse source = .ok version) :
    version.fields.text = source.toList := by
  rw [parse] at read
  split at read
  · next fields cut =>
    obtain ⟨pattern, written⟩ := Spelling.read?_strict_eq_some_iff.mp cut
    rw [fields_of_ofFields pattern read, written]
  · cases read

private theorem parse_eq_error_iff {error : VersionError} :
    parse source = .error error ↔ Refused source error := by
  constructor
  · intro failed
    rw [parse] at failed
    split at failed
    · next fields cut =>
      obtain ⟨pattern, written⟩ := Spelling.read?_strict_eq_some_iff.mp cut
      exact .fields pattern written ((ofFields_eq_error_iff pattern).mp failed)
    · next uncut =>
      cases failed
      refine .pattern ?_
      rintro ⟨fields, pattern, written⟩
      rw [Spelling.read?_strict_eq_some_iff.mpr ⟨pattern, written⟩] at uncut
      cases uncut
  · intro refused
    cases refused with
    | fields pattern written refused =>
        rw [parse_of_hasPattern pattern written]
        exact (ofFields_eq_error_iff pattern).mpr refused
    | pattern none =>
        rw [parse]
        split
        · next fields cut =>
          exact absurd ⟨fields, Spelling.read?_strict_eq_some_iff.mp cut⟩ none
        · rfl

/-- A version is read from its text. What is read from any text has this text, and it is read from
the texts of semantic versioning whose numbers are in range. Other texts are refused for the first
of their faults. -/
theorem parse_is_strict :
    (∀ version : Version, parse version.text = .ok version) ∧ ∀ source : String,
      (∀ version, parse source = .ok version → version.text = source) ∧
      ((∃ version, parse source = .ok version) ↔
        ∃ fields : Fields, fields.IsSemver ∧ fields.text = source.toList ∧
          ∀ number ∈ fields.numbers, Nat.ofDigitChars 10 number 0 ≤ Component.limit) ∧
      (∀ error, parse source = .error error ↔ Refused source error) := by
  refine ⟨parse_text, fun source => ⟨fun version read => ?_, ?_, fun error => parse_eq_error_iff⟩⟩
  · exact String.toList_inj.mp (version.toList_text.trans (fields_of_parse read))
  · constructor
    · rintro ⟨version, read⟩
      exact ⟨version.fields, version.isSemver_fields, fields_of_parse read,
        version.ofDigitChars_fields_le⟩
    · rintro ⟨fields, semver, written, inRange⟩
      rw [parse_of_hasPattern semver.hasPattern written]
      cases outcome : ofFields source fields with
      | ok version => exact ⟨version, rfl⟩
      | error error =>
          have refused := (ofFields_eq_error_iff semver.hasPattern).mp outcome
          exact absurd refused (semver.not_refused inRange)

end Version

end Versioning
