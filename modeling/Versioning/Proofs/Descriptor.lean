import Versioning.Descriptor
import Versioning.Proofs.Version.Text

/-!
The texts of descriptors. A descriptor is read from its text again in every dialect that can express
it, and a dialect can express what is read in it.
-/

namespace Versioning

/-! ### Positions -/

namespace Position

theorem toList_text_number (component : Component) :
    (number component).text.toList = Nat.toDigits 10 component.value :=
  component.toList_text

private theorem isNumber_text {spelling : Spelling} {position : Position}
    (permitted : spelling.wildcards = true ∨ position.isNumber = true) :
    spelling.IsNumber position.text.toList := by
  cases position with
  | number component =>
      rw [toList_text_number]
      exact .digits _
  | wildcard mark =>
      have allowed : spelling.wildcards = true := permitted.resolve_right Bool.false_ne_true
      cases mark with
      | lowerX => exact .wildcard allowed (by decide)
      | upperX => exact .wildcard allowed (by decide)
      | star => exact .wildcard allowed (by decide)

private theorem ofChars?_text (position : Position) :
    ofChars? position.text.toList = some position := by
  cases position with
  | wildcard mark => cases mark <;> rfl
  | number component =>
      have digits (c : Char) : c ∈ Nat.toDigits 10 component.value → c.isDigit = true :=
        isDigit_of_mem_toDigits
      have read := component.ofDigits?_toDigits
      rw [toList_text_number]
      unfold ofChars?
      split
      · next same => exact absurd (digits 'x' (same ▸ List.mem_cons_self)) (by decide)
      · next same => exact absurd (digits 'X' (same ▸ List.mem_cons_self)) (by decide)
      · next same => exact absurd (digits '*' (same ▸ List.mem_cons_self)) (by decide)
      · rw [read]
        rfl

end Position

namespace Descriptor

variable {dialect : Dialect} {descriptor : Descriptor}

/-! ### Fields -/

def fields : Descriptor → Fields
  | .one major => ⟨major.text.toList, none, none, none, none⟩
  | .two major minor => ⟨major.text.toList, some minor.text.toList, none, none, none⟩
  | .three major minor patch preRelease build =>
      { major := major.text.toList
        minor := some minor.text.toList
        patch := some patch.text.toList
        preRelease := preRelease.map fun preRelease => preRelease.text.toList
        build := build.map fun build => build.text.toList }

theorem toList_text (descriptor : Descriptor) :
    descriptor.text.toList = descriptor.fields.text := by
  cases descriptor with
  | one major => simp [text, positions, preRelease, build, fields, Fields.text, Fields.led]
  | two major minor => simp [text, positions, preRelease, build, fields, Fields.text, Fields.led]
  | three major minor patch preRelease build =>
      cases preRelease <;> cases build <;>
        simp [text, positions, Descriptor.preRelease, Descriptor.build, fields, Fields.text,
          Fields.led]

/-- Whether a dialect has what it takes to write a descriptor. -/
structure IsWritable (dialect : Dialect) (descriptor : Descriptor) : Prop where
  wildcards : dialect.spelling.wildcards = true ∨ descriptor.hasWildcard = false
  build : dialect.spelling.build = true ∨ descriptor.build = none

private theorem IsWritable.isNumber (writable : descriptor.IsWritable dialect) :
    ∀ position ∈ descriptor.positions, dialect.spelling.IsNumber position.text.toList := by
  intro position member
  refine Position.isNumber_text (writable.wildcards.imp_right fun noWildcard => ?_)
  rw [hasWildcard, List.any_eq_false] at noWildcard
  simpa using noWildcard position member

theorem IsWritable.permits_fields (writable : descriptor.IsWritable dialect) :
    dialect.spelling.Permits descriptor.fields := by
  have isNumber := writable.isNumber
  have incomplete : dialect.spelling.incomplete = true := by cases dialect <;> rfl
  cases descriptor with
  | one major =>
      simp only [positions, List.forall_mem_cons] at isNumber
      constructor
      case major => exact isNumber.1
      case complete => exact .inr incomplete
      all_goals simp [fields]
  | two major minor =>
      simp only [positions, List.forall_mem_cons] at isNumber
      constructor
      case major => exact isNumber.1
      case minor => simpa [fields] using isNumber.2.1
      case complete => exact .inr incomplete
      all_goals simp [fields]
  | three major minor patch preRelease build =>
      simp only [positions, List.forall_mem_cons] at isNumber
      constructor
      case major => exact isNumber.1
      case minor => simpa [fields] using isNumber.2.1
      case patch => simpa [fields] using isNumber.2.2.1
      case preRelease => simpa [fields] using fun found _ => found.isSuffix_text
      case build => simpa [fields] using fun found _ => found.isSuffix_text
      case buildAllowed => simpa [fields, Descriptor.build] using writable.build.symm
      all_goals simp [fields]

private theorem ofFields_texts (source : String) (major : Position) (minor patch : Option Position)
    (preRelease : Option PreRelease) (build : Option BuildMetadata) :
    ofFields source
      { major := major.text.toList
        minor := minor.map fun position => position.text.toList
        patch := patch.map fun position => position.text.toList
        preRelease := preRelease.map fun preRelease => preRelease.text.toList
        build := build.map fun build => build.text.toList } =
      .ok (match minor, patch with
        | none, _ => .one major
        | some minor, none => .two major minor
        | some minor, some patch => .three major minor patch preRelease build) := by
  have readPosition (position : Position) :
      ofFields.orInvalid source (Position.ofChars? position.text.toList) = .ok position := by
    rw [position.ofChars?_text]
    rfl
  refine Outcome.bind_eq_ok_iff.mpr
    ⟨preRelease, Outcome.mapM_map_eq_ok (fun found => ?_) preRelease, ?_⟩
  · rw [String.ofList_toList, found.parse_text]
    rfl
  refine Outcome.bind_eq_ok_iff.mpr ⟨build, Outcome.mapM_map_eq_ok (fun found => ?_) build, ?_⟩
  · rw [String.ofList_toList, found.ofString?_text]
    rfl
  refine Outcome.bind_eq_ok_iff.mpr ⟨major, readPosition major, ?_⟩
  refine Outcome.bind_eq_ok_iff.mpr ⟨minor, Outcome.mapM_map_eq_ok (fun found => ?_) minor, ?_⟩
  · exact readPosition found
  refine Outcome.bind_eq_ok_iff.mpr ⟨patch, Outcome.mapM_map_eq_ok (fun found => ?_) patch, ?_⟩
  · exact readPosition found
  cases minor <;> cases patch <;> rfl

private theorem ofFields_fields (source : String) (descriptor : Descriptor) :
    ofFields source descriptor.fields = .ok descriptor := by
  cases descriptor with
  | one major => exact ofFields_texts source major none none none none
  | two major minor => exact ofFields_texts source major (some minor) none none none
  | three major minor patch preRelease build =>
      exact ofFields_texts source major (some minor) (some patch) preRelease build

/-- A descriptor is read from its text. -/
theorem IsWritable.ofChars_text (writable : descriptor.IsWritable dialect) :
    ofChars dialect descriptor.text.toList = .ok descriptor := by
  rw [ofChars, toList_text, Spelling.read?_text writable.permits_fields]
  exact ofFields_fields _ descriptor

/-! ### Dialects -/

theorem isNumber_of_ofChars? {text : List Char} {position : Position} {source : String}
    (digits : ∀ c ∈ text, Text.isDecimalDigit c = true)
    (found : ofFields.orInvalid source (Position.ofChars? text) = .ok position) :
    position.isNumber = true := by
  unfold Position.ofChars? at found
  split at found
  · exact absurd (digits 'x' List.mem_cons_self) (by decide)
  · exact absurd (digits 'X' List.mem_cons_self) (by decide)
  · exact absurd (digits '*' List.mem_cons_self) (by decide)
  · cases value : Component.ofDigits? text with
    | none =>
        rw [value] at found
        cases found
    | some component =>
        rw [value] at found
        cases found
        rfl

private theorem forall_isNumber_of_mapM {field : Option (List Char)} {result : Option Position}
    {source : String} (digits : ∀ text ∈ field, ∀ c ∈ text, Text.isDecimalDigit c = true)
    (found : field.mapM (fun text => ofFields.orInvalid source (Position.ofChars? text)) =
      .ok result) : ∀ position ∈ result, position.isNumber = true := by
  intro position member
  obtain ⟨text, isText, read⟩ := Outcome.exists_of_mem_mapM_option found member
  exact isNumber_of_ofChars? (digits text isText) read

theorem isWritable_of_ofChars {text : List Char} (found : ofChars dialect text = .ok descriptor) :
    descriptor.IsWritable dialect := by
  unfold ofChars at found
  split at found
  · next fields cut =>
    have fits := (Spelling.writes_of_read? cut).fits
    obtain ⟨preRelease, -, found⟩ := Outcome.bind_eq_ok_iff.mp found
    obtain ⟨build, readBuild, found⟩ := Outcome.bind_eq_ok_iff.mp found
    obtain ⟨major, readMajor, found⟩ := Outcome.bind_eq_ok_iff.mp found
    obtain ⟨minor, readMinor, found⟩ := Outcome.bind_eq_ok_iff.mp found
    obtain ⟨patch, readPatch, found⟩ := Outcome.bind_eq_ok_iff.mp found
    have descriptorOf : descriptor = match minor, patch with
        | none, _ => .one major
        | some minor, none => .two major minor
        | some minor, some patch => .three major minor patch preRelease build := by
      cases minor <;> cases patch <;> exact (Outcome.pure_eq_ok_iff.mp found).symm
    constructor
    · rw [or_iff_not_imp_left, Bool.not_eq_true]
      intro noWildcards
      have ofMajor : major.isNumber = true :=
        isNumber_of_ofChars? (fits.major.isDecimalDigit noWildcards) readMajor
      have ofMinor := forall_isNumber_of_mapM
        (fun text found => (fits.minor text found).isDecimalDigit noWildcards) readMinor
      have ofPatch := forall_isNumber_of_mapM
        (fun text found => (fits.patch text found).isDecimalDigit noWildcards) readPatch
      rw [descriptorOf]
      cases minor <;> cases patch <;> simp_all [hasWildcard, positions]
    · rw [or_iff_not_imp_left, Bool.not_eq_true]
      intro noBuild
      have missing : fields.build = none :=
        fits.buildAllowed.resolve_right (Bool.eq_false_iff.mp noBuild)
      rw [missing] at readBuild
      cases readBuild
      rw [descriptorOf]
      cases minor <;> cases patch <;> rfl
  · cases found

/-! ### Complete descriptors -/

def complete (version : Version) : Descriptor :=
  .three (.number version.major) (.number version.minor) (.number version.patch)
    version.preRelease version.build

@[simp]
theorem precision_complete (version : Version) : (complete version).precision = 3 := rfl

@[simp]
theorem floor_complete (version : Version) : (complete version).floor = version.toPoint := rfl

@[simp]
theorem text_complete (version : Version) : (complete version).text = version.text := by
  apply String.toList_inj.mp
  rw [toList_text, Version.toList_text]
  simp only [complete, fields, Version.fields, Position.toList_text_number]

theorem isWritable_complete {version : Version}
    (build : dialect.spelling.build = true ∨ version.build = none) :
    (complete version).IsWritable dialect := ⟨.inr rfl, build⟩

theorem ofChars_version_text {version : Version} (build : dialect.spelling.build = true) :
    ofChars dialect version.text.toList = .ok (complete version) := by
  rw [← text_complete]
  exact (isWritable_complete (.inl build)).ofChars_text

/-! ### Floors -/

theorem preRelease_floor (release : descriptor.preRelease = none) :
    descriptor.floor.preRelease = none := by
  rw [floor, release, ite_self]

/-! ### Characters of descriptors -/

variable {text : List Char}

theorem exists_fields_of_ofChars (found : ofChars dialect text = .ok descriptor) :
    ∃ fields, dialect.spelling.read? text = some fields := by
  unfold ofChars at found
  split at found
  · next fields cut => exact ⟨fields, cut⟩
  · cases found

theorem bar_not_mem_of_ofChars (found : ofChars dialect text = .ok descriptor) : '|' ∉ text := by
  intro bar
  obtain ⟨fields, cut⟩ := exists_fields_of_ofChars found
  rcases Spelling.mem_of_read? cut '|' bar with ⟨-, mark⟩ | field | digit
  · exact absurd mark (by decide)
  · exact absurd field (by decide)
  · exact absurd digit (by decide)

theorem exists_first_of_ofChars (found : ofChars dialect text = .ok descriptor) :
    ∃ front first rest, text = front ++ first :: rest ∧
      (∀ c ∈ front, Spelling.isMark c = true) ∧
      (Spelling.isWildcard first = true ∨ Text.isDecimalDigit first = true) :=
  Spelling.exists_first_of_read? (exists_fields_of_ofChars found).choose_spec

/-! ### Flaws -/

/-- What may be wrong with a text that is no descriptor, and how each flaw is reported. A number is
flawed where it is out of range. -/
inductive Flaw (dialect : Dialect) (text : List Char) : ConstraintError → Prop
  | shape (uncut : dialect.spelling.read? text = none) :
      Flaw dialect text (.invalidDescriptor (String.ofList text))
  | number {fields : Fields} {number : List Char}
      (cut : dialect.spelling.read? text = some fields)
      (among : number ∈ fields.major :: (fields.minor.toList ++ fields.patch.toList))
      (flawed : Position.ofChars? number = none) :
      Flaw dialect text (.invalidDescriptor (String.ofList text))
  | build {fields : Fields} {build : List Char}
      (cut : dialect.spelling.read? text = some fields) (among : build ∈ fields.build)
      (flawed : BuildMetadata.ofString? (String.ofList build) = none) :
      Flaw dialect text (.invalidDescriptor (String.ofList text))
  | preRelease {fields : Fields} {preRelease : List Char} {fault : PreReleaseFault}
      (cut : dialect.spelling.read? text = some fields) (among : preRelease ∈ fields.preRelease)
      (flawed : PreRelease.ofChars preRelease = .error fault) :
      Flaw dialect text (.version (.invalidPreRelease (String.ofList preRelease) fault))

private theorem orInvalid_eq_error_iff {α : Type} {source : String} {value : Option α}
    {error : ConstraintError} : ofFields.orInvalid source value = .error error ↔
      value = none ∧ error = .invalidDescriptor source := by
  cases value <;> simp [ofFields.orInvalid, eq_comm]

theorem flaw_of_ofChars {error : ConstraintError} (failed : ofChars dialect text = .error error) :
    Flaw dialect text error := by
  unfold ofChars at failed
  split at failed
  · next fields cut =>
    rcases Outcome.bind_eq_error_iff.mp failed with atPreRelease | ⟨preRelease, -, failed⟩
    · obtain ⟨preRelease, among, refused⟩ := Outcome.mapM_option_eq_error_iff.mp atPreRelease
      obtain ⟨cause, parsed, rfl⟩ := Outcome.mapError_eq_error_iff.mp refused
      obtain ⟨fault, flawed, rfl⟩ := Outcome.mapError_eq_error_iff.mp parsed
      rw [String.toList_ofList] at flawed
      exact .preRelease cut among flawed
    rcases Outcome.bind_eq_error_iff.mp failed with atBuild | ⟨build, -, failed⟩
    · obtain ⟨build, among, refused⟩ := Outcome.mapM_option_eq_error_iff.mp atBuild
      obtain ⟨flawed, rfl⟩ := orInvalid_eq_error_iff.mp refused
      exact .build cut among flawed
    rcases Outcome.bind_eq_error_iff.mp failed with atMajor | ⟨major, -, failed⟩
    · obtain ⟨flawed, rfl⟩ := orInvalid_eq_error_iff.mp atMajor
      exact .number cut List.mem_cons_self flawed
    rcases Outcome.bind_eq_error_iff.mp failed with atMinor | ⟨minor, -, failed⟩
    · obtain ⟨number, among, refused⟩ := Outcome.mapM_option_eq_error_iff.mp atMinor
      obtain ⟨flawed, rfl⟩ := orInvalid_eq_error_iff.mp refused
      refine .number cut (List.mem_cons_of_mem _ (List.mem_append_left _ ?_)) flawed
      exact Option.mem_toList.mpr among
    rcases Outcome.bind_eq_error_iff.mp failed with atPatch | ⟨patch, -, failed⟩
    · obtain ⟨number, among, refused⟩ := Outcome.mapM_option_eq_error_iff.mp atPatch
      obtain ⟨flawed, rfl⟩ := orInvalid_eq_error_iff.mp refused
      refine .number cut (List.mem_cons_of_mem _ (List.mem_append_right _ ?_)) flawed
      exact Option.mem_toList.mpr among
    cases minor <;> cases patch <;> cases failed
  · next uncut =>
    cases failed
    exact .shape uncut

theorem Flaw.ofChars_ne_ok {error : ConstraintError} (flaw : Flaw dialect text error) :
    ofChars dialect text ≠ .ok descriptor := by
  intro found
  unfold ofChars at found
  split at found
  · next fields cut =>
    obtain ⟨preRelease, readPreRelease, found⟩ := Outcome.bind_eq_ok_iff.mp found
    obtain ⟨build, readBuild, found⟩ := Outcome.bind_eq_ok_iff.mp found
    obtain ⟨major, readMajor, found⟩ := Outcome.bind_eq_ok_iff.mp found
    obtain ⟨minor, readMinor, found⟩ := Outcome.bind_eq_ok_iff.mp found
    obtain ⟨patch, readPatch, -⟩ := Outcome.bind_eq_ok_iff.mp found
    have numbers : ∀ number ∈ fields.major :: (fields.minor.toList ++ fields.patch.toList),
        ∃ position, ofFields.orInvalid (String.ofList text) (Position.ofChars? number) =
          .ok position := by
      refine List.forall_mem_cons.mpr ⟨⟨major, readMajor⟩, List.forall_mem_append.mpr ⟨?_, ?_⟩⟩
      · intro number among
        exact Outcome.exists_mapM_option_iff.mp ⟨minor, readMinor⟩ number
          (Option.mem_toList.mp among)
      · intro number among
        exact Outcome.exists_mapM_option_iff.mp ⟨patch, readPatch⟩ number
          (Option.mem_toList.mp among)
    cases flaw with
    | shape uncut =>
        rw [uncut] at cut
        cases cut
    | number again among flawed =>
        cases cut.symm.trans again
        obtain ⟨position, read⟩ := numbers _ among
        rw [flawed] at read
        cases read
    | build again among flawed =>
        cases cut.symm.trans again
        obtain ⟨found, read⟩ := Outcome.exists_mapM_option_iff.mp ⟨build, readBuild⟩ _ among
        rw [flawed] at read
        cases read
    | preRelease again among flawed =>
        cases cut.symm.trans again
        obtain ⟨found, read⟩ :=
          Outcome.exists_mapM_option_iff.mp ⟨preRelease, readPreRelease⟩ _ among
        rw [PreRelease.parse, String.toList_ofList, flawed] at read
        cases read
  · cases found

end Descriptor

end Versioning
