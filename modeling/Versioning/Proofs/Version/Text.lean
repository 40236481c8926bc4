import Versioning.Proofs.Outcome
import Versioning.Proofs.Version.Spelling
import Versioning.Version.Reading

/-!
The texts of versions. Each part of a version is read from its text again, and so is the version.
-/

namespace Versioning

/-! ### Components -/

theorem Component.toList_text (component : Component) :
    component.text.toList = Nat.toDigits 10 component.value := by
  rw [Component.text, Nat.toString_eq_ofList_toDigits, String.toList_ofList]

theorem Component.ofDigits?_toDigits (component : Component) :
    ofDigits? (Nat.toDigits 10 component.value) = some component := by
  have nonempty : Nat.toDigits 10 component.value ≠ [] := Nat.toDigits_ne_nil
  have digits : (Nat.toDigits 10 component.value).all Char.isDigit = true :=
    List.all_eq_true.mpr fun _ => isDigit_of_mem_toDigits
  unfold ofDigits?
  rw [digits, List.isEmpty_eq_false_iff.mpr nonempty, if_neg (by decide)]
  simp only [Nat.ofDigitChars_ten_toDigits, component.value_le, dite_true]

/-! ### Identifiers -/

namespace Identifier

theorem toList_text_numeric (value : Nat) :
    (numeric value).text.toList = Nat.toDigits 10 value := by
  rw [text, Nat.toString_eq_ofList_toDigits, String.toList_ofList]

theorem text_ne_nil (identifier : Identifier) : identifier.text.toList ≠ [] := by
  cases identifier with
  | numeric value =>
      rw [toList_text_numeric]
      exact Nat.toDigits_ne_nil
  | alphanumeric text valid =>
      intro none
      rw [isAlphanumericText, show text.toList = [] from none] at valid
      contradiction

theorem isIdentifierChar_of_mem_text (identifier : Identifier) :
    ∀ c ∈ identifier.text.toList, isIdentifierChar c = true := by
  cases identifier with
  | numeric value =>
      rw [toList_text_numeric]
      exact fun c member => isIdentifierChar_of_isDigit (isDigit_of_mem_toDigits member)
  | alphanumeric text valid =>
      rw [isAlphanumericText, Bool.and_eq_true] at valid
      exact List.all_eq_true.mp valid.1

theorem ofChars_text (identifier : Identifier) :
    ofChars identifier.text.toList = .ok identifier := by
  have nonempty : identifier.text.toList.isEmpty = false :=
    List.isEmpty_eq_false_iff.mpr identifier.text_ne_nil
  have valid : identifier.text.toList.all isIdentifierChar = true :=
    List.all_eq_true.mpr identifier.isIdentifierChar_of_mem_text
  unfold ofChars
  rw [nonempty, if_neg Bool.false_ne_true, dif_pos valid]
  cases identifier with
  | numeric value =>
      have digits : (Nat.toDigits 10 value).all Char.isDigit = true :=
        List.all_eq_true.mpr fun _ => isDigit_of_mem_toDigits
      simp only [toList_text_numeric]
      rw [dif_pos digits, if_neg (not_padded_iff.mpr toDigits_of_leadingZero),
        Nat.ofDigitChars_ten_toDigits]
  | alphanumeric text others =>
      have noNumber : ¬(alphanumeric text others).text.toList.all Char.isDigit = true := by
        rw [isAlphanumericText, Bool.and_eq_true, Bool.not_eq_true'] at others
        exact Bool.eq_false_iff.mp others.2
      rw [dif_neg noNumber]
      simp only [Identifier.text, String.ofList_toList]

end Identifier

/-! ### Dotted texts -/

theorem Spelling.IsSuffix.not_isBlankText {text : List Char} (isSuffix : Spelling.IsSuffix text) :
    ¬Text.isBlankText text = true := by
  obtain ⟨c, member⟩ := List.exists_mem_of_ne_nil _ isSuffix.1
  exact Text.not_isBlankText member (isBlank_of_isFieldChar (isSuffix.isFieldChar c member))

theorem isSuffix_intercalate {parts : List (List Char)} (some : parts ≠ [])
    (solid : ∀ part ∈ parts, part ≠ [])
    (each : ∀ part ∈ parts, ∀ c ∈ part, isIdentifierChar c = true) :
    Spelling.IsSuffix (['.'].intercalate parts) := by
  constructor
  · cases parts with
    | nil => contradiction
    | cons part rest =>
        have first : part ≠ [] := solid part List.mem_cons_self
        cases rest with
        | nil => rwa [List.intercalate_singleton]
        | cons next others =>
            rw [List.intercalate_cons_cons, List.append_assoc]
            exact List.append_ne_nil_of_left_ne_nil first _
  · intro c member
    rcases Text.mem_intercalate member with rfl | ⟨part, among, inside⟩
    · decide
    · rw [Spelling.isSuffixChar, each part among c inside, Bool.true_or]

theorem isSuffix_of_splitOn {text : List Char}
    (each : ∀ part ∈ text.splitOn '.', part ≠ [] ∧ ∀ c ∈ part, isIdentifierChar c = true) :
    Spelling.IsSuffix text := by
  have joined : ['.'].intercalate (text.splitOn '.') = text := List.intercalate_splitOn '.'
  rw [← joined]
  apply isSuffix_intercalate (List.splitOn_ne_nil _ _)
  · exact fun part member => (each part member).1
  · exact fun part member => (each part member).2

namespace PreRelease

theorem toList_text (preRelease : PreRelease) : preRelease.text.toList =
    ['.'].intercalate (preRelease.identifiers.map fun identifier => identifier.text.toList) := by
  rw [text, String.toList_intercalate, List.map_map]
  rfl

theorem isSuffix_text (preRelease : PreRelease) : Spelling.IsSuffix preRelease.text.toList := by
  rw [toList_text]
  apply isSuffix_intercalate
  · exact mt List.map_eq_nil_iff.mp preRelease.identifiers_ne_nil
  · exact List.forall_mem_map.mpr fun identifier _ => identifier.text_ne_nil
  · exact List.forall_mem_map.mpr fun identifier _ => identifier.isIdentifierChar_of_mem_text

private theorem mapM_ofChars_text (identifiers : List Identifier) :
    (identifiers.map fun identifier => identifier.text.toList).mapM Identifier.ofChars =
      .ok identifiers := by
  rw [Outcome.mapM_eq_ok_iff, List.forall₂_map_left_iff]
  exact List.forall₂_same.mpr fun identifier _ => identifier.ofChars_text

theorem ofChars_text (preRelease : PreRelease) :
    ofChars preRelease.text.toList = .ok preRelease := by
  have cut : preRelease.text.toList.splitOn '.' =
      preRelease.identifiers.map fun identifier => identifier.text.toList := by
    rw [toList_text, List.splitOn_intercalate]
    · refine List.forall_mem_map.mpr fun identifier _ dot => ?_
      exact absurd (identifier.isIdentifierChar_of_mem_text '.' dot) (by decide)
    · exact mt List.map_eq_nil_iff.mp preRelease.identifiers_ne_nil
  have found := mapM_ofChars_text preRelease.identifiers
  rw [← cut] at found
  unfold ofChars
  rw [if_neg preRelease.isSuffix_text.not_isBlankText]
  split
  · next fault failed =>
    rw [found] at failed
    cases failed
  · next identifiers read =>
    rw [found] at read
    cases read
    rfl

theorem parse_text (preRelease : PreRelease) : parse preRelease.text = .ok preRelease := by
  rw [parse, ofChars_text]
  rfl

end PreRelease

namespace BuildMetadata

theorem isSuffix_text (build : BuildMetadata) : Spelling.IsSuffix build.text.toList := by
  have valid := build.valid
  unfold isBuildText at valid
  simp only [List.all_eq_true, Bool.and_eq_true, Bool.not_eq_true',
    List.isEmpty_eq_false_iff] at valid
  exact isSuffix_of_splitOn valid

theorem ofString?_text (build : BuildMetadata) : ofString? build.text = some build := by
  rw [ofString?, dif_pos build.valid]

end BuildMetadata

/-! ### Versions -/

namespace Version

def fields (version : Version) : Fields where
  major := Nat.toDigits 10 version.major.value
  minor := some (Nat.toDigits 10 version.minor.value)
  patch := some (Nat.toDigits 10 version.patch.value)
  preRelease := version.preRelease.map fun preRelease => preRelease.text.toList
  build := version.build.map fun build => build.text.toList

theorem toList_text (version : Version) : version.text.toList = version.fields.text := by
  obtain ⟨⟨⟨major, minor, patch⟩, preRelease⟩, build⟩ := version
  cases preRelease <;> cases build <;>
    simp [text, Point.text, Core.text, toString, Component.toList_text, fields, Fields.text,
      Fields.led]

theorem permits_fields {spelling : Spelling} (build : spelling.build = true) (version : Version) :
    spelling.Permits version.fields where
  major := .digits _
  minor := by
    rintro _ ⟨⟩
    exact .digits _
  patch := by
    rintro _ ⟨⟩
    exact .digits _
  preRelease := by
    intro text found
    obtain ⟨preRelease, -, rfl⟩ := Option.map_eq_some_iff.mp found
    exact preRelease.isSuffix_text
  build := by
    intro text found
    obtain ⟨build, -, rfl⟩ := Option.map_eq_some_iff.mp found
    exact build.isSuffix_text
  inOrder := fun missing => absurd missing (Option.some_ne_none _)
  complete := .inl rfl
  suffixed := .inl rfl
  buildAllowed := .inr build

private theorem readComponent_toDigits (component : Component) :
    readComponent (some (Nat.toDigits 10 component.value)) = .ok component := by
  rw [readComponent, Component.ofDigits?_toDigits]

private theorem ofFields_fields (source : String) (version : Version) :
    ofFields source version.fields = .ok version := by
  have readPreRelease :
      version.fields.preRelease.mapM (fun text => PreRelease.parse (String.ofList text)) =
        .ok version.preRelease := by
    refine Outcome.mapM_map_eq_ok (fun preRelease => ?_) version.preRelease
    rw [String.ofList_toList, preRelease.parse_text]
  refine Outcome.bind_eq_ok_iff.mpr ⟨_, readPreRelease, Outcome.bind_eq_ok_iff.mpr
    ⟨version.build, Outcome.mapM_map_eq_ok (fun build => ?_) version.build, ?_⟩⟩
  · rw [readBuild, String.ofList_toList, build.ofString?_text]
  · rw [fields, readComponent_toDigits, readComponent_toDigits, readComponent_toDigits]
    rfl

/-- A version is read from its text. -/
theorem parse_text (version : Version) : parse version.text = .ok version := by
  have permits : Spelling.strict.Permits version.fields := permits_fields rfl version
  rw [parse, toList_text, Spelling.read?_text permits]
  exact ofFields_fields _ version

end Version

end Versioning
