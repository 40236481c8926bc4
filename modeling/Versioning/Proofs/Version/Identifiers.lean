import Versioning.Proofs.Version.Text

/-!
What the readers of identifiers and pre-releases accept and what they refuse. They read the texts
that semantic versioning permits, and what they read has this very text. A pre-release is refused
for the first of its parts that is no identifier.
-/

namespace Versioning

/-! ### Numbers -/

/-- A number in ASCII digits without a leading zero. -/
structure IsUnpadded (text : List Char) : Prop where
  ne_nil : text ≠ []
  digits : ∀ c ∈ text, c.isDigit = true
  noLeadingZero : text.head? = some '0' → text = ['0']

theorem exists_digitChar {c : Char} (digit : c.isDigit = true) :
    ∃ value < 10, value.digitChar = c := by
  have bounds : 48 ≤ c.toNat ∧ c.toNat ≤ 57 := Char.isDigit_iff_toNat.mp digit
  refine ⟨c.toNat - 48, by omega, Char.toNat_inj.mp ?_⟩
  rw [Nat.toNat_digitChar_of_lt_ten (by omega)]
  omega

theorem toDigits_append {text : List Char} (digits : ∀ c ∈ text, c.isDigit = true) {value : Nat}
    (positive : 0 < value) :
    Nat.toDigits 10 value ++ text = Nat.toDigits 10 (Nat.ofDigitChars 10 text value) := by
  induction text generalizing value with
  | nil => rw [List.append_nil, Nat.ofDigitChars_nil]
  | cons c rest ih =>
      obtain ⟨digit, digitsRest⟩ := List.forall_mem_cons.mp digits
      obtain ⟨last, small, rfl⟩ := exists_digitChar digit
      have carried : Nat.toDigits 10 value ++ [last.digitChar] =
          Nat.toDigits 10 (10 * value + last) := by
        rw [← Nat.toDigits_append_toDigits (by decide) positive small,
          Nat.toDigits_of_lt_base small]
      rw [List.append_cons, carried, ih digitsRest (by omega),
        Nat.ofDigitChars_cons_digitChar_of_lt_ten small]

theorem IsUnpadded.toDigits {text : List Char} (unpadded : IsUnpadded text) :
    Nat.toDigits 10 (Nat.ofDigitChars 10 text 0) = text := by
  cases text with
  | nil => exact absurd rfl unpadded.ne_nil
  | cons c rest =>
      obtain ⟨digit, digitsRest⟩ := List.forall_mem_cons.mp unpadded.digits
      obtain ⟨first, small, rfl⟩ := exists_digitChar digit
      rcases Nat.eq_zero_or_pos first with rfl | positive
      · -- behind a zero nothing may stand
        rw [unpadded.noLeadingZero rfl]
        rfl
      · rw [Nat.ofDigitChars_cons_digitChar_of_lt_ten small, Nat.mul_zero, Nat.zero_add,
          ← toDigits_append digitsRest positive, Nat.toDigits_of_lt_base small,
          List.singleton_append]

theorem isUnpadded_toDigits (value : Nat) : IsUnpadded (Nat.toDigits 10 value) where
  ne_nil := Nat.toDigits_ne_nil
  digits := fun _ => isDigit_of_mem_toDigits
  noLeadingZero := toDigits_of_leadingZero

/-! ### Identifiers -/

/-- A text that may stand between the dots of build metadata. -/
structure IsIdentifierText (text : List Char) : Prop where
  ne_nil : text ≠ []
  each : ∀ c ∈ text, isIdentifierChar c = true

/-- A text that may stand between the dots of a pre-release, where numbers have no leading zero. -/
structure IsPreReleaseIdentifierText (text : List Char) : Prop extends IsIdentifierText text where
  noLeadingZero : (∀ c ∈ text, c.isDigit = true) → text.head? = some '0' → text = ['0']

namespace Identifier

theorem isText_text (identifier : Identifier) :
    IsPreReleaseIdentifierText identifier.text.toList where
  ne_nil := identifier.text_ne_nil
  each := identifier.isIdentifierChar_of_mem_text
  noLeadingZero digits zero := by
    cases identifier with
    | numeric value =>
        rw [toList_text_numeric] at zero ⊢
        exact toDigits_of_leadingZero zero
    | alphanumeric text valid =>
        rw [isAlphanumericText, Bool.and_eq_true, Bool.not_eq_true'] at valid
        have all : text.toList.all Char.isDigit = true := List.all_eq_true.mpr digits
        rw [valid.2] at all
        cases all

theorem toList_text_of_ofChars {text : List Char} {identifier : Identifier}
    (read : ofChars text = .ok identifier) : identifier.text.toList = text := by
  unfold ofChars at read
  split at read
  · cases read
  · next nonempty =>
    split at read
    · split at read
      · next digits =>
        split at read
        · cases read
        · next short =>
          cases read
          rw [toList_text_numeric]
          exact IsUnpadded.toDigits ⟨mt List.isEmpty_iff.mpr nonempty, List.all_eq_true.mp digits,
            not_padded_iff.mp short⟩
      · cases read
        exact String.toList_ofList
    · cases read

private theorem isText_of_ofChars {text : List Char} {identifier : Identifier}
    (read : ofChars text = .ok identifier) : IsPreReleaseIdentifierText text :=
  toList_text_of_ofChars read ▸ identifier.isText_text

private theorem exists_ofChars {text : List Char} (isText : IsPreReleaseIdentifierText text) :
    ∃ identifier, ofChars text = .ok identifier := by
  unfold ofChars
  rw [List.isEmpty_eq_false_iff.mpr isText.ne_nil, if_neg Bool.false_ne_true,
    dif_pos (List.all_eq_true.mpr isText.each)]
  split
  · next digits =>
    rw [if_neg (not_padded_iff.mpr (isText.noLeadingZero (List.all_eq_true.mp digits)))]
    exact ⟨_, rfl⟩
  · exact ⟨_, rfl⟩

def faultOf (text : List Char) : PreReleaseFault :=
  if text.isEmpty then .emptyIdentifier else .leadingZero (String.ofList text)

private theorem ofChars_eq_error {text : List Char} (each : ∀ c ∈ text, isIdentifierChar c = true)
    (invalid : ¬IsPreReleaseIdentifierText text) : ofChars text = .error (faultOf text) := by
  unfold ofChars faultOf
  split
  · rfl
  · next nonempty =>
    rw [dif_pos (List.all_eq_true.mpr each)]
    by_cases padded : text.all Char.isDigit = true ∧ 1 < text.length ∧ text.head? = some '0'
    · rw [dif_pos padded.1, if_pos padded.2]
    · refine absurd ⟨⟨mt List.isEmpty_iff.mpr nonempty, each⟩, fun digits => ?_⟩ invalid
      exact not_padded_iff.mp fun found => padded ⟨List.all_eq_true.mpr digits, found⟩

end Identifier

/-! ### Dotted texts -/

/-- Whether each part between the dots of a text is of some kind. -/
def IsDotted (valid : List Char → Prop) (text : List Char) : Prop :=
  ∀ part ∈ text.splitOn '.', valid part

theorem isBuildText_iff {text : List Char} :
    isBuildText text = true ↔ IsDotted IsIdentifierText text := by
  unfold isBuildText IsDotted
  simp only [List.all_eq_true, Bool.and_eq_true, Bool.not_eq_true', List.isEmpty_eq_false_iff]
  exact forall₂_congr fun part _ =>
    ⟨fun valid => ⟨valid.1, valid.2⟩, fun valid => ⟨valid.ne_nil, valid.each⟩⟩

theorem IsDotted.isSuffix {text : List Char} (dotted : IsDotted IsIdentifierText text) :
    Spelling.IsSuffix text :=
  isSuffix_of_splitOn fun part member => ⟨(dotted part member).ne_nil, (dotted part member).each⟩

theorem IsDotted.identifiers {text : List Char}
    (dotted : IsDotted IsPreReleaseIdentifierText text) : IsDotted IsIdentifierText text :=
  fun part member => (dotted part member).toIsIdentifierText

theorem Spelling.IsSuffix.each_splitOn {text : List Char} (isSuffix : Spelling.IsSuffix text) :
    ∀ part ∈ text.splitOn '.', ∀ c ∈ part, isIdentifierChar c = true := by
  intro part among c inside
  obtain ⟨member, other⟩ := Text.mem_of_mem_splitOn among inside
  have suffix := isSuffix.2 c member
  rw [isSuffixChar, Bool.or_eq_true, beq_iff_eq] at suffix
  exact suffix.resolve_right other

/-- The fault of a pre-release is that of its first part which is no identifier. -/
inductive IsPreReleaseFault (text : List Char) : PreReleaseFault → Prop
  | first {front back : List (List Char)} {part : List Char}
      (cut : text.splitOn '.' = front ++ part :: back)
      (valid : ∀ earlier ∈ front, IsPreReleaseIdentifierText earlier)
      (invalid : ¬IsPreReleaseIdentifierText part) :
      IsPreReleaseFault text (Identifier.faultOf part)

namespace PreRelease

private theorem ofChars_eq_ok_iff {text : List Char} {preRelease : PreRelease} :
    ofChars text = .ok preRelease ↔ ¬Text.isBlankText text = true ∧
      (text.splitOn '.').mapM Identifier.ofChars = .ok preRelease.identifiers := by
  unfold ofChars
  split
  · next blank => simp [blank]
  · next solid =>
    split
    · next fault failed => simp [failed]
    · next identifiers read =>
      constructor
      · intro same
        cases same
        exact ⟨solid, read⟩
      · rintro ⟨_, found⟩
        obtain rfl : identifiers = preRelease.identifiers := Except.ok.inj (read.symm.trans found)
        rfl

theorem splitOn_of_ofChars {text : List Char} {preRelease : PreRelease}
    (read : ofChars text = .ok preRelease) :
    text.splitOn '.' = preRelease.identifiers.map fun identifier => identifier.text.toList := by
  have pairs := Outcome.mapM_eq_ok_iff.mp (ofChars_eq_ok_iff.mp read).2
  rw [← List.forall₂_eq_eq_eq, List.forall₂_map_right_iff]
  exact pairs.imp fun _ _ found => (Identifier.toList_text_of_ofChars found).symm

theorem toList_text_of_ofChars {text : List Char} {preRelease : PreRelease}
    (read : ofChars text = .ok preRelease) : preRelease.text.toList = text := by
  rw [toList_text, ← splitOn_of_ofChars read, List.intercalate_splitOn]

theorem ofChars_eq_error_iff {text : List Char} (isSuffix : Spelling.IsSuffix text)
    {fault : PreReleaseFault} :
    ofChars text = .error fault ↔ IsPreReleaseFault text fault := by
  have firstFault : ofChars text = .error fault ↔
      (text.splitOn '.').mapM Identifier.ofChars = .error fault := by
    unfold ofChars
    rw [if_neg isSuffix.not_isBlankText]
    split
    · next failed => simp [failed]
    · next read => simp [read]
  rw [firstFault, Outcome.mapM_eq_error_iff]
  constructor
  · rintro ⟨front, part, back, cut, earlier, failed⟩
    have invalid : ¬IsPreReleaseIdentifierText part := by
      intro valid
      obtain ⟨identifier, read⟩ := Identifier.exists_ofChars valid
      rw [failed] at read
      cases read
    have each := isSuffix.each_splitOn part (by simp [cut])
    rw [Identifier.ofChars_eq_error each invalid] at failed
    cases failed
    refine .first cut (fun other among => ?_) invalid
    obtain ⟨identifier, read⟩ := earlier other among
    exact Identifier.isText_of_ofChars read
  · intro isFault
    cases isFault with
    | @first front back part cut valid invalid =>
        refine ⟨front, part, back, cut, ?_, ?_⟩
        · exact fun other among => Identifier.exists_ofChars (valid other among)
        · exact Identifier.ofChars_eq_error (isSuffix.each_splitOn part (by simp [cut])) invalid

theorem exists_ofChars_iff {text : List Char} (isSuffix : Spelling.IsSuffix text) :
    (∃ preRelease, ofChars text = .ok preRelease) ↔ IsDotted IsPreReleaseIdentifierText text := by
  constructor
  · rintro ⟨preRelease, read⟩ part among
    rw [splitOn_of_ofChars read] at among
    obtain ⟨identifier, -, rfl⟩ := List.mem_map.mp among
    exact identifier.isText_text
  · intro dotted
    cases outcome : ofChars text with
    | ok preRelease => exact ⟨preRelease, rfl⟩
    | error fault =>
        cases (ofChars_eq_error_iff isSuffix).mp outcome with
        | @first front back part cut valid invalid =>
            exact absurd (dotted part (by simp [cut])) invalid

theorem parse_eq_error_iff {text : List Char} (isSuffix : Spelling.IsSuffix text)
    {error : VersionError} :
    parse (String.ofList text) = .error error ↔
      ∃ fault, IsPreReleaseFault text fault ∧
        error = .invalidPreRelease (String.ofList text) fault := by
  rw [parse, String.toList_ofList]
  cases outcome : ofChars text with
  | ok preRelease =>
      refine iff_of_false (by simp [Except.mapError]) ?_
      rintro ⟨fault, isFault, -⟩
      rw [(ofChars_eq_error_iff isSuffix).mpr isFault] at outcome
      cases outcome
  | error first =>
      have isFirst := (ofChars_eq_error_iff isSuffix).mp outcome
      constructor
      · intro failed
        cases failed
        exact ⟨first, isFirst, rfl⟩
      · rintro ⟨fault, isFault, rfl⟩
        rw [(ofChars_eq_error_iff isSuffix).mpr isFault] at outcome
        cases outcome
        rfl

theorem exists_parse_iff {text : List Char} (isSuffix : Spelling.IsSuffix text) :
    (∃ preRelease, parse (String.ofList text) = .ok preRelease) ↔
      IsDotted IsPreReleaseIdentifierText text := by
  rw [← exists_ofChars_iff isSuffix, parse, String.toList_ofList]
  exact exists_congr fun _ => Outcome.mapError_eq_ok_iff

theorem isDotted_of_parse {source : String} {preRelease : PreRelease}
    (read : parse source = .ok preRelease) : IsDotted IsPreReleaseIdentifierText source.toList := by
  intro part among
  rw [splitOn_of_ofChars (Outcome.mapError_eq_ok_iff.mp read)] at among
  obtain ⟨identifier, -, rfl⟩ := List.mem_map.mp among
  exact identifier.isText_text

/-- The texts that pre-releases are read from, whatever other characters a text may have. -/
theorem exists_parse_iff_isDotted {source : String} :
    (∃ preRelease, parse source = .ok preRelease) ↔
      IsDotted IsPreReleaseIdentifierText source.toList := by
  constructor
  · rintro ⟨preRelease, read⟩
    exact isDotted_of_parse read
  · intro dotted
    have found := (exists_parse_iff dotted.identifiers.isSuffix).mpr dotted
    rwa [String.ofList_toList] at found

theorem isDotted_text (preRelease : PreRelease) :
    IsDotted IsPreReleaseIdentifierText preRelease.text.toList :=
  isDotted_of_parse preRelease.parse_text

end PreRelease

end Versioning
