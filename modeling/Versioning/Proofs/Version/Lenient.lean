import Versioning.Version.Reading
import Versioning.Proofs.Version.Permissions
import Versioning.Proofs.Version.Text

/-!
Lenient reading as an extension of strict reading. Both cut a text into fields and give these the
same values. What a lenient text has besides is of no account: marks in front, blanks behind, and a
pre-release without its hyphen. A text shows by itself where its numbers end, so that it is known
where a hyphen is missing.
-/

namespace Versioning

def Fields.numberText (fields : Fields) : List Char :=
  fields.major ++ (led '.' fields.minor ++ led '.' fields.patch)

theorem Fields.textWith_eq (fields : Fields) (preRelease : List Char) :
    fields.textWith preRelease = fields.numberText ++ (preRelease ++ led '+' fields.build) := by
  simp only [textWith, numberText, List.append_assoc]

namespace Spelling

open Fields (led)

variable {spelling : Spelling} {fields : Fields} {text front rest : List Char}

/-! ### Classes of characters -/

theorem isMark_of_isBlank {c : Char} (blank : Text.isBlank c = true) : isMark c = true := by
  rw [isMark, blank, Bool.or_true]

theorem isMark_eq_false_of_isNumberChar {c : Char} (number : isNumberChar c = true) :
    isMark c = false := by
  rw [isNumberChar, Bool.or_eq_true, beq_iff_eq] at number
  rcases number with digit | rfl
  · exact isMark_eq_false_of_isDecimalDigit digit
  · decide

private theorem isNumberChar_eq_false_of_isBlank {c : Char} (blank : Text.isBlank c = true) :
    isNumberChar c = false := by
  refine Bool.eq_false_iff.mpr fun number => ?_
  have noMark := isMark_eq_false_of_isNumberChar number
  rw [isMark_of_isBlank blank] at noMark
  cases noMark

private theorem isAlpha_eq_false_of_isBlank {c : Char} (blank : Text.isBlank c = true) :
    c.isAlpha = false := by
  refine Bool.eq_false_iff.mpr fun letter => ?_
  have identifier : isIdentifierChar c = true := by
    simp [isIdentifierChar, Char.isAlphanum, letter]
  rw [isBlank_of_isIdentifierChar identifier] at blank
  cases blank

/-! ### Where numbers end -/

def IsNumbered (text : List Char) : Prop :=
  ∃ front numbers, text = front ++ numbers ∧ numbers ≠ [] ∧
    (∀ c ∈ front, isMark c = true) ∧ ∀ c ∈ numbers, isNumberChar c = true

/-- Texts that begin with runs of one class, as long as they can be, begin with the same run. -/
theorem append_inj_of_apart {p : Char → Bool} {run other behind : List Char}
    (each : ∀ c ∈ run, p c = true) (apart : ∀ c ∈ rest.head?, p c = false)
    (eachOther : ∀ c ∈ other, p c = true) (apartOther : ∀ c ∈ behind.head?, p c = false)
    (same : run ++ rest = other ++ behind) : run = other ∧ rest = behind := by
  obtain ⟨taken, dropped⟩ := takeWhile_append_apart each apart
  obtain ⟨takenOther, droppedOther⟩ := takeWhile_append_apart eachOther apartOther
  rw [same] at taken dropped
  exact ⟨taken.symm.trans takenOther, dropped.symm.trans droppedOther⟩

private theorem IsNumbered.append_inj {numbers others behind : List Char}
    (numbered : IsNumbered numbers) (numberedOther : IsNumbered others)
    (apart : ∀ c ∈ rest.head?, isNumberChar c = false)
    (apartOther : ∀ c ∈ behind.head?, isNumberChar c = false)
    (same : numbers ++ rest = others ++ behind) : numbers = others ∧ rest = behind := by
  have noMark {digits tail : List Char} (some : digits ≠ [])
      (each : ∀ c ∈ digits, isNumberChar c = true) :
      ∀ c ∈ (digits ++ tail).head?, isMark c = false := by
    obtain ⟨c, later, rfl⟩ := List.exists_cons_of_ne_nil some
    rintro d ⟨⟩
    exact isMark_eq_false_of_isNumberChar (each c List.mem_cons_self)
  obtain ⟨front, digits, rfl, nonempty, marks, each⟩ := numbered
  obtain ⟨frontOther, digitsOther, rfl, nonemptyOther, marksOther, eachOther⟩ := numberedOther
  rw [List.append_assoc, List.append_assoc] at same
  obtain ⟨sameFront, sameBehind⟩ := append_inj_of_apart marks (noMark nonempty each) marksOther
    (noMark nonemptyOther eachOther) same
  obtain ⟨sameDigits, sameRest⟩ := append_inj_of_apart each apart eachOther apartOther sameBehind
  exact ⟨by rw [sameFront, sameDigits], sameRest⟩

theorem Fits.isNumbered (noWildcards : spelling.wildcards = false) (fits : spelling.Fits fields)
    (marks : ∀ c ∈ front, isMark c = true) : IsNumbered (front ++ fields.numberText) := by
  have ofNumeral {number : List Char} (isNumeral : spelling.IsNumeral number) :
      ∀ c ∈ number, isNumberChar c = true := by
    intro c member
    rw [isNumberChar, isNumeral.isDecimalDigit noWildcards c member, Bool.true_or]
  have ofLed {number : Option (List Char)}
      (isNumeral : ∀ digits ∈ number, spelling.IsNumeral digits) :
      ∀ c ∈ led '.' number, isNumberChar c = true := by
    intro c member
    rcases Fields.mem_led member with rfl | ⟨digits, present, inside⟩
    · decide
    · exact ofNumeral (isNumeral digits present) c inside
  refine ⟨front, fields.numberText, rfl, ?_, marks, ?_⟩
  · obtain ⟨c, others, major, -⟩ := fits.major.exists_eq_cons
    rw [Fields.numberText, major, List.cons_append]
    exact List.cons_ne_nil _ _
  · exact List.forall_mem_append.mpr ⟨ofNumeral fits.major,
      List.forall_mem_append.mpr ⟨ofLed fits.minor, ofLed fits.patch⟩⟩

/-! ### Where pre-releases begin -/

theorem head?_build_append (build : Option (List Char)) {blanks : List Char}
    (blank : Text.IsBlanks blanks) :
    ∀ c ∈ (led '+' build ++ blanks).head?, isNumberChar c = false ∧ c.isAlpha = false := by
  intro c first
  cases build with
  | none =>
      have isBlank := blank c (List.mem_of_mem_head? first)
      exact ⟨isNumberChar_eq_false_of_isBlank isBlank, isAlpha_eq_false_of_isBlank isBlank⟩
  | some build =>
      cases first
      decide

theorem WritesPreRelease.eq_some_of_isAlpha {preRelease : Option (List Char)}
    (writes : spelling.WritesPreRelease preRelease front)
    (behind : ∀ c ∈ rest.head?, c.isAlpha = false)
    (letter : ∃ c ∈ (front ++ rest).head?, c.isAlpha = true) : preRelease = some front := by
  obtain ⟨c, first, letter⟩ := letter
  cases writes with
  | bare => rfl
  | hyphened =>
      cases preRelease with
      | none => exact absurd letter (Bool.eq_false_iff.mp (behind c first))
      | some suffix =>
          cases first
          exact absurd letter (by decide)

/-! ### Lenient texts -/

/-- How fields may be written where a text is read leniently: marks, the numbers, the suffixes and
blanks. -/
structure WritesLeniently (fields : Fields) (text : List Char) : Prop where
  fits : lenient.Fits fields
  layout : ∃ front preRelease blanks,
    text = (front ++ fields.numberText) ++ (preRelease ++ (led '+' fields.build ++ blanks)) ∧
    (∀ c ∈ front, isMark c = true) ∧ lenient.WritesPreRelease fields.preRelease preRelease ∧
    Text.IsBlanks blanks

theorem Writes.writesLeniently (writes : lenient.Writes fields text) :
    WritesLeniently fields text := by
  obtain ⟨fits, front, preRelease, rfl, marks, -, writesPreRelease⟩ := writes
  refine ⟨fits, front, preRelease, [], ?_, marks, writesPreRelease, Text.isBlanks_nil⟩
  simp only [Fields.textWith_eq, List.append_assoc, List.append_nil]

theorem WritesLeniently.surrounded {marks blanks : List Char}
    (each : ∀ c ∈ marks, isMark c = true) (blank : Text.IsBlanks blanks)
    (writes : WritesLeniently fields text) : WritesLeniently fields (marks ++ text ++ blanks) := by
  obtain ⟨fits, front, preRelease, back, rfl, marksFront, writesPreRelease, blankBack⟩ := writes
  refine ⟨fits, marks ++ front, preRelease, back ++ blanks, ?_,
    List.forall_mem_append.mpr ⟨each, marksFront⟩, writesPreRelease,
    List.forall_mem_append.mpr ⟨blankBack, blank⟩⟩
  simp only [List.append_assoc]

private theorem Fits.textWith_ne_nil {preRelease : List Char} (fits : spelling.Fits fields) :
    fields.textWith preRelease ≠ [] := by
  obtain ⟨c, others, major, -⟩ := fits.major.exists_eq_cons
  rw [Fields.textWith, major, List.cons_append]
  exact List.cons_ne_nil _ _

theorem read?_trim_eq_some_iff :
    lenient.read? (Text.trim text) = some fields ↔ WritesLeniently fields text := by
  constructor
  · intro found
    obtain ⟨ahead, back, blankAhead, blankBack, around⟩ := Text.surrounds_trim text
    rw [around]
    exact (writes_of_read? found).writesLeniently.surrounded
      (fun c member => isMark_of_isBlank (blankAhead c member)) blankBack
  · rintro ⟨fits, front, preRelease, blanks, rfl, marks, writes, blank⟩
    have solid : ∀ c ∈ fields.textWith preRelease, Text.isBlank c = false := fun c member =>
      (fits.mem_textWith writes c member).elim isBlank_of_isFieldChar isBlank_of_isDecimalDigit
    have marksLeft : ∀ c ∈ front.dropWhile Text.isBlank, isMark c = true := fun c member =>
      marks c ((List.dropWhile_sublist _).subset member)
    have grouped :
        (front ++ fields.numberText) ++ (preRelease ++ (led '+' fields.build ++ blanks)) =
          front ++ fields.textWith preRelease ++ blanks := by
      simp only [Fields.textWith_eq, List.append_assoc]
    rw [grouped, Text.trim_append_append fits.textWith_ne_nil solid blank]
    exact Writes.read?_eq ⟨fits, _, preRelease, rfl, marksLeft, nofun, writes⟩

theorem WritesLeniently.hyphenated {numbers : List Char} (numbered : IsNumbered numbers)
    (letter : ∃ c ∈ rest.head?, c.isAlpha = true)
    (writes : WritesLeniently fields (numbers ++ rest)) :
    WritesLeniently fields (numbers ++ '-' :: rest) := by
  obtain ⟨fits, front, preRelease, blanks, layout, marks, writesPreRelease, blank⟩ := writes
  have behind := head?_build_append fields.build blank
  have apart : ∀ c ∈ rest.head?, isNumberChar c = false := by
    obtain ⟨d, first, letter⟩ := letter
    intro c same
    cases Option.mem_unique first same
    exact isNumberChar_of_isAlpha letter
  obtain ⟨rfl, rfl⟩ := numbered.append_inj (fits.isNumbered rfl marks) apart
    (writesPreRelease.apart fun c first => (behind c first).1) layout
  have bare : fields.preRelease = some preRelease :=
    writesPreRelease.eq_some_of_isAlpha (fun c first => (behind c first).2) letter
  refine ⟨fits, front, led '-' fields.preRelease, blanks, ?_, marks, .hyphened _, blank⟩
  rw [bare]
  rfl

theorem WritesLeniently.exists_numbered (present : fields.preRelease.isSome = true)
    (writes : WritesLeniently fields text) :
    ∃ numbers rest, IsNumbered numbers ∧
      (text = numbers ++ '-' :: rest ∨
        text = numbers ++ rest ∧ ∃ c ∈ rest.head?, c.isAlpha = true) := by
  obtain ⟨fits, front, preRelease, blanks, rfl, marks, writesPreRelease, blank⟩ := writes
  have numbered := fits.isNumbered rfl marks
  obtain ⟨suffix, isSuffix⟩ := Option.isSome_iff_exists.mp present
  rw [isSuffix] at writesPreRelease
  cases writesPreRelease with
  | hyphened => exact ⟨_, _, numbered, .inl rfl⟩
  | bare permitted letter => exact ⟨_, _, numbered, .inr ⟨rfl, _, rfl, letter⟩⟩

end Spelling

namespace Version

variable {source other : String} {fields : Fields} {version : Version}

private theorem readBuild_eq_ok {text : List Char} {build : BuildMetadata}
    (read : readBuild source text = .ok build) : readBuild other text = .ok build := by
  unfold readBuild at read ⊢
  split at read
  · exact read
  · cases read

theorem ofFields_eq_ok (found : ofFields source fields = .ok version) :
    ofFields other fields = .ok version := by
  obtain ⟨preRelease, readPreRelease, found⟩ := Outcome.bind_eq_ok_iff.mp found
  obtain ⟨build, buildRead, found⟩ := Outcome.bind_eq_ok_iff.mp found
  have readBuildOther : fields.build.mapM (readBuild other) = .ok build :=
    Outcome.mapM_option_eq_ok_of (fun _ _ => readBuild_eq_ok) buildRead
  exact Outcome.bind_eq_ok_iff.mpr ⟨preRelease, readPreRelease,
    Outcome.bind_eq_ok_iff.mpr ⟨build, readBuildOther, found⟩⟩

private theorem preRelease_isSome_of_ofFields (found : ofFields source fields = .ok version)
    (preRelease : version.isPreRelease = true) : fields.preRelease.isSome = true := by
  obtain ⟨value, readPreRelease, found⟩ := Outcome.bind_eq_ok_iff.mp found
  obtain ⟨build, -, found⟩ := Outcome.bind_eq_ok_iff.mp found
  obtain ⟨major, -, found⟩ := Outcome.bind_eq_ok_iff.mp found
  obtain ⟨minor, -, found⟩ := Outcome.bind_eq_ok_iff.mp found
  obtain ⟨patch, -, found⟩ := Outcome.bind_eq_ok_iff.mp found
  cases Outcome.pure_eq_ok_iff.mp found
  cases missing : fields.preRelease with
  | some text => rfl
  | none =>
      rw [missing] at readPreRelease
      cases readPreRelease
      cases preRelease

private theorem parse_eq_ok_iff : parse source = .ok version ↔
    ∃ fields, Spelling.strict.read? source.toList = some fields ∧
      ofFields source fields = .ok version := by
  unfold parse
  cases Spelling.strict.read? source.toList <;> simp

/-- What is read leniently is what is written leniently. -/
theorem parseLeniently_eq_ok_iff : parseLeniently source = .ok version ↔
    ∃ fields, Spelling.WritesLeniently fields source.toList ∧
      ofFields source fields = .ok version := by
  simp only [← Spelling.read?_trim_eq_some_iff]
  unfold parseLeniently
  cases Spelling.lenient.read? (Text.trim source.toList) <;> simp

theorem parseLeniently_eq_ok_of (parsed : parseLeniently source = .ok version)
    (writesToo : ∀ fields, Spelling.WritesLeniently fields source.toList →
      Spelling.WritesLeniently fields other.toList) : parseLeniently other = .ok version := by
  obtain ⟨fields, writes, found⟩ := parseLeniently_eq_ok_iff.mp parsed
  exact parseLeniently_eq_ok_iff.mpr ⟨fields, writesToo fields writes, ofFields_eq_ok found⟩

theorem parseLeniently_of_parse (parsed : parse source = .ok version) :
    parseLeniently source = .ok version := by
  obtain ⟨fields, cut, found⟩ := parse_eq_ok_iff.mp parsed
  have writes := (Spelling.writes_of_read? cut).mono Spelling.strict_isWithin_lenient
  exact parseLeniently_eq_ok_iff.mpr ⟨fields, writes.writesLeniently, found⟩

/-- Lenient reading extends strict reading. It reads what strict reading does with the same result,
and what it reads besides has a strict text. Marks in front, blanks behind and a hyphen where a
letter follows the numbers change nothing, and a pre-release that has no hyphen begins in such a
place. -/
theorem lenient_extends_strict (source : String) (version : Version) :
    (parse source = .ok version → parseLeniently source = .ok version) ∧
    (parseLeniently source = .ok version →
      parse version.text = .ok version ∧
      (∀ marks blanks : String, (∀ c ∈ marks.toList, Spelling.isMark c = true) →
        (∀ c ∈ blanks.toList, Text.isBlank c = true) →
          parseLeniently (marks ++ source ++ blanks) = .ok version) ∧
      (∀ numbers rest : String, Spelling.IsNumbered numbers.toList →
        (∃ c ∈ rest.toList.head?, c.isAlpha = true) → source = numbers ++ rest →
          parseLeniently (numbers ++ "-" ++ rest) = .ok version) ∧
      (version.isPreRelease = true →
        ∃ numbers rest : String, Spelling.IsNumbered numbers.toList ∧
          (source = numbers ++ "-" ++ rest ∨
            source = numbers ++ rest ∧ ∃ c ∈ rest.toList.head?, c.isAlpha = true))) := by
  refine ⟨parseLeniently_of_parse, fun parsed => ⟨version.parse_text, ?_, ?_, ?_⟩⟩
  · intro marks blanks each blank
    refine parseLeniently_eq_ok_of parsed fun fields writes => ?_
    rw [String.toList_append, String.toList_append]
    exact writes.surrounded each blank
  · rintro numbers rest numbered letter rfl
    refine parseLeniently_eq_ok_of parsed fun fields writes => ?_
    rw [String.toList_append] at writes
    have hyphenated := writes.hyphenated numbered letter
    simpa using hyphenated
  · intro preRelease
    obtain ⟨fields, writes, found⟩ := parseLeniently_eq_ok_iff.mp parsed
    obtain ⟨numbers, rest, numbered, written⟩ :=
      writes.exists_numbered (preRelease_isSome_of_ofFields found preRelease)
    refine ⟨String.ofList numbers, String.ofList rest, by simpa using numbered, ?_⟩
    simpa [← String.toList_inj] using written

theorem lenient_extends_strict_beta :
    ∃ version, parseLeniently " v1.0.0beta+5 " = .ok version ∧
      parse version.text = .ok version ∧
      parseLeniently "= v1.0.0beta+5 \t" = .ok version ∧
      parseLeniently " v1.0.0-beta+5 " = .ok version ∧
      parseLeniently version.text = .ok version := by
  obtain ⟨version, parsed⟩ : ∃ version, parseLeniently " v1.0.0beta+5 " = .ok version := ⟨_, rfl⟩
  obtain ⟨strictly, surrounded, hyphenated, -⟩ := (lenient_extends_strict _ _).2 parsed
  refine ⟨version, parsed, strictly, ?_, ?_, (lenient_extends_strict _ _).1 strictly⟩
  · exact surrounded "=" "\t" (List.all_eq_true.mp rfl) (List.all_eq_true.mp rfl)
  · have numbered : Spelling.IsNumbered " v1.0.0".toList :=
      ⟨[' ', 'v'], ['1', '.', '0', '.', '0'], rfl, List.cons_ne_nil _ _,
        List.all_eq_true.mp rfl, List.all_eq_true.mp rfl⟩
    exact hyphenated " v1.0.0" "beta+5 " numbered ⟨'b', rfl, rfl⟩ rfl

end Version

end Versioning
