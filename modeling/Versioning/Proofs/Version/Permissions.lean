import Versioning.Proofs.Version.Spelling

/-!
Spellings that permit more. What may be written in a spelling may be written in one with all of its
permissions, and a text in which fields are written is cut into just these fields. Hence the second
spelling accepts what the first one does, and nothing that it permits besides gets in the way.
-/

namespace Versioning

namespace Spelling

/-- Whether another spelling has all permissions of a spelling. -/
structure IsWithin (spelling wider : Spelling) : Prop where
  marks : spelling.marks = true → wider.marks = true
  leadingZeros : spelling.leadingZeros = true → wider.leadingZeros = true
  wildcards : spelling.wildcards = true → wider.wildcards = true
  incomplete : spelling.incomplete = true → wider.incomplete = true
  suffixesOnIncomplete :
    spelling.suffixesOnIncomplete = true → wider.suffixesOnIncomplete = true
  bareSuffix : spelling.bareSuffix = true → wider.bareSuffix = true
  build : spelling.build = true → wider.build = true

variable {spelling wider : Spelling} {fields : Fields} {text : List Char}

private theorem IsNumeral.mono (within : spelling.IsWithin wider)
    (isNumeral : spelling.IsNumeral text) :
    wider.IsNumeral text := by
  cases isNumeral with
  | wildcard allowed mark => exact .wildcard (within.wildcards allowed) mark
  | zero => exact .zero
  | digits first each =>
      have firstToo := first.imp_right fun padded => And.imp_left within.leadingZeros padded
      exact .digits firstToo each

private theorem Fits.mono (within : spelling.IsWithin wider) (fits : spelling.Fits fields) :
    wider.Fits fields :=
  { fits with
    major := fits.major.mono within
    minor := fun text present => (fits.minor text present).mono within
    patch := fun text present => (fits.patch text present).mono within
    complete := fits.complete.imp_right within.incomplete
    suffixed := fits.suffixed.imp_right (Or.imp_left within.suffixesOnIncomplete)
    buildAllowed := fits.buildAllowed.imp_right within.build }

private theorem WritesPreRelease.mono {preRelease : Option (List Char)}
    (within : spelling.IsWithin wider) (writes : spelling.WritesPreRelease preRelease text) :
    wider.WritesPreRelease preRelease text := by
  cases writes with
  | hyphened => exact .hyphened preRelease
  | bare permitted letter => exact .bare (within.bareSuffix permitted) letter

theorem Writes.mono (within : spelling.IsWithin wider) (writes : spelling.Writes fields text) :
    wider.Writes fields text := by
  obtain ⟨fits, front, preRelease, layout, marks, noMarks, writesPreRelease⟩ := writes
  refine ⟨fits.mono within, front, preRelease, layout, marks, fun unmarked => noMarks ?_,
    writesPreRelease.mono within⟩
  rw [Bool.eq_false_iff] at unmarked ⊢
  exact fun marked => unmarked (within.marks marked)

/-- A text that is cut into fields is cut into the same fields where more is permitted. -/
theorem read?_mono (within : spelling.IsWithin wider) (found : spelling.read? text = some fields) :
    wider.read? text = some fields := by
  rw [read?_eq_some_iff_writes] at found ⊢
  exact found.mono within

theorem strict_isWithin_lenient : strict.IsWithin lenient := by
  constructor <;> decide

end Spelling

end Versioning
