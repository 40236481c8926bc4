import Versioning.Proofs.Descriptor
import Versioning.Proofs.Npm.Alternatives
import Versioning.Proofs.Version.Permissions

/-!
Strict readings within loose ones. What a stricter dialect accepts the next one accepts as the same
descriptor, and a descriptor is read again from its own text. The npm grammar looks at its dialect
only where it reads descriptors, so a text that it accepts says the same when it is read loosely.
-/

namespace Versioning

namespace Descriptor

variable {dialect wider : Dialect} {text : List Char} {descriptor : Descriptor}

private theorem Dialect.maven_isWithin_npm : maven.spelling.IsWithin npm.spelling := by
  constructor <;> decide

theorem Dialect.npm_isWithin_npmLoose : npm.spelling.IsWithin npmLoose.spelling := by
  constructor <;> decide

/-- A dialect that permits more reads the same descriptor. -/
theorem ofChars_mono (within : dialect.spelling.IsWithin wider.spelling)
    (found : ofChars dialect text = .ok descriptor) : ofChars wider text = .ok descriptor := by
  unfold ofChars at found ⊢
  split at found
  · next fields cut =>
    rw [Spelling.read?_mono within cut]
    exact found
  · cases found

end Descriptor

namespace Npm

variable {includePreRelease : Bool} {source : String} {branch : Branch}

private theorem term_loose (includePreRelease : Bool) (source : String) (sigil : Sigil)
    (descriptor : Descriptor) :
    term ⟨true, includePreRelease⟩ source sigil descriptor =
      term ⟨false, includePreRelease⟩ source sigil descriptor := by
  cases sigil <;> rfl

private theorem hyphen_loose (includePreRelease : Bool) (low high : Descriptor) :
    hyphen ⟨true, includePreRelease⟩ low high = hyphen ⟨false, includePreRelease⟩ low high := rfl

private theorem readTerm_loose {token : Word}
    (found : readTerm ⟨false, includePreRelease⟩ source token = .ok branch) :
    readTerm ⟨true, includePreRelease⟩ source token = .ok branch := by
  obtain ⟨descriptor, described, found⟩ := readTerm_eq_ok_iff.mp found
  rw [← term_loose] at found
  have within := Descriptor.Dialect.npm_isWithin_npmLoose
  exact readTerm_eq_ok_iff.mpr ⟨descriptor, Descriptor.ofChars_mono within described, found⟩

private theorem readTokens_loose {tokens : List Word}
    (found : readTokens ⟨false, includePreRelease⟩ source tokens = .ok branch) :
    readTokens ⟨true, includePreRelease⟩ source tokens = .ok branch := by
  unfold readTokens at found ⊢
  split at found
  · obtain ⟨low, readLow, found⟩ := Outcome.bind_eq_ok_iff.mp found
    obtain ⟨high, readHigh, found⟩ := Outcome.bind_eq_ok_iff.mp found
    rw [← hyphen_loose] at found
    have within := Descriptor.Dialect.npm_isWithin_npmLoose
    exact Outcome.bind_eq_ok_iff.mpr ⟨low, Descriptor.ofChars_mono within readLow,
      Outcome.bind_eq_ok_iff.mpr ⟨high, Descriptor.ofChars_mono within readHigh, found⟩⟩
  · obtain ⟨branches, terms, rfl⟩ := Outcome.map_eq_ok_iff.mp found
    refine Outcome.map_eq_ok_iff.mpr ⟨branches, ?_, rfl⟩
    exact Outcome.mapM_eq_ok_of_forall₂ (List.forall₂_same.mpr fun _ _ _ => readTerm_loose) terms

private theorem readBranch_loose {words : List Word}
    (found : readBranch ⟨false, includePreRelease⟩ source words = .ok branch) :
    readBranch ⟨true, includePreRelease⟩ source words = .ok branch := by
  cases words with
  | nil => exact found
  | cons word rest => exact readTokens_loose found

private theorem read_loose {branches : List Branch}
    (found : read ⟨false, includePreRelease⟩ source = .ok branches) :
    read ⟨true, includePreRelease⟩ source = .ok branches := by
  obtain ⟨list, cut, found⟩ := Outcome.bind_eq_ok_iff.mp found
  refine Outcome.bind_eq_ok_iff.mpr ⟨list, cut, ?_⟩
  exact Outcome.mapM_eq_ok_of_forall₂ (List.forall₂_same.mpr fun _ _ _ => readBranch_loose) found

end Npm

/-- Strict is within loose. Each dialect reads what a stricter one reads, with the same result, and
reads its descriptors back from their texts. What the npm grammar reads strictly it reads loosely as
the same predicates. -/
theorem strict_within_loose :
    (∀ source descriptor, Descriptor.parse .maven source = .ok descriptor →
      Descriptor.parse .npm source = .ok descriptor) ∧
    (∀ source descriptor, Descriptor.parse .npm source = .ok descriptor →
      Descriptor.parse .npmLoose source = .ok descriptor) ∧
    (∀ dialect source descriptor, Descriptor.parse dialect source = .ok descriptor →
      Descriptor.parse dialect descriptor.text = .ok descriptor) ∧
    ∀ includePreRelease source reading,
      Grammar.read (.npm ⟨false, includePreRelease⟩) source = .ok reading →
        Grammar.read (.npm ⟨true, includePreRelease⟩) source = .ok reading := by
  refine ⟨?_, ?_, ?_, ?_⟩
  · intro source descriptor found
    exact Descriptor.ofChars_mono Descriptor.Dialect.maven_isWithin_npm found
  · intro source descriptor found
    exact Descriptor.ofChars_mono Descriptor.Dialect.npm_isWithin_npmLoose found
  · intro dialect source descriptor found
    exact (Descriptor.isWritable_of_ofChars found).ofChars_text
  · intro includePreRelease source reading found
    obtain ⟨preferred, found⟩ := Grammar.read_npm_eq_ok_iff.mp found
    exact Grammar.read_npm_eq_ok_iff.mpr ⟨preferred, Npm.read_loose found⟩

theorem strict_within_loose_candidate :
    ∃ descriptor reading,
      Descriptor.parse .npmLoose "1.2.3-rc.1" = .ok descriptor ∧
      Descriptor.parse .maven descriptor.text = .ok descriptor ∧
      Grammar.read (.npm ⟨true, false⟩) "^1.2.3-rc.1 || 2 - 3.x" = .ok reading := by
  obtain ⟨mavenToNpm, npmToLoose, reread, toLoose⟩ := strict_within_loose
  exact ⟨_, _, npmToLoose _ _ (mavenToNpm "1.2.3-rc.1" _ rfl), reread .maven "1.2.3-rc.1" _ rfl,
    toLoose false _ _ rfl⟩

end Versioning
