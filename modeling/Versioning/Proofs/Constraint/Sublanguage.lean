import Versioning.Proofs.Constraint.Rereading
import Versioning.Proofs.Simple
import Versioning.Proofs.Version.Parsing

/-!
The simple grammar as a part of the npm grammar. A word that the simple grammar reads is an operator
and a complete version, or such a version alone. None of the sugar of the npm grammar applies to it,
and a single bar cannot stand in it, so both grammars cut a text into the same words and read the
same conditions from them. Only the build metadata of the versions is dropped by the second.
-/

namespace Versioning

variable {source other : String} {word text : List Char} {condition : Condition}

/-! ### Words -/

/-- What a condition may be written as in a word: its text or, where it requires equality, the
version alone. -/
inductive Condition.IsWritten (condition : Condition) : List Char → Prop
  | text : condition.IsWritten condition.text.toList
  | version (equality : condition.operator = .equal) :
      condition.IsWritten condition.version.text.toList

namespace Condition.IsWritten

private theorem isWordChar (written : condition.IsWritten word) :
    ∀ c ∈ word, Versioning.isWordChar c = true := by
  intro c member
  cases written with
  | text => exact condition.isWordChar_of_mem_text c member
  | version =>
      apply condition.isWordChar_of_mem_text c
      rw [condition.toList_text]
      exact List.mem_append_right _ member

theorem sigil_read (written : condition.IsWritten word) :
    Npm.Sigil.read word =
      (Npm.sigilOf condition.operator, condition.version.text.toList) := by
  cases written with
  | text => exact Npm.sigil_read_condition condition
  | version equality =>
      obtain ⟨c, rest, same, digit⟩ := condition.version.exists_toList_text_eq_cons
      have noSigil {mark : Char} (outside : mark.isDigit = false) : c ≠ mark :=
        Text.ne_of_class digit outside
      rw [same, equality]
      simp [Npm.Sigil.read, Npm.sigilOf, noSigil]

private theorem standsAlone (written : condition.IsWritten word) :
    Npm.Sigil.standsAlone word = false := by
  obtain ⟨c, rest, same, digit⟩ := condition.version.exists_toList_text_eq_cons
  have noMark {mark : Char} (outside : mark.isDigit = false) : (c == mark) = false :=
    beq_eq_false_iff_ne.mpr (Text.ne_of_class digit outside)
  rw [Npm.Sigil.standsAlone, written.sigil_read, same]
  simp [noMark]

private theorem readTerm_npm {options : Npm.Options} (written : condition.IsWritten word) :
    Npm.readTerm options source word = .ok [.condition condition.bare] := by
  refine Npm.readTerm_eq_ok_iff.mpr ⟨.complete condition.version, ?_, ?_⟩
  · rw [written.sigil_read]
    exact Npm.ofChars_version_text condition.version
  · rw [written.sigil_read]
    exact Npm.term_complete condition

end Condition.IsWritten

/-! ### Branches -/

namespace Simple

variable {predicate : Predicate} {branch : Branch} {branches : List Branch}

theorem splitOperator_append (word : List Char) :
    (splitOperator word).1.text.toList ++ (splitOperator word).2 = word ∨
      splitOperator word = (.equal, word) := by
  fun_cases splitOperator word with
  | case7 => exact .inr rfl
  | _ => exact .inl (by simp [Operator.text])

theorem isWritten_of_readTerm (found : readTerm word = .ok predicate) :
    ∃ condition, predicate = .condition condition ∧ condition.IsWritten word := by
  have split := splitOperator_append word
  unfold readTerm at found
  generalize splitOperator word = cut at found split
  obtain ⟨operator, rest⟩ := cut
  obtain ⟨version, parsed, found⟩ := Outcome.bind_eq_ok_iff.mp found
  obtain ⟨condition, made, same⟩ := Outcome.bind_eq_ok_iff.mp found
  refine ⟨condition, (Outcome.pure_eq_ok_iff.mp same).symm, ?_⟩
  obtain ⟨rfl, rfl⟩ := Condition.eq_of_make made
  have written : condition.version.text.toList = rest := by
    rw [Version.toList_text, Version.fields_of_parse (Outcome.mapError_eq_ok_iff.mp parsed),
      String.toList_ofList]
  subst written
  rcases split with joined | alone
  · rw [← condition.toList_text] at joined
    rw [← joined]
    exact .text
  · obtain ⟨equality, rfl⟩ := Prod.mk.inj alone
    exact .version equality

theorem isWritten_of_mapM_readTerm {words : List (List Char)}
    (found : words.mapM readTerm = .ok branch) :
    ∀ word ∈ words, ∃ condition : Condition, condition.IsWritten word := by
  intro word member
  obtain ⟨predicate, read⟩ := Outcome.exists_mapM_eq_ok_iff.mp ⟨branch, found⟩ word member
  obtain ⟨condition, -, written⟩ := isWritten_of_readTerm read
  exact ⟨condition, written⟩

private theorem readTokens_npm {options : Npm.Options} {words : List (List Char)}
    (found : words.mapM readTerm = .ok branch) :
    Npm.readTokens options other words = .ok (branch.map Predicate.bare) := by
  have readTerms : words.mapM (Npm.readTerm options other) =
      .ok (branch.map fun predicate => [predicate.bare]) := by
    rw [Outcome.mapM_eq_ok_iff, List.forall₂_map_right_iff]
    refine (Outcome.mapM_eq_ok_iff.mp found).imp fun word predicate read => ?_
    obtain ⟨condition, rfl, written⟩ := isWritten_of_readTerm read
    exact written.readTerm_npm
  unfold Npm.readTokens
  split
  · -- a dash between two words would be a hyphen range, but no condition is written as a dash
    obtain ⟨predicate, read⟩ := Outcome.exists_mapM_eq_ok_iff.mp ⟨branch, found⟩ ['-']
      (List.mem_cons_of_mem _ List.mem_cons_self)
    have refused : readTerm ['-'] = .error (.version (.invalidVersion "-")) := rfl
    rw [refused] at read
    cases read
  · rw [readTerms, Except.map, ← List.flatMap_def, ← List.map_eq_flatMap]

theorem bar_not_mem_of_readBranch (found : readBranch source text = .ok branch) : '|' ∉ text := by
  intro bar
  obtain ⟨word, member, inside⟩ := Text.exists_mem_words bar rfl
  unfold readBranch at found
  split at found
  · cases found
  · next star =>
    rw [star, List.mem_singleton] at member
    rw [member] at inside
    exact absurd inside (by decide)
  · obtain ⟨condition, written⟩ := isWritten_of_mapM_readTerm found word member
    exact absurd (written.isWordChar '|' inside) (by decide)

private theorem readBranch_npm {options : Npm.Options}
    (found : readBranch source text = .ok branch) :
    Npm.readBranch options other (Text.words text) = .ok (branch.map Predicate.bare) := by
  unfold readBranch at found
  split at found
  · cases found
  · next star =>
    cases found
    rw [star]
    obtain ⟨loose, lowered⟩ := options
    cases loose <;> rfl
  · next words some _ =>
    have whole : ∀ word ∈ Text.words text, Npm.Sigil.standsAlone word = false := by
      intro word member
      obtain ⟨condition, written⟩ := isWritten_of_mapM_readTerm found word member
      exact written.standsAlone
    unfold Npm.readBranch
    split
    · next none => exact (some none).elim
    · rw [Npm.glue_eq whole]
      exact readTokens_npm found

/-- Whatever the simple grammar reads from a text the npm grammar reads too, without the build
metadata. -/
theorem read_npm (options : Npm.Options) (found : read source = .ok branches) :
    Npm.read options source = .ok (branches.map fun branch => branch.map Predicate.bare) := by
  obtain ⟨-, readPieces⟩ := read_eq_ok_iff.mp found
  have noBar : ∀ piece ∈ Text.cutAtDoubleBars source.toList, '|' ∉ piece := by
    intro piece member
    obtain ⟨branch, readPiece⟩ :=
      Outcome.exists_mapM_eq_ok_iff.mp ⟨branches, readPieces⟩ piece member
    exact bar_not_mem_of_readBranch readPiece
  have cut : Npm.alternatives source =
      .ok ((Text.cutAtDoubleBars source.toList).map Text.words) := by
    refine Outcome.map_eq_ok_iff.mpr
      ⟨(Text.cutAtDoubleBars source.toList).map fun piece => [Text.words piece], ?_, ?_⟩
    · rw [Outcome.mapM_eq_ok_iff, List.forall₂_map_right_iff]
      exact List.forall₂_same.mpr fun piece member =>
        Npm.alternativesOfPiece_of_no_bar (noBar piece member)
    · rw [← List.flatMap_def, ← List.map_eq_flatMap]
  refine Outcome.bind_eq_ok_iff.mpr ⟨_, cut, ?_⟩
  rw [Outcome.mapM_eq_ok_iff, List.forall₂_map_left_iff, List.forall₂_map_right_iff]
  exact (Outcome.mapM_eq_ok_iff.mp readPieces).imp fun _ _ => readBranch_npm

end Simple

private theorem Branch.conjunction_map_bare (branch : Branch) :
    Branch.conjunction (branch.map Predicate.bare) = branch.conjunction := by
  rw [conjunction, conjunction, List.flatMap_map]
  exact List.flatMap_congr fun predicate _ => predicate.comparators_bare

/-! ### Constraints -/

namespace Constraint

/-- Whatever constraint the simple grammar reads from a text, the npm grammar reads an equal one
from it, with any options. -/
theorem exists_parse_npm_of_simple {constraint : Constraint}
    (read : parse .simple source = .ok constraint) (options : Npm.Options) :
    ∃ other, parse (.npm options) source = .ok other ∧ (other == constraint) = true := by
  obtain ⟨reading, found, some, branches, -, preferred⟩ := parse_eq_ok_iff.mp read
  obtain ⟨read, readSource, same⟩ := Outcome.bind_eq_ok_iff.mp found
  cases Outcome.pure_eq_ok_iff.mp same
  cases branches
  have conjunctions :
      (constraint.branches.map fun branch => branch.map Predicate.bare).map Branch.conjunction =
        constraint.branches.map Branch.conjunction := by
    rw [List.map_map]
    exact List.map_congr_left fun branch _ => branch.conjunction_map_bare
  have someBare :
      (constraint.branches.map fun branch => branch.map Predicate.bare).all List.isEmpty =
        false := by
    simpa [List.all_map, Function.comp_def] using some
  obtain ⟨other, parsed, otherBranches⟩ := exists_parse
    (Grammar.read_npm_eq_ok_iff.mpr ⟨rfl, Simple.read_npm options readSource⟩) someBare
    ⟨_, by rw [conjunctions]; exact constraint.ranges_eq⟩
  refine ⟨other, parsed, beq_eq_true_iff.mpr ⟨?_, ?_⟩⟩
  · apply ranges_eq_of_conjunctions
    rw [otherBranches, conjunctions]
  · rw [preferred]
    exact (parse_npm_eq_ok_iff.mp parsed).2.2.2

theorem exists_parse_npm_of_simple_build :
    ∃ constraint other : Constraint,
      parse .simple "!=1.2.3+b  >=1.0.0-rc.1 2.0.0||*" = .ok constraint ∧
        parse (.npm ⟨true, true⟩) "!=1.2.3+b  >=1.0.0-rc.1 2.0.0||*" = .ok other ∧
        (other == constraint) = true := by
  obtain ⟨constraint, read, -⟩ : ∃ constraint,
      parse .simple "!=1.2.3+b  >=1.0.0-rc.1 2.0.0||*" = .ok constraint ∧
        constraint.branches = _ :=
    exists_parse rfl rfl ⟨_, rfl⟩
  obtain ⟨other, parsed, equal⟩ := exists_parse_npm_of_simple read ⟨true, true⟩
  exact ⟨constraint, other, read, parsed, equal⟩

end Constraint

end Versioning
