import Versioning.Grammar
import Versioning.Proofs.Descriptor
import Versioning.Proofs.Npm.Term
import Versioning.Proofs.Predicate

/-!
Npm branches are read from the text that they are written as. The desugared conditions are complete
versions behind operators, so that no sugar applies to them a second time, and neither does the
lowering of lower bounds.
-/

namespace Versioning

namespace Npm

variable {options : Options} {source : String}

/-! ### Tokens -/

def sigilOf : Operator → Sigil
  | .equal => .plain
  | .notEqual => .notEqual
  | .less => .less
  | .atMost => .atMost
  | .greater => .greater
  | .atLeast => .atLeast

private theorem sigil_read_operator (operator : Operator) {c : Char} (digit : c.isDigit = true)
    (rest : List Char) :
    Sigil.read (operator.text.toList ++ c :: rest) = (sigilOf operator, c :: rest) := by
  have notEqual : c ≠ '=' := Text.ne_of_class digit rfl
  have notLess : c ≠ '<' := Text.ne_of_class digit rfl
  have notGreater : c ≠ '>' := Text.ne_of_class digit rfl
  cases operator <;>
    simp [Operator.text, Sigil.read, sigilOf, notEqual, notLess, notGreater]

theorem sigil_read_condition (condition : Condition) :
    Sigil.read condition.text.toList =
      (sigilOf condition.operator, condition.version.text.toList) := by
  obtain ⟨c, rest, same, digit⟩ := condition.version.exists_toList_text_eq_cons
  rw [condition.toList_text, same]
  exact sigil_read_operator _ digit rest

theorem term_complete (condition : Condition) :
    term options source (sigilOf condition.operator) (.complete condition.version) =
      .ok (single condition.bare) := by
  obtain ⟨operator, ⟨point, build⟩, comparator, same⟩ := condition
  have made (operator : Operator) (same : operator.comparator point = .ok comparator) :
      comparison operator point = .ok (single ⟨operator, point.toVersion, comparator, same⟩) := by
    have found : Condition.make operator point.toVersion = .ok _ :=
      Condition.make_eq_ok ⟨operator, point.toVersion, comparator, same⟩
    rw [comparison, found]
    rfl
  cases operator with
  | atMost => exact made .atMost same
  | greater => exact made .greater same
  | _ =>
      cases same
      rfl

theorem ofChars_version_text (version : Version) :
    Descriptor.ofChars options.dialect version.text.toList = .ok (.complete version) := by
  apply Descriptor.ofChars_version_text
  unfold Options.dialect
  split <;> rfl

private theorem readTerm_text (condition : Condition) :
    readTerm options source condition.text.toList = .ok (single condition.bare) := by
  refine readTerm_eq_ok_iff.mpr ⟨.complete condition.version, ?_, ?_⟩
  · rw [sigil_read_condition]
    exact ofChars_version_text condition.version
  · rw [sigil_read_condition]
    exact term_complete condition

private theorem readTerm_star : readTerm options source ['*'] = .ok [.any] := by
  obtain ⟨loose, lowered⟩ := options
  cases loose <;> rfl

/-! ### Predicates -/

variable {predicate : Predicate}

theorem readTerm_predicate (isWord : predicate.IsWord) :
    readTerm options source predicate.text.toList = .ok [predicate.bare] := by
  rcases isWord with rfl | ⟨condition, rfl⟩
  · exact readTerm_star
  · exact readTerm_text condition

private theorem standsAlone_predicate (isWord : predicate.IsWord) :
    Sigil.standsAlone predicate.text.toList = false := by
  rcases isWord with rfl | ⟨condition, rfl⟩
  · decide
  · obtain ⟨c, rest, same, digit⟩ := condition.version.exists_toList_text_eq_cons
    have noMark : (c == 'v' || c == '=') = false := by
      simp only [Bool.or_eq_false_iff, beq_eq_false_iff_ne]
      exact ⟨Text.ne_of_class digit rfl, Text.ne_of_class digit rfl⟩
    change Sigil.standsAlone condition.text.toList = false
    rw [Sigil.standsAlone, sigil_read_condition, same, List.all_cons, noMark, Bool.false_and]

theorem predicate_text_ne_dash (isWord : predicate.IsWord) : predicate.text.toList ≠ ['-'] := by
  intro same
  have read : readTerm .standard "" predicate.text.toList = .ok [predicate.bare] :=
    readTerm_predicate isWord
  have refused : readTerm .standard "" ['-'] = .error (.invalidDescriptor "-") := rfl
  rw [same, refused] at read
  cases read

/-! ### Branches -/

theorem glue_eq {tokens : List Word} (whole : ∀ token ∈ tokens, Sigil.standsAlone token = false) :
    glue [] tokens = tokens := by
  induction tokens with
  | nil => rfl
  | cons token rest ih =>
      obtain ⟨first, later⟩ := List.forall_mem_cons.mp whole
      simp only [glue, List.nil_append, first, ih later, Bool.false_eq_true, if_false]

variable {branch : Branch}

private theorem readTokens_tokens (words : ∀ predicate ∈ branch, predicate.IsWord) :
    readTokens options source branch.tokens = .ok (branch.map Predicate.bare) := by
  have readTerms : branch.tokens.mapM (readTerm options source) =
      .ok (branch.map fun predicate => [predicate.bare]) := by
    rw [Outcome.mapM_eq_ok_iff, Branch.tokens, List.forall₂_map_left_iff,
      List.forall₂_map_right_iff]
    exact List.forall₂_same.mpr fun predicate member => readTerm_predicate (words predicate member)
  unfold readTokens
  split
  · next low high same =>
    have hyphen : ['-'] ∈ branch.tokens := by
      rw [same]
      exact List.mem_cons_of_mem _ List.mem_cons_self
    obtain ⟨predicate, member, isHyphen⟩ := List.mem_map.mp hyphen
    exact absurd isHyphen (predicate_text_ne_dash (words predicate member))
  · rw [readTerms, Except.map, ← List.flatMap_def, ← List.map_eq_flatMap]

private theorem readBranch_tokens (nonempty : branch ≠ [])
    (words : ∀ predicate ∈ branch, predicate.IsWord) :
    readBranch options source branch.tokens = .ok (branch.map Predicate.bare) := by
  have whole : ∀ token ∈ branch.tokens, Sigil.standsAlone token = false :=
    List.forall_mem_map.mpr fun predicate member => standsAlone_predicate (words predicate member)
  unfold readBranch
  split
  · next same => exact absurd (List.map_eq_nil_iff.mp same) nonempty
  · rw [glue_eq whole]
    exact readTokens_tokens words

private theorem alternatives_text (words : ∀ predicate ∈ branch, predicate.IsWord) :
    alternatives branch.text = .ok [branch.tokens] := by
  rw [alternatives_of_no_bar (Branch.bar_not_mem_text words), Branch.words_text words]

/-- A branch is read from its text, without the build metadata in it. -/
theorem read_text (nonempty : branch ≠ []) (words : ∀ predicate ∈ branch, predicate.IsWord) :
    read options branch.text = .ok [branch.map Predicate.bare] := by
  refine Outcome.bind_eq_ok_iff.mpr ⟨_, alternatives_text words, ?_⟩
  rw [Outcome.mapM_eq_ok_iff]
  exact .cons (readBranch_tokens nonempty words) .nil

theorem read_render {branches : List Branch} (some : branches ≠ [])
    (found : read options source = .ok branches) :
    read options ((Grammar.npm options).render branches) = .ok branches := by
  refine Branch.read_intercalate read_or (fun branch member => ?_) some
  obtain ⟨alternatives, cut, -⟩ := Outcome.bind_eq_ok_iff.mp found
  obtain ⟨words, -, made⟩ := isMadeOf_read cut found branch member
  have kept : branch.map Predicate.bare = branch.map id := by
    refine List.map_congr_left fun predicate among => ?_
    rcases made.forall_mem predicate among with rfl | ⟨condition, rfl, plain, -⟩
    · rfl
    · exact congrArg Predicate.condition (Condition.bare_eq plain)
  have isWord : ∀ predicate ∈ branch, predicate.IsWord := fun predicate among =>
    (made.forall_mem predicate among).imp_right fun ⟨condition, same, _⟩ => ⟨condition, same⟩
  rw [read_text made.ne_nil isWord, kept, List.map_id]

end Npm

end Versioning
