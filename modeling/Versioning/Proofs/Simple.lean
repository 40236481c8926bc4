import Versioning.Grammar
import Versioning.Proofs.Predicate

/-!
The simple grammar. What is read in it is `*` or conditions, and these are read from the text that
they are written as.
-/

namespace Versioning

namespace Simple

variable {source other : String} {word : List Char} {predicate : Predicate}

/-! ### Terms -/

private theorem splitOperator_operator (operator : Operator) {c : Char} (digit : c.isDigit = true)
    (rest : List Char) :
    splitOperator (operator.text.toList ++ c :: rest) = (operator, c :: rest) := by
  have notEqual : c ≠ '=' := Text.ne_of_class digit rfl
  cases operator <;> simp [Operator.text, splitOperator, notEqual]

private theorem readTerm_text (condition : Condition) :
    readTerm condition.text.toList = .ok (.condition condition) := by
  obtain ⟨c, rest, same, digit⟩ := condition.version.exists_toList_text_eq_cons
  have split : splitOperator condition.text.toList =
      (condition.operator, condition.version.text.toList) := by
    rw [condition.toList_text, same]
    exact splitOperator_operator _ digit rest
  have version : (Version.parse (String.ofList condition.version.text.toList)).mapError
      ConstraintError.version = .ok condition.version := by
    rw [String.ofList_toList, Version.parse_text]
    rfl
  unfold readTerm
  rw [split]
  refine Outcome.bind_eq_ok_iff.mpr ⟨_, version, Outcome.bind_eq_ok_iff.mpr ⟨_, ?_, rfl⟩⟩
  exact condition.make_eq_ok

private theorem exists_of_readTerm (found : readTerm word = .ok predicate) :
    ∃ condition, predicate = .condition condition := by
  obtain ⟨version, -, found⟩ := Outcome.bind_eq_ok_iff.mp found
  obtain ⟨condition, -, same⟩ := Outcome.bind_eq_ok_iff.mp found
  exact ⟨condition, (Outcome.pure_eq_ok_iff.mp same).symm⟩

/-! ### Branches -/

def IsAlternative (branch : Branch) : Prop :=
  branch = [.any] ∨
    branch ≠ [] ∧ ∀ predicate ∈ branch, ∃ condition, predicate = .condition condition

variable {text outer inner : List Char} {branch : Branch} {branches : List Branch}

private theorem isAlternative_of_readBranch (found : readBranch source text = .ok branch) :
    IsAlternative branch := by
  unfold readBranch at found
  split at found
  · cases found
  · cases found
    exact .inl rfl
  · next words some _ =>
    right
    constructor
    · rintro rfl
      exact some (List.forall₂_nil_right_iff.mp (Outcome.mapM_eq_ok_iff.mp found))
    · intro predicate member
      obtain ⟨word, -, read⟩ := Outcome.exists_of_mem_mapM found member
      exact exists_of_readTerm read

private theorem IsAlternative.ne_nil (alternative : IsAlternative branch) : branch ≠ [] := by
  rcases alternative with rfl | ⟨some, -⟩
  · exact List.cons_ne_nil _ _
  · exact some

theorem IsAlternative.isWord (alternative : IsAlternative branch) :
    ∀ predicate ∈ branch, predicate.IsWord := by
  rcases alternative with rfl | ⟨-, conditions⟩
  · exact fun predicate member => .inl (List.mem_singleton.mp member)
  · exact fun predicate member => .inr (conditions predicate member)

private theorem IsAlternative.readBranch_text (alternative : IsAlternative branch) :
    readBranch source branch.text.toList = .ok branch := by
  have words := Branch.words_text alternative.isWord
  unfold readBranch
  rw [words]
  rcases alternative with rfl | ⟨some, conditions⟩
  · rfl
  · have readTerms : branch.tokens.mapM readTerm = .ok branch := by
      rw [Outcome.mapM_eq_ok_iff, Branch.tokens, List.forall₂_map_left_iff]
      refine List.forall₂_same.mpr fun predicate member => ?_
      obtain ⟨condition, rfl⟩ := conditions predicate member
      exact readTerm_text condition
    split
    · next none => exact absurd (List.map_eq_nil_iff.mp none) some
    · next star =>
      -- no condition is written as a star, since a star is not read as one
      have refused : readTerm ['*'] = .error (.version (.invalidVersion "*")) := rfl
      rw [star, List.mapM_cons, refused] at readTerms
      cases readTerms
    · exact readTerms

/-! ### Texts -/

private theorem readBranch_eq_ok_of_surrounds (around : Text.Surrounds outer inner)
    (found : readBranch source inner = .ok branch) : readBranch other outer = .ok branch := by
  unfold readBranch at found ⊢
  rw [around.words_eq]
  split at found
  · cases found
  · exact found
  · exact found

theorem read_eq_ok_iff : read source = .ok branches ↔
    ¬Text.isBlankText source.toList = true ∧
      (Text.cutAtDoubleBars source.toList).mapM (readBranch source) = .ok branches := by
  unfold read
  split
  · next blank => simp [blank]
  · next solid => simp [solid]

private theorem read_or {a b : String} {first second : List Branch} (readFirst : read a = .ok first)
    (readSecond : read b = .ok second) : read (a ++ " || " ++ b) = .ok (first ++ second) := by
  have pieces := (read_eq_ok_iff.mp readFirst).2
  have otherPieces := (read_eq_ok_iff.mp readSecond).2
  have bar : '|' ∈ (a ++ " || " ++ b).toList := by simp
  refine read_eq_ok_iff.mpr ⟨Text.not_isBlankText bar rfl, ?_⟩
  exact Text.mapM_cutAtDoubleBars_or readBranch readBranch_eq_ok_of_surrounds pieces otherPieces

private theorem read_text (alternative : IsAlternative branch) :
    read branch.text = .ok [branch] := by
  have words := Branch.words_text alternative.isWord
  refine read_eq_ok_iff.mpr ⟨fun blank => ?_, ?_⟩
  · have noWords : Text.words branch.text.toList = [] :=
      Text.words_append_blanks [] (List.all_eq_true.mp blank)
    rw [noWords] at words
    exact alternative.ne_nil (List.map_eq_nil_iff.mp words.symm)
  · rw [Text.cutAtDoubleBars_eq_singleton (Branch.bar_not_mem_text alternative.isWord),
      Outcome.mapM_eq_ok_iff]
    exact .cons alternative.readBranch_text .nil

theorem read_render (some : branches ≠ []) (found : read source = .ok branches) :
    read (Grammar.simple.render branches) = .ok branches := by
  refine Branch.read_intercalate read_or (fun branch member => ?_) some
  obtain ⟨text, -, readText⟩ := Outcome.exists_of_mem_mapM (read_eq_ok_iff.mp found).2 member
  exact read_text (isAlternative_of_readBranch readText)

end Simple

end Versioning
