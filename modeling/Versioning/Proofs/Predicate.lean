import Versioning.Proofs.Condition
import Versioning.Proofs.Version.Text

/-!
The texts of predicates and branches. A condition is written as an operator and at once, without
blanks, a version, which begins with a digit. So the words of a branch are the texts of its
predicates, and no bar stands in it.
-/

namespace Versioning

theorem Version.exists_toList_text_eq_cons (version : Version) :
    ∃ c rest, version.text.toList = c :: rest ∧ c.isDigit = true := by
  obtain ⟨c, rest, same⟩ :=
    List.exists_cons_of_ne_nil (Nat.toDigits_ne_nil (n := version.major.value) (b := 10))
  have digit : c.isDigit = true := isDigit_of_mem_toDigits (same ▸ List.mem_cons_self)
  rw [toList_text, Fields.text, fields, same]
  exact ⟨c, _, List.cons_append, digit⟩

theorem Version.isFieldChar_of_mem_text (version : Version) :
    ∀ c ∈ version.text.toList, isFieldChar c = true := by
  have permits : Spelling.strict.Permits version.fields := permits_fields rfl version
  rw [toList_text]
  exact permits.isFieldChar

theorem Version.isBlank_of_mem_text (version : Version) :
    ∀ c ∈ version.text.toList, Text.isBlank c = false :=
  fun c member => isBlank_of_isFieldChar (version.isFieldChar_of_mem_text c member)

def isWordChar (c : Char) : Bool := !Text.isBlank c && c != '|'

namespace Condition

theorem toList_text (condition : Condition) : condition.text.toList =
    condition.operator.text.toList ++ condition.version.text.toList :=
  String.toList_append

theorem isWordChar_of_mem_text (condition : Condition) :
    ∀ c ∈ condition.text.toList, isWordChar c = true := by
  intro c member
  rw [toList_text, List.mem_append] at member
  rcases member with atOperator | atVersion
  · have each (operator : Operator) : operator.text.toList.all isWordChar = true := by
      cases operator <;> decide
    exact List.all_eq_true.mp (each _) c atOperator
  · have field := condition.version.isFieldChar_of_mem_text c atVersion
    have noBar : c ≠ '|' := Text.ne_of_class field rfl
    simp [isWordChar, isBlank_of_isFieldChar field, noBar]

private theorem text_ne_nil (condition : Condition) : condition.text.toList ≠ [] := by
  obtain ⟨c, rest, same, -⟩ := condition.version.exists_toList_text_eq_cons
  rw [toList_text, same]
  exact List.append_ne_nil_of_right_ne_nil _ (List.cons_ne_nil _ _)

end Condition

def Condition.bare (condition : Condition) : Condition :=
  { condition with version := condition.version.withoutBuild }

theorem Condition.bare_eq {condition : Condition} (plain : condition.version.build = none) :
    condition.bare = condition := by
  obtain ⟨operator, ⟨point, build⟩, comparator, same⟩ := condition
  cases plain
  rfl

/-- The predicate that is read from the text of another: build metadata is passed over. -/
def Predicate.bare : Predicate → Predicate
  | .condition term => .condition term.bare
  | predicate => predicate

theorem Predicate.comparators_bare (predicate : Predicate) :
    predicate.bare.comparators = predicate.comparators := by
  cases predicate <;> rfl

def Predicate.IsWord (predicate : Predicate) : Prop :=
  predicate = .any ∨ ∃ condition, predicate = .condition condition

private theorem Predicate.IsWord.text_ne_nil {predicate : Predicate} (isWord : predicate.IsWord) :
    predicate.text.toList ≠ [] := by
  rcases isWord with rfl | ⟨condition, rfl⟩
  · decide
  · exact condition.text_ne_nil

theorem Predicate.IsWord.isWordChar_of_mem_text {predicate : Predicate}
    (isWord : predicate.IsWord) :
    ∀ c ∈ predicate.text.toList, isWordChar c = true := by
  rcases isWord with rfl | ⟨condition, rfl⟩
  · exact List.all_eq_true.mp rfl
  · exact condition.isWordChar_of_mem_text

/-! ### Branches -/

namespace Branch

variable {branch : Branch} {branches : List Branch}

def text (branch : Branch) : String := " ".intercalate (branch.map Predicate.text)

def tokens (branch : Branch) : List (List Char) := branch.map fun predicate => predicate.text.toList

theorem toList_text (branch : Branch) : branch.text.toList = [' '].intercalate branch.tokens := by
  rw [text, String.toList_intercalate, List.map_map]
  rfl

theorem words_text (words : ∀ predicate ∈ branch, predicate.IsWord) :
    Text.words branch.text.toList = branch.tokens := by
  rw [toList_text, Text.words_intercalate]
  · exact List.forall_mem_map.mpr fun predicate member => (words predicate member).text_ne_nil
  · refine List.forall_mem_map.mpr fun predicate member c inside => ?_
    have word := (words predicate member).isWordChar_of_mem_text c inside
    rw [isWordChar, Bool.and_eq_true, Bool.not_eq_true'] at word
    exact word.1

theorem bar_not_mem_text (words : ∀ predicate ∈ branch, predicate.IsWord) :
    '|' ∉ branch.text.toList := by
  intro bar
  rw [toList_text] at bar
  rcases Text.mem_intercalate bar with blank | ⟨token, member, inside⟩
  · exact absurd blank (by decide)
  · obtain ⟨predicate, among, rfl⟩ := List.mem_map.mp member
    exact absurd ((words predicate among).isWordChar_of_mem_text '|' inside) (by decide)

theorem read_intercalate_map {ε : Type} {read : String → Except ε (List Branch)}
    {reread : Branch → Branch}
    (or : ∀ {a b : String} {first second : List Branch}, read a = .ok first →
      read b = .ok second → read (a ++ " || " ++ b) = .ok (first ++ second))
    (each : ∀ branch ∈ branches, read branch.text = .ok [reread branch]) (some : branches ≠ []) :
    read (" || ".intercalate (branches.map text)) = .ok (branches.map reread) := by
  induction branches with
  | nil => contradiction
  | cons branch rest ih =>
      obtain ⟨first, later⟩ := List.forall_mem_cons.mp each
      cases rest with
      | nil => simpa using first
      | cons next others =>
          rw [List.map_cons, List.map_cons, String.intercalate_cons_cons]
          exact or first (ih later (List.cons_ne_nil _ _))

theorem read_intercalate {ε : Type} {read : String → Except ε (List Branch)}
    (or : ∀ {a b : String} {first second : List Branch}, read a = .ok first →
      read b = .ok second → read (a ++ " || " ++ b) = .ok (first ++ second))
    (each : ∀ branch ∈ branches, read branch.text = .ok [branch]) (some : branches ≠ []) :
    read (" || ".intercalate (branches.map text)) = .ok branches := by
  have found : read (" || ".intercalate (branches.map text)) = .ok (branches.map id) :=
    read_intercalate_map or each some
  rwa [List.map_id] at found

end Branch

end Versioning
