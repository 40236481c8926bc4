import Versioning.Proofs.Constraint.Equality
import Versioning.Proofs.Constraint.Parsing
import Versioning.Proofs.Npm.Rendering

/-!
Constraints put together from predicates, written in the npm grammar and read again. A range is
written as up to two conditions, a branch without predicates as a blank alternative, and build
metadata is passed over in reading. So the branches that are read may be others, but they come down
to the same comparators.
-/

namespace Versioning

/-! ### Predicates as words -/

def Range.conditions (range : Range) : List Condition :=
  range.start.toList.map .atLeast ++ range.stop.toList.map .below

namespace Predicate

variable {predicate : Predicate}

/-- The predicates that the words of a predicate stand for. -/
def terms : Predicate → Branch
  | .range term =>
      match term.conditions with
      | [] => [.any]
      | conditions => conditions.map .condition
  | predicate => [predicate]

/-- Whether a predicate has an npm form of its own: all but the restrictions of maven have. -/
def IsNpm : Predicate → Prop
  | .restriction _ => False
  | _ => True

theorem terms_ne_nil : predicate.terms ≠ [] := by
  cases predicate with
  | range term =>
      rw [terms]
      split
      · exact List.cons_ne_nil _ _
      · next some => exact mt List.map_eq_nil_iff.mp some
  | _ => exact List.cons_ne_nil _ _

private theorem isWord_of_mem_terms (isNpm : predicate.IsNpm) :
    ∀ term ∈ predicate.terms, term.IsWord := by
  cases predicate with
  | any => exact List.forall_mem_singleton.mpr (.inl rfl)
  | condition term => exact List.forall_mem_singleton.mpr (.inr ⟨term, rfl⟩)
  | range term =>
      rw [terms]
      split
      · exact List.forall_mem_singleton.mpr (.inl rfl)
      · exact List.forall_mem_map.mpr fun condition _ => .inr ⟨condition, rfl⟩
  | restriction term => exact isNpm.elim

private theorem conjunction_terms : predicate.terms.conjunction = predicate.comparators := by
  cases predicate with
  | range term =>
      obtain ⟨start, stop, below⟩ := term
      cases start <;> cases stop <;> rfl
  | _ => exact List.append_nil _

theorem toList_text_eq (predicate : Predicate) :
    predicate.text.toList = [' '].intercalate predicate.terms.tokens := by
  cases predicate with
  | range term =>
      obtain ⟨start, stop, below⟩ := term
      rw [← Branch.toList_text]
      refine congrArg String.toList ?_
      match start, stop with
      | none, none => rfl
      | none, some stop => exact (String.intercalate_singleton).symm
      | some start, none => exact (String.intercalate_singleton).symm
      | some start, some stop =>
          change ">=" ++ start.text ++ " <" ++ stop.text =
            " ".intercalate [">=" ++ start.text, "<" ++ stop.text]
          have blank : " <" = " " ++ "<" := rfl
          rw [String.intercalate_cons_cons, String.intercalate_singleton, blank]
          simp only [String.append_assoc]
  | _ => exact (List.intercalate_singleton).symm

end Predicate

namespace Branch

variable {branch : Branch}

def terms (branch : Branch) : Branch := branch.flatMap Predicate.terms

private theorem text_terms (branch : Branch) : branch.terms.text = branch.text := by
  apply String.toList_inj.mp
  have each : branch.tokens = branch.map fun predicate =>
      [' '].intercalate (predicate.terms.map fun term => term.text.toList) :=
    List.map_congr_left fun predicate _ => predicate.toList_text_eq
  rw [toList_text, toList_text, each, tokens, terms, List.map_flatMap]
  exact Text.intercalate_flatMap fun predicate _ =>
    mt List.map_eq_nil_iff.mp Predicate.terms_ne_nil

private theorem conjunction_terms (branch : Branch) :
    branch.terms.conjunction = branch.conjunction := by
  rw [terms, conjunction, conjunction, List.flatMap_assoc]
  exact List.flatMap_congr fun predicate _ => Predicate.conjunction_terms

/-- The branch that is read from the text of another. -/
def reread : Branch → Branch
  | [] => [.any]
  | branch => branch.terms.map Predicate.bare

theorem reread_ne_nil (branch : Branch) : branch.reread ≠ [] := by
  cases branch with
  | nil => exact List.cons_ne_nil _ _
  | cons predicate rest =>
      refine mt List.map_eq_nil_iff.mp ?_
      rw [terms, List.flatMap_cons]
      exact List.append_ne_nil_of_left_ne_nil Predicate.terms_ne_nil _

theorem conjunction_reread (branch : Branch) : branch.reread.conjunction = branch.conjunction := by
  cases branch with
  | nil => rfl
  | cons predicate rest =>
      rw [← conjunction_terms (predicate :: rest), reread, conjunction, List.flatMap_map]
      · exact List.flatMap_congr fun term _ => term.comparators_bare
      · exact List.cons_ne_nil _ _

theorem read_text_eq {options : Npm.Options} (isNpm : ∀ predicate ∈ branch, predicate.IsNpm) :
    Npm.read options branch.text = .ok [branch.reread] := by
  cases branch with
  | nil => rfl
  | cons predicate rest =>
      have words : ∀ term ∈ terms (predicate :: rest), term.IsWord := by
        intro term member
        obtain ⟨among, found, inside⟩ := List.mem_flatMap.mp member
        exact Predicate.isWord_of_mem_terms (isNpm among found) term inside
      have some : terms (predicate :: rest) ≠ [] := by
        rw [terms, List.flatMap_cons]
        exact List.append_ne_nil_of_left_ne_nil Predicate.terms_ne_nil _
      rw [← text_terms]
      exact Npm.read_text some words

end Branch

/-! ### Constraints -/

namespace Constraint

variable {branches : List Branch}

theorem ranges_eq_of_conjunctions {constraint other : Constraint}
    (same : other.branches.map Branch.conjunction = constraint.branches.map Branch.conjunction) :
    other.ranges = constraint.ranges := by
  have normal := other.ranges_eq
  rw [same, constraint.ranges_eq] at normal
  exact (Array.toList_inj.mp (Except.ok.inj normal)).symm

/-- A constraint of npm predicates is read from its text as one that is equal to it, whatever the
options are that it was made with and that it is read with. -/
theorem exists_parse_text_of_ofBranches {options other : Npm.Options} {constraint : Constraint}
    (isNpm : ∀ branch ∈ branches, ∀ predicate ∈ branch, predicate.IsNpm)
    (made : ofBranches branches (.npm options) none = .ok constraint) :
    ∃ reread, parse (.npm other) constraint.text = .ok reread ∧ (reread == constraint) = true := by
  obtain ⟨some, rfl, grammar, preferred⟩ := ofBranches_eq_ok_iff.mp made
  have nonempty : constraint.branches ≠ [] := by
    intro none
    rw [none] at some
    contradiction
  have read : Npm.read other constraint.text = .ok (constraint.branches.map Branch.reread) := by
    rw [text, grammar]
    exact Branch.read_intercalate_map Npm.read_or
      (fun branch member => Branch.read_text_eq (isNpm branch member)) nonempty
  have conjunctions : (constraint.branches.map Branch.reread).map Branch.conjunction =
      constraint.branches.map Branch.conjunction := by
    rw [List.map_map]
    exact List.map_congr_left fun branch _ => branch.conjunction_reread
  have someReread : (constraint.branches.map Branch.reread).all List.isEmpty = false := by
    obtain ⟨branch, rest, same⟩ := List.exists_cons_of_ne_nil nonempty
    simp [same, branch.reread_ne_nil]
  obtain ⟨reread, parsed, rereadBranches⟩ := exists_parse
    (Grammar.read_npm_eq_ok_iff.mpr ⟨rfl, read⟩) someReread
    ⟨_, by rw [conjunctions]; exact constraint.ranges_eq⟩
  refine ⟨reread, parsed, beq_eq_true_iff.mpr ⟨?_, ?_⟩⟩
  · apply ranges_eq_of_conjunctions
    rw [rereadBranches, conjunctions]
  · rw [preferred]
    exact (parse_npm_eq_ok_iff.mp parsed).2.2.2

theorem exists_parse_text_of_ofBranches_build :
    ∃ (branches : List Branch) (constraint reread : Constraint),
      (∀ branch ∈ branches, ∀ predicate ∈ branch, predicate.IsNpm) ∧
        ofBranches branches (.npm .standard) none = .ok constraint ∧
        constraint.text = ">=1.0.0 <2.0.0 !=1.0.1+b ||  || *" ∧
        parse (.npm ⟨true, true⟩) constraint.text = .ok reread ∧ (reread == constraint) = true := by
  obtain ⟨branches, same⟩ : ∃ branches : List Branch, branches =
      [[.range (.segment (Core.toPoint ⟨1, 0, 0⟩) (Core.toPoint ⟨⟨2, by decide⟩, 0, 0⟩)
          (by decide)),
        .condition ⟨.notEqual, ⟨Core.toPoint ⟨1, 0, 1⟩, some ⟨"b", rfl⟩⟩, _, rfl⟩], [], [.any]] :=
    ⟨_, rfl⟩
  have written : (Grammar.npm .standard).render branches =
      ">=1.0.0 <2.0.0 !=1.0.1+b ||  || *" := by
    rw [same]
    rfl
  obtain ⟨ranges, normal⟩ : ∃ ranges, normalize (branches.map Branch.conjunction) = .ok ranges := by
    rw [same]
    exact ⟨_, normalize_eq_ok_iff.mpr ⟨[_, _, _], .cons rfl (.cons rfl (.cons rfl .nil)), rfl⟩⟩
  have isNpm : ∀ branch ∈ branches, ∀ predicate ∈ branch, predicate.IsNpm := by
    simp [same, Predicate.IsNpm]
  let constraint : Constraint := ⟨branches, .npm .standard, none, ranges.toArray, normal⟩
  have made : ofBranches branches (.npm .standard) none = .ok constraint :=
    ofBranches_eq_ok_iff.mpr ⟨by simp [same], rfl, rfl, rfl⟩
  obtain ⟨reread, parsed, equal⟩ := exists_parse_text_of_ofBranches isNpm made
  exact ⟨branches, constraint, reread, isNpm, made, written, parsed, equal⟩

end Constraint

end Versioning
