import Versioning.Constraint.Basic
import Versioning.Proofs.Normalization

/-!
When constraints are made, and of what. A constraint is settled by its branches, its grammar and the
version that it prefers; reading a text gives the constraint of what the grammar reads.
-/

namespace Versioning

theorem exists_normalize_append {front back : List Conjunction} {first second : List Range}
    (normalFront : normalize front = .ok first) (normalBack : normalize back = .ok second) :
    ∃ ranges, normalize (front ++ back) = .ok ranges := by
  obtain ⟨lists, pairs, -⟩ := normalize_eq_ok_iff.mp normalFront
  obtain ⟨others, otherPairs, -⟩ := normalize_eq_ok_iff.mp normalBack
  exact ⟨_, normalize_eq_ok_iff.mpr ⟨lists ++ others, List.rel_append pairs otherPairs, rfl⟩⟩

namespace Constraint

variable {constraint : Constraint} {branches : List Branch} {grammar : Grammar}
  {preferred : Option Version} {source : String}

theorem ofBranches_eq_ok_iff :
    ofBranches branches grammar preferred = .ok constraint ↔
      branches.all List.isEmpty = false ∧ constraint.branches = branches ∧
        constraint.grammar = grammar ∧ constraint.preferred = preferred := by
  constructor
  · intro made
    unfold ofBranches at made
    split at made
    · cases made
    · next some =>
      split at made
      · next ranges normal =>
        cases made
        exact ⟨Bool.eq_false_iff.mpr some, rfl, rfl, rfl⟩
      · cases made
  · rintro ⟨some, rfl, rfl, rfl⟩
    unfold ofBranches
    rw [if_neg (Bool.eq_false_iff.mp some)]
    have found := constraint.ranges_eq
    split
    · next ranges normal =>
      rw [normal] at found
      cases found
      rfl
    · next error failed =>
      rw [failed] at found
      cases found

theorem parse_eq_ok_iff :
    parse grammar source = .ok constraint ↔
      ∃ reading, grammar.read source = .ok reading ∧ reading.branches.all List.isEmpty = false ∧
        constraint.branches = reading.branches ∧ constraint.grammar = grammar ∧
        constraint.preferred = reading.preferred := by
  unfold parse
  rw [Outcome.bind_eq_ok_iff]
  simp only [Outcome.mapError_eq_ok_iff, ofBranches_eq_ok_iff]

theorem parse_npm_eq_ok_iff {options : Npm.Options} :
    parse (.npm options) source = .ok constraint ↔
      Npm.read options source = .ok constraint.branches ∧
        constraint.branches.all List.isEmpty = false ∧ constraint.grammar = .npm options ∧
        constraint.preferred = none := by
  rw [parse_eq_ok_iff]
  constructor
  · rintro ⟨reading, found, some, branches, grammar, preferred⟩
    obtain ⟨read, readSource, same⟩ := Outcome.bind_eq_ok_iff.mp found
    cases Outcome.pure_eq_ok_iff.mp same
    rw [branches]
    exact ⟨readSource, some, grammar, preferred⟩
  · rintro ⟨readSource, some, grammar, preferred⟩
    refine ⟨⟨constraint.branches, none⟩, ?_, some, rfl, grammar, preferred⟩
    exact Outcome.bind_eq_ok_iff.mpr ⟨_, readSource, rfl⟩

theorem exists_parse (read : grammar.read source = .ok ⟨branches, preferred⟩)
    (some : branches.all List.isEmpty = false)
    (normal : ∃ ranges, normalize (branches.map Branch.conjunction) = .ok ranges) :
    ∃ constraint, parse grammar source = .ok constraint ∧ constraint.branches = branches := by
  obtain ⟨ranges, normal⟩ := normal
  refine ⟨⟨branches, grammar, preferred, ranges.toArray, normal⟩, ?_, rfl⟩
  exact parse_eq_ok_iff.mpr ⟨_, read, some, rfl, rfl, rfl⟩

end Constraint

end Versioning
