import Versioning.Proofs.Constraint.Parsing
import Versioning.Proofs.Maven
import Versioning.Proofs.Npm.Rendering
import Versioning.Proofs.Simple

/-!
The text of a constraint. Whatever text a constraint was read from, its own text is read as the same
constraint in the same grammar.
-/

namespace Versioning

private theorem Grammar.read_render {grammar : Grammar} {source : String} {reading : Reading}
    (found : grammar.read source = .ok reading) (some : reading.branches.all List.isEmpty = false) :
    grammar.read (grammar.render reading.branches) = .ok reading := by
  have nonempty : reading.branches ≠ [] := by
    intro none
    rw [none] at some
    contradiction
  cases grammar with
  | npm options =>
      obtain ⟨branches, read, same⟩ := Outcome.bind_eq_ok_iff.mp found
      cases Outcome.pure_eq_ok_iff.mp same
      exact Outcome.bind_eq_ok_iff.mpr ⟨_, Npm.read_render nonempty read, rfl⟩
  | maven =>
      obtain ⟨⟨restrictions, preferred⟩, read, same⟩ := Outcome.bind_eq_ok_iff.mp found
      cases Outcome.pure_eq_ok_iff.mp same
      have texts :
          Grammar.maven.render (restrictions.map fun restriction => [.restriction restriction]) =
            ",".intercalate (restrictions.map Maven.Restriction.text) := by
        simp [render, branchSeparator, predicateSeparator, Predicate.text, Function.comp_def]
      dsimp only
      rw [texts]
      refine Outcome.bind_eq_ok_iff.mpr ⟨_, Maven.read_render ?_ read, rfl⟩
      exact mt List.map_eq_nil_iff.mpr nonempty
  | simple =>
      obtain ⟨branches, read, same⟩ := Outcome.bind_eq_ok_iff.mp found
      cases Outcome.pure_eq_ok_iff.mp same
      exact Outcome.bind_eq_ok_iff.mpr ⟨_, Simple.read_render nonempty read, rfl⟩

namespace Constraint

variable {grammar : Grammar} {source : String} {constraint : Constraint}

private theorem parse_text (read : parse grammar source = .ok constraint) :
    parse grammar constraint.text = .ok constraint := by
  obtain ⟨reading, found, some, branches, same, preferred⟩ := parse_eq_ok_iff.mp read
  refine parse_eq_ok_iff.mpr ⟨reading, ?_, some, branches, same, preferred⟩
  rw [text, same, branches]
  exact Grammar.read_render found some

private theorem beq_self (constraint : Constraint) : (constraint == constraint) = true := by
  change (constraint.ranges == constraint.ranges && constraint.preferred == constraint.preferred) =
    true
  rw [beq_self_eq_true, beq_self_eq_true, Bool.and_self]

/-- The text of a constraint is read, in the grammar that the constraint was read in, as one that is
equal to it and has the same text. -/
theorem exists_parse_text (read : parse grammar source = .ok constraint) :
    ∃ reread, parse grammar constraint.text = .ok reread ∧ (reread == constraint) = true ∧
      reread.text = constraint.text :=
  ⟨constraint, parse_text read, beq_self constraint, rfl⟩

theorem exists_parse_text_lowered :
    ∃ constraint, parse (.npm ⟨true, true⟩) "~v1.2 || 3.x" = .ok constraint ∧
      constraint.text = ">=1.2.0-0 <1.3.0-0 || >=3.0.0-0 <4.0.0-0" ∧
      ∃ reread, parse (.npm ⟨true, true⟩) constraint.text = .ok reread ∧
        (reread == constraint) = true ∧ reread.text = constraint.text := by
  obtain ⟨constraint, read, branches⟩ : ∃ constraint,
      parse (.npm ⟨true, true⟩) "~v1.2 || 3.x" = .ok constraint ∧ constraint.branches =
        [[.condition (.atLeast ⟨⟨1, ⟨2, by decide⟩, 0⟩, some .least⟩),
          .condition (.below ⟨⟨1, ⟨3, by decide⟩, 0⟩, some .least⟩)],
        [.condition (.atLeast ⟨⟨⟨3, by decide⟩, 0, 0⟩, some .least⟩),
          .condition (.below ⟨⟨⟨4, by decide⟩, 0, 0⟩, some .least⟩)]] :=
    exists_parse rfl rfl ⟨_, rfl⟩
  obtain ⟨-, -, grammar, -⟩ := parse_npm_eq_ok_iff.mp read
  refine ⟨constraint, read, ?_, exists_parse_text read⟩
  rw [text, grammar, branches]
  rfl

end Constraint

end Versioning
