import Versioning.Proofs.Conjunction.Interval
import Versioning.Proofs.Constraint.Rereading

/-!
The normal form of a constraint as a constraint. Its ranges are predicates themselves, and they are
written in the npm grammar. Each of them is an alternative of its own; put together in this way, or
written with bars between them and read again, they come down to the same ranges.
-/

namespace Versioning

private theorem Branch.conjunction_range (range : Range) :
    Branch.conjunction [.range range] = range.comparators :=
  List.flatMap_singleton _ _

private theorem Branch.text_range (range : Range) : Branch.text [.range range] = range.text :=
  String.intercalate_singleton

theorem Npm.exists_read_texts {options : Options} {branches : List Branch}
    (isNpm : ∀ branch ∈ branches, ∀ predicate ∈ branch, predicate.IsNpm) (some : branches ≠ []) :
    ∃ reread, read options (" || ".intercalate (branches.map Branch.text)) = .ok reread ∧
      reread.all List.isEmpty = false ∧
      reread.map Branch.conjunction = branches.map Branch.conjunction := by
  refine ⟨branches.map Branch.reread, ?_, ?_, ?_⟩
  · exact Branch.read_intercalate_map read_or
      (fun branch member => Branch.read_text_eq (isNpm branch member)) some
  · obtain ⟨branch, rest, same⟩ := List.exists_cons_of_ne_nil some
    simp [same, branch.reread_ne_nil]
  · rw [List.map_map]
    exact List.map_congr_left fun branch _ => branch.conjunction_reread

namespace Constraint

/-- The ranges of a constraint are written as an npm text that is read, with any options, as a
constraint with these ranges. They are also what is left of them if each is taken as a branch by
itself and these are normalized. -/
theorem exists_parse_ranges (constraint : Constraint) (options : Npm.Options) :
    (∃ reread, parse (.npm options)
        (" || ".intercalate (constraint.ranges.toList.map Range.text)) = .ok reread ∧
      reread.ranges = constraint.ranges) ∧
    normalize (constraint.ranges.toList.map fun range => Branch.conjunction [.range range]) =
      .ok constraint.ranges.toList := by
  let branches : List Branch := constraint.ranges.toList.map fun range => [.range range]
  have some : branches ≠ [] := mt List.map_eq_nil_iff.mp constraint.isCanonical.ne_nil
  have isNpm : ∀ branch ∈ branches, ∀ predicate ∈ branch, predicate.IsNpm :=
    List.forall_mem_map.mpr fun range _ => List.forall_mem_singleton.mpr trivial
  have texts : branches.map Branch.text = constraint.ranges.toList.map Range.text := by
    rw [List.map_map]
    exact List.map_congr_left fun range _ => Branch.text_range range
  have normal : normalize (constraint.ranges.toList.map fun range =>
      Branch.conjunction [.range range]) = .ok constraint.ranges.toList := by
    simp only [Branch.conjunction_range]
    exact normalize_comparators constraint.isCanonical
  obtain ⟨read, readTexts, someRead, conjunctions⟩ := Npm.exists_read_texts isNpm some
  have normalRead : normalize (read.map Branch.conjunction) = .ok constraint.ranges.toList := by
    rw [conjunctions, List.map_map]
    exact normal
  rw [texts] at readTexts
  obtain ⟨reread, parsed, rfl⟩ :=
    exists_parse (Grammar.read_npm_eq_ok_iff.mpr ⟨rfl, readTexts⟩) someRead ⟨_, normalRead⟩
  refine ⟨⟨reread, parsed, ?_⟩, normal⟩
  exact Array.toList_inj.mp (Except.ok.inj (reread.ranges_eq.symm.trans normalRead))

end Constraint

end Versioning
