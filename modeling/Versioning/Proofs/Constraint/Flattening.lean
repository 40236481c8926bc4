import Versioning.Proofs.Constraint.Equality
import Versioning.Proofs.Maven.Intervals

/-!
Maven texts of conjunctions. The restrictions of a branch and the branches are written with the same
commas between them, and every restriction that is read is an alternative by itself. So a text is
always read again, as the union of all restrictions, and this is the constraint that was written
only if no restriction admits what the branch around it does not.
-/

namespace Versioning

/-- Commas in a branch are not told from commas between branches. -/
theorem Grammar.render_maven {branches : List Branch} (filled : ∀ branch ∈ branches, branch ≠ []) :
    Grammar.maven.render branches = ",".intercalate (branches.flatten.map Predicate.text) := by
  let texts := fun (branch : Branch) => branch.map fun predicate => predicate.text.toList
  have some : ∀ branch ∈ branches, texts branch ≠ [] :=
    fun branch member => mt List.map_eq_nil_iff.mp (filled branch member)
  have together : branches.flatMap texts = branches.flatten.map fun predicate =>
      predicate.text.toList := by
    rw [List.map_flatten, List.flatMap_def]
  apply String.toList_inj.mp
  rw [render, String.toList_intercalate, String.toList_intercalate, List.map_map, List.map_map]
  simp only [Function.comp_def, predicateSeparator, branchSeparator, String.toList_intercalate,
    List.map_map]
  rw [← together]
  exact (Text.intercalate_flatMap some).symm

/-- Whether a predicate is one of a maven constraint that was read from brackets. -/
def Predicate.IsFromBrackets (predicate : Predicate) : Prop :=
  ∃ source constraint, Constraint.parse .maven source = .ok constraint ∧
    source.toList.head?.any Maven.isOpening = true ∧
    ∃ branch ∈ constraint.branches, predicate ∈ branch

theorem Predicate.IsFromBrackets.exists_restriction {predicate : Predicate}
    (fromBrackets : predicate.IsFromBrackets) :
    ∃ restriction, predicate = .restriction restriction ∧ restriction.form.IsBracketed := by
  obtain ⟨source, constraint, parsed, opens, branch, member, among⟩ := fromBrackets
  obtain ⟨restrictions, read, -, -, branches⟩ := Constraint.parse_maven_eq_ok_iff.mp parsed
  rw [branches] at member
  obtain ⟨restriction, isOne, rfl⟩ := List.mem_map.mp member
  refine ⟨restriction, List.mem_singleton.mp among, ?_⟩
  have solid : ¬Text.isBlankText source.toList = true := by
    intro blank
    unfold Maven.read at read
    dsimp only at read
    rw [if_pos blank] at read
    cases read
  unfold Maven.read at read
  dsimp only at read
  rw [if_neg solid, if_pos opens] at read
  obtain ⟨others, found, same⟩ := Outcome.map_eq_ok_iff.mp read
  cases (Prod.mk.inj same).1
  exact Maven.isBracketed_of_readRestrictions found restriction isOne

theorem Predicate.isFromBrackets_iff {predicate : Predicate} : predicate.IsFromBrackets ↔
    ∃ restriction, predicate = .restriction restriction ∧ restriction.form.IsBracketed := by
  constructor
  · exact IsFromBrackets.exists_restriction
  · rintro ⟨restriction, rfl, bracketed⟩
    have nonempty : [restriction] ≠ [] := List.cons_ne_nil _ _
    have read := Maven.read_of_bracketed nonempty (List.forall_mem_singleton.mpr bracketed)
    obtain ⟨constraint, parsed⟩ := Constraint.exists_parse_of_maven_read nonempty read
    obtain ⟨others, again, -, -, branches⟩ := Constraint.parse_maven_eq_ok_iff.mp parsed
    obtain ⟨rfl, -⟩ := Prod.mk.inj (Except.ok.inj (read.symm.trans again))
    obtain ⟨opening, body, closing, same, opens, -⟩ := bracketed.exists_text
    refine ⟨_, constraint, parsed, ?_, _, branches ▸ List.mem_singleton_self _,
      List.mem_singleton_self _⟩
    rw [List.map_singleton, String.intercalate_singleton, Maven.Restriction.text, same]
    exact opens

theorem exists_restrictions {predicates : List Predicate}
    (fromBrackets : ∀ predicate ∈ predicates, predicate.IsFromBrackets) :
    ∃ restrictions : List Maven.Restriction, predicates = restrictions.map .restriction ∧
      ∀ restriction ∈ restrictions, restriction.form.IsBracketed := by
  induction predicates with
  | nil => exact ⟨[], rfl, List.forall_mem_nil _⟩
  | cons predicate rest ih =>
      obtain ⟨first, later⟩ := List.forall_mem_cons.mp fromBrackets
      obtain ⟨restriction, rfl, bracketed⟩ := first.exists_restriction
      obtain ⟨restrictions, rfl, others⟩ := ih later
      exact ⟨restriction :: restrictions, rfl, List.forall_mem_cons.mpr ⟨bracketed, others⟩⟩

namespace Constraint

variable {branches : List Branch} {constraint reread : Constraint}

theorem exists_ofBranches_of_brackets (fromBrackets : ∀ branch ∈ branches, ∀ predicate ∈ branch,
      predicate.IsFromBrackets)
    (some : branches.all List.isEmpty = false) :
    ∃ constraint, ofBranches branches .maven none = .ok constraint := by
  obtain ⟨ranges, normal⟩ : ∃ ranges, normalize (branches.map Branch.conjunction) = .ok ranges := by
    refine exists_normalize_iff.mpr (List.forall_mem_map.mpr fun branch member => ?_)
    refine Conjunction.exists_ranges_of_bounds fun comparator inside => ?_
    obtain ⟨predicate, among, bounds⟩ := List.mem_flatMap.mp inside
    obtain ⟨restriction, rfl, -⟩ :=
      (fromBrackets branch member predicate among).exists_restriction
    exact Conjunction.relation_of_mem_interval bounds
  exact ⟨⟨branches, .maven, none, ranges.toArray, normal⟩,
    ofBranches_eq_ok_iff.mpr ⟨some, rfl, rfl, rfl⟩⟩

theorem exists_parse_maven_text (fromBrackets : ∀ branch ∈ branches, ∀ predicate ∈ branch,
      predicate.IsFromBrackets)
    (filled : ∀ branch ∈ branches, branch ≠ [])
    (made : ofBranches branches .maven none = .ok constraint) :
    ∃ reread, parse .maven constraint.text = .ok reread ∧
      reread.branches = branches.flatten.map fun predicate => [predicate] := by
  obtain ⟨some, rfl, grammar, -⟩ := ofBranches_eq_ok_iff.mp made
  have each : ∀ predicate ∈ constraint.branches.flatten, predicate.IsFromBrackets := by
    intro predicate member
    obtain ⟨branch, among, inside⟩ := List.mem_flatten.mp member
    exact fromBrackets branch among predicate inside
  obtain ⟨restrictions, predicates, bracketed⟩ := exists_restrictions each
  have nonempty : restrictions ≠ [] := by
    rintro rfl
    have empty := List.flatten_eq_nil_iff.mp predicates
    exact Bool.eq_false_iff.mp some (List.all_eq_true.mpr fun branch member =>
      List.isEmpty_iff.mpr (empty branch member))
  have written : constraint.text = ",".intercalate (restrictions.map Maven.Restriction.text) := by
    rw [text, grammar, Grammar.render_maven filled, predicates, List.map_map]
    rfl
  have read := Maven.read_of_bracketed nonempty bracketed
  rw [← written] at read
  obtain ⟨reread, parsed⟩ := exists_parse_of_maven_read nonempty read
  obtain ⟨others, again, -, -, branches⟩ := parse_maven_eq_ok_iff.mp parsed
  refine ⟨reread, parsed, ?_⟩
  obtain ⟨rfl, -⟩ := Prod.mk.inj (Except.ok.inj (read.symm.trans again))
  rw [branches, predicates, List.map_map]
  rfl

theorem admits_including_iff_exists_branch {version : Version} :
    constraint.admits true version = true ↔
      ∃ branch ∈ constraint.branches, branch.admits version = true := by
  rw [admits_including_iff, covers_iff]
  simp only [Branch.admits, List.all_eq_true]

theorem admits_iff_of_singletons
    (singletons : reread.branches = branches.flatten.map fun predicate => [predicate])
    {version : Version} : reread.admits true version = true ↔
      ∃ branch ∈ branches, ∃ predicate ∈ branch, predicate.admits version = true := by
  rw [admits_including_iff_exists_branch, singletons]
  simp only [List.mem_map, List.mem_flatten, Branch.admits]
  constructor
  · rintro ⟨_, ⟨predicate, ⟨branch, member, among⟩, rfl⟩, admitted⟩
    exact ⟨branch, member, predicate, among, by simpa using admitted⟩
  · rintro ⟨branch, member, predicate, among, admitted⟩
    exact ⟨[predicate], ⟨predicate, ⟨branch, member, among⟩, rfl⟩, by simpa using admitted⟩

/-- The maven text of a constraint put together from bracketed restrictions is read again, but what
is read admits all that any one of the restrictions admits. It has the ranges of the constraint
exactly if each version that some restriction admits is admitted by all restrictions of a branch. -/
theorem exists_parse_maven_text_iff
    (fromBrackets : ∀ branch ∈ branches, ∀ predicate ∈ branch, predicate.IsFromBrackets)
    (filled : ∀ branch ∈ branches, branch ≠ [])
    (made : ofBranches branches .maven none = .ok constraint) :
    ∃ reread, parse .maven constraint.text = .ok reread ∧
      (∀ version, reread.admits true version = true ↔
        ∃ branch ∈ branches, ∃ predicate ∈ branch, predicate.admits version = true) ∧
      (reread.ranges = constraint.ranges ↔ ∀ version,
        (∃ branch ∈ branches, ∃ predicate ∈ branch, predicate.admits version = true) →
          ∃ branch ∈ branches, branch.admits version = true) := by
  obtain ⟨reread, parsed, singletons⟩ := exists_parse_maven_text fromBrackets filled made
  obtain ⟨-, rfl, -⟩ := ofBranches_eq_ok_iff.mp made
  refine ⟨reread, parsed, fun version => admits_iff_of_singletons singletons, ?_⟩
  rw [ranges_eq_iff]
  constructor
  · intro same version admitted
    rw [← admits_including_iff_exists_branch, ← same]
    exact (admits_iff_of_singletons singletons).mpr admitted
  · intro whole version
    rw [Bool.eq_iff_iff, admits_iff_of_singletons singletons, admits_including_iff_exists_branch]
    refine ⟨whole version, ?_⟩
    rintro ⟨branch, member, admitted⟩
    obtain ⟨predicate, among⟩ := List.exists_mem_of_ne_nil branch (filled branch member)
    exact ⟨branch, member, predicate, among, List.all_eq_true.mp admitted predicate among⟩

/-! ### Two restrictions in one branch -/

theorem exists_restriction_between (low high : Descriptor) (writableLow : low.IsWritable .maven)
    (writableHigh : high.IsWritable .maven) (below : low.floor < high.floor) :
    ∃ predicate : Predicate, predicate.IsFromBrackets ∧
      predicate.text = "[" ++ low.text ++ "," ++ high.text ++ ")" ∧
      ∀ version, predicate.admits version = true ↔
        low.floor ≤ version.toPoint ∧ version.toPoint < high.floor := by
  let form : Maven.Form := .interval (.inclusive low) (.exclusive high)
  have hasRange : form.range = .ok (.segment low.floor high.floor below) := dif_pos below
  have bracketed : form.IsBracketed :=
    ⟨Maven.Limit.isWritable_inclusive writableLow, by rintro _ ⟨⟩; exact writableHigh⟩
  refine ⟨.restriction ⟨form, _, hasRange⟩, Predicate.isFromBrackets_iff.mpr ⟨_, rfl, bracketed⟩,
    rfl, fun version => ?_⟩
  rw [Predicate.admits, Predicate.comparators, Conjunction.admits_comparators_iff,
    Maven.Form.contains_iff hasRange]
  exact Iff.rfl

theorem exists_parse_maven_text_iff_repeated :
    ∃ (predicate : Predicate) (constraint reread : Constraint), predicate.IsFromBrackets ∧
      predicate.text = "[1.0,2.0)" ∧
      ofBranches [[predicate, predicate]] .maven none = .ok constraint ∧
      parse .maven constraint.text = .ok reread ∧ reread.ranges = constraint.ranges := by
  obtain ⟨predicate, fromBrackets, written, -⟩ := exists_restriction_between
    (.two (.number 1) (.number 0)) (.two (.number ⟨2, by decide⟩) (.number 0))
    ⟨.inr rfl, .inr rfl⟩ ⟨.inr rfl, .inr rfl⟩ (by decide)
  have each : ∀ branch ∈ [[predicate, predicate]], ∀ member ∈ branch, member.IsFromBrackets := by
    simpa using fromBrackets
  obtain ⟨constraint, made⟩ := exists_ofBranches_of_brackets each rfl
  obtain ⟨reread, parsed, -, same⟩ := exists_parse_maven_text_iff each (by simp) made
  refine ⟨predicate, constraint, reread, fromBrackets, written, made, parsed, same.mpr ?_⟩
  simp [Branch.admits]

theorem ranges_ne_of_overlap :
    ∃ (first second : Predicate) (constraint reread : Constraint), first.IsFromBrackets ∧
      second.IsFromBrackets ∧ first.text = "[1.0,2.0)" ∧ second.text = "[1.5,3.0)" ∧
      ofBranches [[first, second]] .maven none = .ok constraint ∧
      parse .maven constraint.text = .ok reread ∧ reread.ranges ≠ constraint.ranges := by
  obtain ⟨first, fromFirst, writtenFirst, admitsFirst⟩ := exists_restriction_between
    (.two (.number 1) (.number 0)) (.two (.number ⟨2, by decide⟩) (.number 0))
    ⟨.inr rfl, .inr rfl⟩ ⟨.inr rfl, .inr rfl⟩ (by decide)
  obtain ⟨second, fromSecond, writtenSecond, admitsSecond⟩ := exists_restriction_between
    (.two (.number 1) (.number ⟨5, by decide⟩)) (.two (.number ⟨3, by decide⟩) (.number 0))
    ⟨.inr rfl, .inr rfl⟩ ⟨.inr rfl, .inr rfl⟩ (by decide)
  have each : ∀ branch ∈ [[first, second]], ∀ member ∈ branch, member.IsFromBrackets := by
    simpa using ⟨fromFirst, fromSecond⟩
  obtain ⟨constraint, made⟩ := exists_ofBranches_of_brackets each rfl
  obtain ⟨reread, parsed, singletons⟩ := exists_parse_maven_text each (by simp) made
  refine ⟨first, second, constraint, reread, fromFirst, fromSecond, writtenFirst, writtenSecond,
    made, parsed, fun same => ?_⟩
  -- the first restriction alone admits the version that it starts from
  let version : Version := .release 1 0 0
  have admittedFirst : first.admits version = true := (admitsFirst version).mpr (by decide)
  have admitted : reread.admits true version = true :=
    (admits_iff_of_singletons singletons).mpr
      ⟨_, List.mem_singleton_self _, first, List.mem_cons_self, admittedFirst⟩
  obtain ⟨-, branches, -⟩ := ofBranches_eq_ok_iff.mp made
  rw [ranges_eq_iff.mp same, admits_including_iff_exists_branch, branches] at admitted
  have both : first.admits version = true ∧ second.admits version = true := by
    simpa [Branch.admits] using admitted
  exact absurd ((admitsSecond version).mp both.2) (by decide)

end Constraint

end Versioning
