import Versioning.Proofs.Constraint.Parsing
import Versioning.Proofs.Constraint.PreRelease
import Versioning.Proofs.Npm.Alternatives
import Versioning.Version.Reading

/-!
Two npm texts with a double bar between them. What they make holds what either of them holds. By
default it admits no version that neither of them admits, but it may refuse a pre-release that one
of them admits: where together they pass over its core, no bound of their union names it any more.
-/

namespace Versioning

namespace Constraint

open Range (Covers)

variable {options : Npm.Options} {a b : String} {first second either : Constraint}

theorem exists_parse_or (readFirst : parse (.npm options) a = .ok first)
    (readSecond : parse (.npm options) b = .ok second) :
    ∃ either, parse (.npm options) (a ++ " || " ++ b) = .ok either ∧
      either.branches = first.branches ++ second.branches := by
  obtain ⟨read, some, -, -⟩ := parse_npm_eq_ok_iff.mp readFirst
  obtain ⟨readOther, -, -, -⟩ := parse_npm_eq_ok_iff.mp readSecond
  have normal := exists_normalize_append first.ranges_eq second.ranges_eq
  rw [← List.map_append] at normal
  have together : Grammar.read (.npm options) (a ++ " || " ++ b) =
      .ok ⟨first.branches ++ second.branches, none⟩ :=
    Outcome.bind_eq_ok_iff.mpr ⟨_, Npm.read_or read readOther, rfl⟩
  refine exists_parse together ?_ normal
  rw [List.all_append, some, Bool.false_and]

theorem covers_or_iff (branches : either.branches = first.branches ++ second.branches)
    (point : Point) :
    Covers either.ranges.toList point ↔
      Covers first.ranges.toList point ∨ Covers second.ranges.toList point := by
  rw [covers_normalize either.ranges_eq, covers_normalize first.ranges_eq,
    covers_normalize second.ranges_eq, branches, List.map_append]
  simp only [List.mem_append, or_and_right, exists_or]

private theorem isSatisfiedBy_of_covers {version : Version}
    (satisfied : either.isSatisfiedBy version = true)
    (within : ∀ point, Covers first.ranges.toList point → Covers either.ranges.toList point)
    (covered : Covers first.ranges.toList version.toPoint) :
    first.isSatisfiedBy version = true := by
  obtain ⟨-, stays⟩ := isSatisfiedBy_iff.mp satisfied
  refine isSatisfiedBy_iff.mpr ⟨covered, fun preRelease passes => ?_⟩
  exact stays preRelease (passes.mono within)

/-! ### Sides of a disjunction for instance -/

theorem exists_parse_atLeast_alpha :
    ∃ constraint, parse .standard ">=1.0.1-alpha" = .ok constraint ∧ constraint.branches =
      [[.condition (.atLeast
        ⟨⟨1, 0, 1⟩, some ⟨[.alphanumeric "alpha" (by decide)], by decide⟩⟩)]] :=
  exists_parse rfl rfl ⟨_, rfl⟩

theorem exists_parse_below_one :
    ∃ constraint, parse .standard "<1.0.0" = .ok constraint ∧
      constraint.branches = [[.condition (.below (Core.toPoint ⟨1, 0, 0⟩))]] :=
  exists_parse rfl rfl ⟨_, rfl⟩

private theorem exists_parse_atLeast_one :
    ∃ constraint, parse .standard ">=1.0.0" = .ok constraint ∧
      constraint.branches = [[.condition (.atLeast (Core.toPoint ⟨1, 0, 0⟩))]] :=
  exists_parse rfl rfl ⟨_, rfl⟩

/-- A pre-release is admitted that some branch admits, as long as no branch admits the first
pre-release of its core. -/
theorem isSatisfiedBy_of_exists_branch {constraint : Constraint} {version : Version}
    (admitted : ∃ branch ∈ constraint.branches, branch.admits version = true)
    (refused : ¬∃ branch ∈ constraint.branches,
      branch.admits version.toCore.firstPreRelease.toVersion = true) :
    constraint.isSatisfiedBy version = true := by
  simp only [Branch.admits, List.all_eq_true] at admitted refused
  rw [← covers_iff] at admitted refused
  exact isSatisfiedBy_iff.mpr ⟨admitted, fun _ => not_passesOver_of_not_held refused⟩

/-! ### What is admitted by default -/

/-- By default a disjunction admits nothing that neither of its sides admits. -/
theorem isSatisfiedBy_or_of_either (readFirst : parse .standard a = .ok first)
    (readSecond : parse .standard b = .ok second) :
    ∃ either, parse .standard (a ++ " || " ++ b) = .ok either ∧
      ∀ version, either.isSatisfiedBy version = true →
        first.isSatisfiedBy version = true ∨ second.isSatisfiedBy version = true := by
  obtain ⟨either, read, branches⟩ := exists_parse_or readFirst readSecond
  refine ⟨either, read, fun version satisfied => ?_⟩
  have covers := covers_or_iff branches
  obtain ⟨covered, -⟩ := isSatisfiedBy_iff.mp satisfied
  rcases (covers version.toPoint).mp covered with inFirst | inSecond
  · exact .inl (isSatisfiedBy_of_covers satisfied (fun point => (covers point).mpr ∘ .inl) inFirst)
  · exact .inr (isSatisfiedBy_of_covers satisfied (fun point => (covers point).mpr ∘ .inr) inSecond)

theorem isSatisfiedBy_or_of_either_alpha :
    ∃ first second either version, parse .standard ">=1.0.1-alpha" = .ok first ∧
      parse .standard "<1.0.0" = .ok second ∧
      parse .standard ">=1.0.1-alpha || <1.0.0" = .ok either ∧
      Version.parse "1.0.1-beta" = .ok version ∧ either.isSatisfiedBy version = true ∧
      (first.isSatisfiedBy version = true ∨ second.isSatisfiedBy version = true) := by
  obtain ⟨first, readFirst, branches⟩ := exists_parse_atLeast_alpha
  obtain ⟨second, readSecond, others⟩ := exists_parse_below_one
  obtain ⟨either, read, admits⟩ := isSatisfiedBy_or_of_either readFirst readSecond
  obtain ⟨same, readSame, together⟩ := exists_parse_or readFirst readSecond
  cases read.symm.trans readSame
  rw [branches, others] at together
  have satisfied : either.isSatisfiedBy
      ⟨⟨⟨1, 0, 1⟩, some ⟨[.alphanumeric "beta" (by decide)], by decide⟩⟩, none⟩ = true := by
    apply isSatisfiedBy_of_exists_branch <;> rw [together] <;> decide
  exact ⟨first, second, either, _, readFirst, readSecond, read, rfl, satisfied, admits _ satisfied⟩

/-- A disjunction admits by default what its first side admits, except for the pre-releases of the
cores that both sides together pass over. -/
theorem isSatisfiedBy_or_iff_of_first (readFirst : parse .standard a = .ok first)
    (readSecond : parse .standard b = .ok second) :
    ∃ either, parse .standard (a ++ " || " ++ b) = .ok either ∧
      ∀ version, first.isSatisfiedBy version = true →
        (either.isSatisfiedBy version = true ↔
          ¬(version.isPreRelease = true ∧ PassesOver (fun point =>
            first.admits true point.toVersion = true ∨ second.admits true point.toVersion = true)
              version.toCore)) := by
  obtain ⟨either, read, branches⟩ := exists_parse_or readFirst readSecond
  refine ⟨either, read, fun version satisfied => ?_⟩
  have covers := covers_or_iff branches
  have held : (fun point => first.admits true point.toVersion = true ∨
      second.admits true point.toVersion = true) = Covers either.ranges.toList := by
    funext point
    rw [admits_including_iff, admits_including_iff, covers]
    rfl
  obtain ⟨covered, -⟩ := isSatisfiedBy_iff.mp satisfied
  rw [held, isSatisfiedBy_iff, not_and, and_iff_right ((covers version.toPoint).mpr (.inl covered))]

theorem isSatisfiedBy_or_iff_of_first_alpha :
    ∃ first second either version, parse .standard ">=1.0.1-alpha" = .ok first ∧
      parse .standard "<1.0.0" = .ok second ∧
      parse .standard ">=1.0.1-alpha || <1.0.0" = .ok either ∧
      Version.parse "1.0.1-beta" = .ok version ∧ first.isSatisfiedBy version = true ∧
      (either.isSatisfiedBy version = true ↔
        ¬(version.isPreRelease = true ∧ PassesOver (fun point =>
          first.admits true point.toVersion = true ∨ second.admits true point.toVersion = true)
            version.toCore)) := by
  obtain ⟨first, readFirst, branches⟩ := exists_parse_atLeast_alpha
  obtain ⟨second, readSecond, -⟩ := exists_parse_below_one
  obtain ⟨either, read, admits⟩ := isSatisfiedBy_or_iff_of_first readFirst readSecond
  have satisfied : first.isSatisfiedBy
      ⟨⟨⟨1, 0, 1⟩, some ⟨[.alphanumeric "beta" (by decide)], by decide⟩⟩, none⟩ = true := by
    apply isSatisfiedBy_of_exists_branch <;> rw [branches] <;> decide
  exact ⟨first, second, either, _, readFirst, readSecond, read, rfl, satisfied, admits _ satisfied⟩

/-- A pre-release that one side admits is refused by the disjunction with a side that begins below
its core and goes on past it. -/
theorem isSatisfiedBy_or_eq_false :
    ∃ first second either version, parse .standard ">=1.0.1-alpha" = .ok first ∧
      parse .standard ">=1.0.0" = .ok second ∧
      parse .standard ">=1.0.1-alpha || >=1.0.0" = .ok either ∧
      Version.parse "1.0.1-beta" = .ok version ∧ first.isSatisfiedBy version = true ∧
      either.isSatisfiedBy version = false := by
  obtain ⟨first, readFirst, branches⟩ := exists_parse_atLeast_alpha
  obtain ⟨second, readSecond, others⟩ := exists_parse_atLeast_one
  obtain ⟨either, read, together⟩ := exists_parse_or readFirst readSecond
  refine ⟨first, second, either,
    ⟨⟨⟨1, 0, 1⟩, some ⟨[.alphanumeric "beta" (by decide)], by decide⟩⟩, none⟩,
    readFirst, readSecond, read, rfl, ?_, ?_⟩
  · apply isSatisfiedBy_of_exists_branch <;> rw [branches] <;> decide
  · rw [Bool.eq_false_iff, ne_eq, isSatisfiedBy_iff]
    rintro ⟨-, stays⟩
    refine stays rfl ⟨Core.toPoint ⟨1, 0, 0⟩, .inr (by decide), fun point above _ => ?_⟩
    apply (covers_or_iff together point).mpr
    right
    rw [covers_normalize second.ranges_eq, others]
    refine ⟨_, List.mem_singleton_self _, fun comparator member => ?_⟩
    cases List.mem_singleton.mp member
    exact decide_eq_true above

end Constraint

end Versioning
