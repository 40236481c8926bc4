import Versioning.Proofs.Constraint.Parsing
import Versioning.Proofs.Constraint.Satisfaction
import Versioning.Proofs.Query
import Versioning.Proofs.Version.Lenient

/-!
Selection among candidates. What is selected is one of the candidates and satisfies the constraint.
A candidate at the preferred version comes first, and versions that compare equal satisfy the same
constraints, so the preferred version itself tells whether such a candidate is selected. Where none
is preferred the last of the greatest is selected, as it is when versions are given as texts.
-/

namespace Versioning

private theorem isFirst_of_find? {α : Type} {test : α → Bool} {items : List α} {item : α}
    (found : items.find? test = some item) :
    IsFirst (fun other => test other = true) items item := by
  obtain ⟨passes, front, back, same, before⟩ := List.find?_eq_some_iff_append.mp found
  refine ⟨front, back, same, passes, ?_⟩
  intro other inFront
  simpa using before other inFront

namespace Constraint

variable {constraint : Constraint} {candidates : List Version} {version chosen preferred : Version}

private theorem isSatisfiedBy_eq_of_toPoint_eq {other : Version}
    (same : version.toPoint = other.toPoint) :
    constraint.isSatisfiedBy version = constraint.isSatisfiedBy other := by
  unfold isSatisfiedBy admits
  rw [same]

theorem of_select (selected : constraint.select candidates = some chosen) :
    chosen ∈ candidates ∧ constraint.isSatisfiedBy chosen = true := by
  rw [← List.mem_filter]
  rcases Option.or_eq_some_iff.mp selected with favoured | ⟨-, latest⟩
  · obtain ⟨_, -, found⟩ := Option.bind_eq_some_iff.mp favoured
    exact List.mem_of_find?_eq_some found
  · exact (Version.isLatestIn_of_latestBy? latest).mem

theorem exists_select_preferred_iff (isPreferred : constraint.preferred = some preferred)
    (among : ∃ candidate ∈ candidates, compare candidate preferred = .eq) :
    (∃ chosen ∈ candidates, constraint.select candidates = some chosen ∧
      compare chosen preferred = .eq) ↔ constraint.isSatisfiedBy preferred = true := by
  have satisfied_iff {candidate : Version} (same : compare candidate preferred = .eq) :
      constraint.isSatisfiedBy candidate = constraint.isSatisfiedBy preferred :=
    isSatisfiedBy_eq_of_toPoint_eq (Std.LawfulEqOrd.eq_of_compare same)
  constructor
  · rintro ⟨chosen, -, selected, same⟩
    rw [← satisfied_iff same]
    exact (of_select selected).2
  · intro satisfied
    obtain ⟨candidate, member, same⟩ := among
    have satisfying : candidate ∈ candidates.filter constraint.isSatisfiedBy :=
      List.mem_filter.mpr ⟨member, (satisfied_iff same).trans satisfied⟩
    have some : ((candidates.filter constraint.isSatisfiedBy).find? fun candidate =>
        compare candidate preferred == .eq).isSome = true :=
      List.find?_isSome.mpr ⟨candidate, satisfying, beq_iff_eq.mpr same⟩
    obtain ⟨chosen, found⟩ := Option.isSome_iff_exists.mp some
    have selected : constraint.select candidates = Option.some chosen := by
      unfold select
      dsimp only
      rw [isPreferred, Option.bind_some, found, Option.some_or]
    exact ⟨chosen, (of_select selected).1, selected, by simpa using List.find?_some found⟩

/-! ### What is selected -/

/-- Whether a candidate is the one to select: the first at the preferred version of those that
satisfy the constraint, or the last of the greatest of them where none is at the preferred
version. -/
inductive IsChoice (constraint : Constraint) (candidates : List Version) (chosen : Version) : Prop
  | preferred {preferred : Version} (isPreferred : constraint.preferred = some preferred)
      (first : IsFirst (fun candidate => compare candidate preferred = .eq)
        (candidates.filter constraint.isSatisfiedBy) chosen)
  | latest (apart : ∀ preferred, constraint.preferred = some preferred →
        ∀ candidate ∈ candidates, constraint.isSatisfiedBy candidate = true →
          compare candidate preferred ≠ .eq)
      (last : IsLast (fun best => ∀ candidate ∈ candidates.filter constraint.isSatisfiedBy,
        (compare candidate best).isLE = true) (candidates.filter constraint.isSatisfiedBy) chosen)

private theorem select_eq_none_iff : constraint.select candidates = none ↔
    ∀ candidate ∈ candidates, constraint.isSatisfiedBy candidate = false := by
  have empty : candidates.filter constraint.isSatisfiedBy = [] ↔
      ∀ candidate ∈ candidates, constraint.isSatisfiedBy candidate = false := by
    simp only [List.filter_eq_nil_iff, Bool.not_eq_true]
  rw [← empty, select, Option.or_eq_none_iff, Version.latest?, Version.latestBy?_eq_none_iff,
    and_iff_right_iff_imp]
  intro none
  rw [none]
  cases constraint.preferred <;> rfl

private theorem isChoice_of_select (selected : constraint.select candidates = some chosen) :
    constraint.IsChoice candidates chosen := by
  rcases Option.or_eq_some_iff.mp selected with favoured | ⟨missing, latest⟩
  · obtain ⟨preferred, isPreferred, found⟩ := Option.bind_eq_some_iff.mp favoured
    have first := isFirst_of_find? found
    simp only [beq_iff_eq] at first
    exact .preferred isPreferred first
  · refine .latest ?_ (Version.isLatestIn_of_latestBy? latest).isLast
    intro preferred isPreferred candidate member satisfied same
    rw [isPreferred, Option.bind_some] at missing
    have apart := List.find?_eq_none.mp missing candidate (List.mem_filter.mpr ⟨member, satisfied⟩)
    exact apart (beq_iff_eq.mpr same)

/-! ### Candidates as texts -/

private theorem readable_texts (candidates : List Version) :
    Query.readable (candidates.map Version.text) =
      candidates.map fun candidate => (candidate.text, candidate) := by
  induction candidates with
  | nil => rfl
  | cons candidate rest ih =>
      have read := Version.parseLeniently_of_parse candidate.parse_text
      rw [List.map_cons, Query.readable_cons, read, List.map_cons, ← ih]
      rfl

theorem maxSatisfying_texts {text : String} (parsed : parse .standard text = .ok constraint)
    (candidates : List Version) :
    Query.maxSatisfying (candidates.map Version.text) text =
      (constraint.select candidates).map Version.text := by
  obtain ⟨-, -, -, notPreferred⟩ := parse_npm_eq_ok_iff.mp parsed
  have satisfying : Query.satisfying (candidates.map Version.text) text =
      (candidates.filter constraint.isSatisfiedBy).map
        fun candidate => (candidate.text, candidate) := by
    rw [Query.satisfying, parsed]
    dsimp only
    rw [readable_texts, List.filter_map]
    rfl
  have selected : constraint.select candidates =
      Version.latest? (candidates.filter constraint.isSatisfiedBy) := by
    rw [select, notPreferred]
    rfl
  rw [Query.maxSatisfying, satisfying, Version.latestBy?_map, selected, Option.map_map]
  rfl

/-- A constraint selects nothing exactly if no candidate satisfies it. Else it selects the first
satisfying candidate at the preferred version, or where there is none the last of the greatest
satisfying ones. A constraint read from a standard text selects what the query on texts finds. -/
theorem select_is_choice (constraint : Constraint) (candidates : List Version) :
    (constraint.select candidates = none ↔
      ∀ candidate ∈ candidates, constraint.isSatisfiedBy candidate = false) ∧
    (∀ chosen, constraint.select candidates = some chosen →
      chosen ∈ candidates ∧ constraint.isSatisfiedBy chosen = true ∧
        constraint.IsChoice candidates chosen) ∧
    ∀ text, parse .standard text = .ok constraint →
      Query.maxSatisfying (candidates.map Version.text) text =
        (constraint.select candidates).map Version.text := by
  refine ⟨select_eq_none_iff, ?_, fun text parsed => maxSatisfying_texts parsed candidates⟩
  intro chosen selected
  have ⟨member, satisfied⟩ := of_select selected
  exact ⟨member, satisfied, isChoice_of_select selected⟩

theorem select_is_choice_tie :
    ∃ (constraint : Constraint) (first last : Version),
      parse .standard ">=1.0.0" = .ok constraint ∧ compare first last = .eq ∧ first ≠ last ∧
      constraint.select [first, .release 0 1 0, last] = some last ∧
      constraint.IsChoice [first, .release 0 1 0, last] last ∧
      Query.maxSatisfying ([first, .release 0 1 0, last].map Version.text) ">=1.0.0" =
        some last.text := by
  obtain ⟨constraint, parsed, branches⟩ : ∃ constraint, parse .standard ">=1.0.0" = .ok constraint ∧
      constraint.branches = [[.condition (.atLeast (Core.toPoint ⟨1, 0, 0⟩))]] :=
    exists_parse rfl rfl ⟨_, rfl⟩
  obtain ⟨-, -, -, notPreferred⟩ := parse_npm_eq_ok_iff.mp parsed
  let first : Version := { Version.release 1 1 0 with build := some ⟨"a", by decide⟩ }
  let last : Version := { Version.release 1 1 0 with build := some ⟨"b", by decide⟩ }
  have satisfied (version : Version) (release : version.isPreRelease = false) :
      constraint.isSatisfiedBy version =
        (Predicate.condition (.atLeast (Core.toPoint ⟨1, 0, 0⟩))).admits version := by
    rw [Bool.eq_iff_iff, isSatisfiedBy, admits_iff_covers_of_release release, covers_iff, branches]
    simp only [List.mem_singleton, exists_eq_left, forall_eq]
  have satisfying :
      [first, .release 0 1 0, last].filter constraint.isSatisfiedBy = [first, last] := by
    simp only [List.filter_cons, List.filter_nil, satisfied first rfl, satisfied last rfl,
      satisfied (.release 0 1 0) rfl]
    decide
  have selected : constraint.select [first, .release 0 1 0, last] = some last := by
    rw [select, notPreferred, satisfying]
    rfl
  obtain ⟨-, choice, texts⟩ := select_is_choice constraint [first, .release 0 1 0, last]
  have found := texts _ parsed
  rw [selected] at found
  exact ⟨constraint, first, last, parsed, by decide, by decide, selected,
    (choice last selected).2.2, found⟩

end Constraint

end Versioning
