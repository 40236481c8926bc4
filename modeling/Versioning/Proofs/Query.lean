import Mathlib.Data.List.Pairwise
import Versioning.Query
import Versioning.Proofs.Version.Latest

/-!
What queries on texts answer. All of them look at the same readable texts, and what they return is a
part of the texts that were given: a filter of them, the last of the greatest, or the same texts in
order. A sort is stable in both directions, so texts of the same precedence are not reversed when
the order is.
-/

namespace Versioning

namespace Query

def isReadable (source : String) : Bool := (Version.parseLeniently source).toOption.isSome

def isAt (point : Point) (source : String) : Bool :=
  (Version.parseLeniently source).toOption.any fun version => version.toPoint == point

def InOrder (order : Version → Version → Ordering) (source other : String) : Prop :=
  ∃ version next, Version.parseLeniently source = .ok version ∧
    Version.parseLeniently other = .ok next ∧ (order version next).isLE = true

/-- Whether texts are the readable ones among some others, in order, those at the same point as they
came. -/
structure IsSortOf (order : Version → Version → Ordering) (versions sorted : List String) :
    Prop where
  perm : sorted.Perm (versions.filter isReadable)
  ordered : sorted.Pairwise (InOrder order)
  stable : ∀ point, sorted.filter (isAt point) = versions.filter (isAt point)

variable {order : Version → Version → Ordering} {versions : List String}
  {source other chosen constraint : String} {version next : Version} {item : String × Version}

theorem inOrder_iff (read : Version.parseLeniently source = .ok version)
    (readOther : Version.parseLeniently other = .ok next) :
    InOrder order source other ↔ (order version next).isLE = true := by
  constructor
  · intro ordered
    obtain ⟨_, _, again, againOther, upTo⟩ := ordered
    cases read.symm.trans again
    cases readOther.symm.trans againOther
    exact upTo
  · intro upTo
    exact ⟨version, next, read, readOther, upTo⟩

/-! ### Readable texts -/

theorem parse_of_mem_readable (member : item ∈ readable versions) :
    Version.parseLeniently item.1 = .ok item.2 := by
  obtain ⟨source, -, found⟩ := List.mem_filterMap.mp member
  cases read : Version.parseLeniently source with
  | error => simp [read, Except.toOption] at found
  | ok version =>
      rw [read] at found
      cases found
      exact read

theorem readable_cons (source : String) (rest : List String) :
    readable (source :: rest) = match (Version.parseLeniently source).toOption with
      | none => readable rest
      | some version => (source, version) :: readable rest := by
  unfold readable
  rw [List.filterMap_cons]
  cases (Version.parseLeniently source).toOption <;> rfl

theorem map_fst_filter_readable (test : Version → Bool) (versions : List String) :
    ((readable versions).filter fun item => test item.2).map Prod.fst =
      versions.filter fun source => (Version.parseLeniently source).toOption.any test := by
  induction versions with
  | nil => rfl
  | cons source rest ih =>
      rw [readable_cons, List.filter_cons]
      cases (Version.parseLeniently source).toOption with
      | none => exact ih
      | some version => cases passes : test version <;> simp [passes, ih]

private theorem map_fst_readable (versions : List String) :
    (readable versions).map Prod.fst = versions.filter isReadable := by
  have all := map_fst_filter_readable (fun _ => true) versions
  rw [List.filter_eq_self.mpr fun _ _ => rfl] at all
  rw [all]
  apply List.filter_congr
  intro source _
  unfold isReadable
  cases (Version.parseLeniently source).toOption <;> rfl

private theorem isAt_of_mem_readable (point : Point) (member : item ∈ readable versions) :
    isAt point item.1 = (item.2.toPoint == point) := by
  rw [isAt, parse_of_mem_readable member]
  rfl

/-! ### Satisfying texts -/

private theorem satisfiedBy_eq_filter (versions : List String) (constraint : String) :
    satisfiedBy versions constraint =
      versions.filter fun version => satisfies version constraint := by
  unfold satisfiedBy satisfying
  cases parsed : Constraint.parse .standard constraint with
  | error error =>
      have none (version : String) : satisfies version constraint = false := by
        unfold satisfies
        rw [parsed]
        cases Version.parseLeniently version <;> rfl
      simp [none]
  | ok read =>
      have each (version : String) : satisfies version constraint =
          (Version.parseLeniently version).toOption.any read.isSatisfiedBy := by
        unfold satisfies
        rw [parsed]
        cases Version.parseLeniently version <;> rfl
      simp only [each]
      exact map_fst_filter_readable read.isSatisfiedBy versions

private theorem parse_of_mem_satisfying (member : item ∈ satisfying versions constraint) :
    Version.parseLeniently item.1 = .ok item.2 := by
  unfold satisfying at member
  split at member
  · exact parse_of_mem_readable (List.mem_filter.mp member).1
  · cases member

private theorem maxSatisfying_eq_none_iff :
    maxSatisfying versions constraint = none ↔ satisfiedBy versions constraint = [] := by
  rw [maxSatisfying, satisfiedBy, Option.map_eq_none_iff, Version.latestBy?_eq_none_iff,
    List.map_eq_nil_iff]

private theorem isLast_of_maxSatisfying (found : maxSatisfying versions constraint = some chosen) :
    IsLast (fun best => ∀ other ∈ satisfiedBy versions constraint, InOrder compare other best)
      (satisfiedBy versions constraint) chosen := by
  obtain ⟨item, latest, rfl⟩ := Option.map_eq_some_iff.mp found
  apply (Version.isLatestIn_of_latestBy? latest).isLast.map
  intro best among
  unfold satisfiedBy
  rw [List.forall_mem_map]
  -- each of the texts is read as the version that stands beside it
  apply forall₂_congr
  intro other amongOthers
  exact (inOrder_iff (parse_of_mem_satisfying amongOthers) (parse_of_mem_satisfying among)).symm

/-! ### Sorting -/

/-- A stable sort leaves items in place that may stand in any order among each other. -/
theorem filter_mergeSort {α : Type} {le : α → α → Bool} {test : α → Bool}
    (trans : ∀ a b c, le a b = true → le b c = true → le a c = true)
    (total : ∀ a b, (le a b || le b a) = true)
    (alike : ∀ a b, test a = true → test b = true → le a b = true) (items : List α) :
    (items.mergeSort le).filter test = items.filter test := by
  have pairs : (items.filter test).Pairwise fun a b => le a b = true := by
    apply List.pairwise_of_forall_mem_list
    intro a memberA b memberB
    exact alike a b (List.mem_filter.mp memberA).2 (List.mem_filter.mp memberB).2
  have kept : (items.filter test).Sublist (items.mergeSort le) :=
    List.sublist_mergeSort trans total pairs List.filter_sublist
  have within : (items.filter test).Sublist ((items.mergeSort le).filter test) := by
    have filtered := kept.filter test
    rwa [List.filter_filter, funext fun _ => Bool.and_self _] at filtered
  have sameLength := ((items.mergeSort_perm le).filter test).length_eq
  exact (within.eq_of_length sameLength.symm).symm

private theorem isSortOf_mergeSort [Std.TransCmp order]
    (alike : ∀ version next : Version, version.toPoint = next.toPoint →
      (order version next).isLE = true) (versions : List String) :
    IsSortOf order versions
      (((readable versions).mergeSort fun a b => (order a.2 b.2).isLE).map Prod.fst) := by
  have trans (a b c : String × Version) (first : (order a.2 b.2).isLE = true)
      (second : (order b.2 c.2).isLE = true) : (order a.2 c.2).isLE = true :=
    Std.TransCmp.isLE_trans first second
  have total (a b : String × Version) : ((order a.2 b.2).isLE || (order b.2 a.2).isLE) = true := by
    have swap : order b.2 a.2 = (order a.2 b.2).swap := Std.OrientedCmp.eq_swap
    rw [swap]
    cases order a.2 b.2 <;> rfl
  have sorted := List.mergeSort_perm (readable versions) fun a b => (order a.2 b.2).isLE
  constructor
  · rw [← map_fst_readable]
    exact sorted.map Prod.fst
  · rw [List.pairwise_map]
    apply (List.pairwise_mergeSort trans total (readable versions)).imp_of_mem
    intro a b memberA memberB upTo
    have readA := parse_of_mem_readable (sorted.mem_iff.mp memberA)
    have readB := parse_of_mem_readable (sorted.mem_iff.mp memberB)
    exact (inOrder_iff readA readB).mpr upTo
  · intro point
    have atPoint (item : String × Version) (member : item ∈ (readable versions).mergeSort
        fun a b => (order a.2 b.2).isLE) : isAt point item.1 = (item.2.toPoint == point) :=
      isAt_of_mem_readable point (sorted.mem_iff.mp member)
    rw [List.filter_map, Function.comp_def, List.filter_congr atPoint,
      filter_mergeSort trans total, map_fst_filter_readable fun version => version.toPoint == point]
    · rfl
    · intro a b testA testB
      exact alike a.2 b.2 ((beq_iff_eq.mp testA).trans (beq_iff_eq.mp testB).symm)

private theorem isLE_compare_of_toPoint_eq (same : version.toPoint = next.toPoint) :
    (compare version next).isLE = true := by
  change (compare version.toPoint next.toPoint).isLE = true
  rw [same]
  exact Std.ReflOrd.isLE_rfl

/-! ### All queries -/

/-- All queries answer from the same readable texts. Those that satisfy a constraint are the texts
that satisfy it one by one; the greatest is the last of these among those that are not before any of
them; and sorting gives back the readable texts in order, upwards or downwards, and those of the
same precedence in the order in which they came. -/
theorem queries_agree (versions : List String) (constraint : String) :
    satisfiedBy versions constraint =
      (versions.filter fun version => satisfies version constraint) ∧
    (satisfiedBy versions constraint = [] ∧ maxSatisfying versions constraint = none ∨
      ∃ chosen, maxSatisfying versions constraint = some chosen ∧
        IsLast (fun best => ∀ other ∈ satisfiedBy versions constraint, InOrder compare other best)
          (satisfiedBy versions constraint) chosen) ∧
    IsSortOf compare versions (sort versions) ∧
    IsSortOf (fun version next => compare next version) versions (sortDescending versions) := by
  refine ⟨satisfiedBy_eq_filter versions constraint, ?_, ?_, ?_⟩
  · cases found : maxSatisfying versions constraint with
    | none => exact .inl ⟨maxSatisfying_eq_none_iff.mp found, rfl⟩
    | some chosen => exact .inr ⟨chosen, rfl, isLast_of_maxSatisfying found⟩
  · apply isSortOf_mergeSort
    intro version next same
    exact isLE_compare_of_toPoint_eq same
  · apply isSortOf_mergeSort
    intro version next same
    exact isLE_compare_of_toPoint_eq same.symm

end Query

end Versioning
