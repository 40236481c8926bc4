import Versioning.Version.Latest

/-!
The latest of several items. A run over the items keeps the last of the greatest that it has passed:
what stands before it is not later, and what stands behind it is earlier.
-/

namespace Versioning

def IsFirst {α : Type} (property : α → Prop) (items : List α) (item : α) : Prop :=
  ∃ front back, items = front ++ item :: back ∧ property item ∧ ∀ other ∈ front, ¬property other

def IsLast {α : Type} (property : α → Prop) (items : List α) (item : α) : Prop :=
  ∃ front back, items = front ++ item :: back ∧ property item ∧ ∀ other ∈ back, ¬property other

theorem IsLast.map {α β : Type} {property : α → Prop} {image : β → Prop} {write : α → β}
    {items : List α} {item : α} (last : IsLast property items item)
    (same : ∀ other ∈ items, property other ↔ image (write other)) :
    IsLast image (items.map write) (write item) := by
  obtain ⟨front, back, rfl, holds, behind⟩ := last
  refine ⟨front.map write, back.map write, by simp, (same item (by simp)).mp holds, ?_⟩
  intro _ inImage
  obtain ⟨other, inBack, rfl⟩ := List.mem_map.mp inImage
  rw [← same other (by simp [inBack])]
  exact behind other inBack

namespace Version

variable {α β : Type} {version : α → Version} {items : List α} {item next : α}

/-- Whether an item is the last one among the greatest of a list, by where the others stand. -/
def IsLatestIn (version : α → Version) (items : List α) (item : α) : Prop :=
  ∃ front back, items = front ++ item :: back ∧
    (∀ other ∈ front, (compare (version other) (version item)).isLE = true) ∧
    ∀ other ∈ back, compare (version other) (version item) = .lt

namespace IsLatestIn

/-! ### One step -/

private theorem singleton : IsLatestIn version [item] item :=
  ⟨[], [], rfl, List.forall_mem_nil _, List.forall_mem_nil _⟩

theorem isLE (latest : IsLatestIn version items item) :
    ∀ other ∈ items, (compare (version other) (version item)).isLE = true := by
  obtain ⟨front, back, rfl, before, behind⟩ := latest
  intro other member
  rcases List.mem_append.mp member with inFront | fromItem
  · exact before other inFront
  · rcases List.mem_cons.mp fromItem with same | inBack
    · rw [same]
      exact Std.ReflOrd.isLE_rfl
    · rw [behind other inBack]
      rfl

theorem mem (latest : IsLatestIn version items item) : item ∈ items := by
  obtain ⟨front, back, rfl, -⟩ := latest
  exact List.mem_append_right front List.mem_cons_self

theorem append_of_gt (latest : IsLatestIn version items item)
    (above : compare (version item) (version next) = .gt) :
    IsLatestIn version (items ++ [next]) item := by
  obtain ⟨front, back, rfl, before, behind⟩ := latest
  refine ⟨front, back ++ [next], by simp, before, ?_⟩
  have below : compare (version next) (version item) = .lt := by
    rw [Std.OrientedOrd.eq_swap, above]
    rfl
  exact List.forall_mem_append.mpr ⟨behind, List.forall_mem_singleton.mpr below⟩

theorem append_of_ne_gt (latest : IsLatestIn version items item)
    (upTo : compare (version item) (version next) ≠ .gt) :
    IsLatestIn version (items ++ [next]) next := by
  refine ⟨items, [], rfl, ?_, List.forall_mem_nil _⟩
  intro other member
  have step : (compare (version item) (version next)).isLE = true :=
    Ordering.isLE_iff_ne_gt.mpr upTo
  exact Std.TransOrd.isLE_trans (latest.isLE other member) step

/-! ### The run -/

/-- The item that is kept is the latest of those passed, and so it is at the end. -/
theorem foldl (rest : List α) (latest : IsLatestIn version items item) :
    IsLatestIn version (items ++ rest)
      (rest.foldl (fun best next =>
        if compare (version best) (version next) = .gt then best else next) item) := by
  induction rest generalizing items item with
  | nil => simpa using latest
  | cons next others ih =>
      rw [List.foldl_cons, List.append_cons]
      split
      · next above => exact ih (latest.append_of_gt above)
      · next upTo => exact ih (latest.append_of_ne_gt upTo)

theorem isLast (latest : IsLatestIn version items item) : IsLast (fun best => ∀ other ∈ items,
    (compare (version other) (version best)).isLE = true) items item := by
  have upTo := latest.isLE
  have member := latest.mem
  obtain ⟨front, back, same, -, behind⟩ := latest
  refine ⟨front, back, same, upTo, ?_⟩
  intro other inBack greatest
  have below : compare (version item) (version other) = .gt := by
    rw [Std.OrientedOrd.eq_swap, behind other inBack]
    rfl
  have notBelow := greatest item member
  rw [below] at notBelow
  contradiction

end IsLatestIn

theorem isLatestIn_of_latestBy? (latest : latestBy? version items = some item) :
    IsLatestIn version items item := by
  cases items with
  | nil => cases latest
  | cons first rest =>
      cases latest
      exact IsLatestIn.singleton.foldl rest

theorem latestBy?_eq_none_iff : latestBy? version items = none ↔ items = [] := by
  cases items <;> simp [latestBy?]

theorem latestBy?_map (write : β → α) (list : List β) :
    latestBy? version (list.map write) =
      (latestBy? (fun value => version (write value)) list).map write := by
  cases list with
  | nil => rfl
  | cons first rest =>
      simp only [latestBy?, List.map_cons, Option.map_some, Option.some.injEq, List.foldl_map]
      induction rest generalizing first with
      | nil => rfl
      | cons next others ih =>
          rw [List.foldl_cons, List.foldl_cons]
          split
          · exact ih first
          · exact ih next

end Version

end Versioning
