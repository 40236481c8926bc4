import Mathlib.Order.MinMax
import Versioning.Proofs.Outcome
import Versioning.Version.Order

/-!
Precedence as a linear order. Points have a least element, and nothing stands between a point and
the next one. All that is proved about ranges rests on these two facts.
-/

namespace Versioning

namespace Component

theorem value_of_next {component following : Component} (next : component.next = .ok following) :
    following.value = component.value + 1 := by
  unfold Component.next at next
  split at next
  · cases next
    rfl
  · cases next

end Component

namespace Identifier

private theorem compare_zero_ne_lt (identifier : Identifier) :
    compare identifier (.numeric 0) ≠ .lt := by
  cases identifier with
  | numeric value =>
      change compare value 0 ≠ .lt
      rw [Nat.compare_ne_lt]
      exact Nat.zero_le value
  | alphanumeric text valid => exact Ordering.noConfusion

theorem compare_cons_zero_ne_lt (first : Identifier) (rest : List Identifier) :
    compare (first :: rest) [.numeric 0] ≠ .lt := by
  rw [List.compare_cons_cons]
  cases found : compare first (.numeric 0) with
  | lt => exact absurd found (compare_zero_ne_lt first)
  | eq => cases rest <;> simp
  | gt => simp

theorem compare_append_zero (list other : List Identifier) :
    compare other (list ++ [.numeric 0]) = .lt ↔ (compare other list).isLE = true := by
  induction list generalizing other with
  | nil =>
      cases other with
      | nil => decide
      | cons first rest =>
          rw [List.nil_append, List.compare_cons_nil]
          exact iff_of_false (compare_cons_zero_ne_lt first rest) Bool.false_ne_true
  | cons head tail ih =>
      cases other with
      | nil => simp
      | cons first rest =>
          rw [List.cons_append, List.compare_cons_cons, List.compare_cons_cons]
          cases compare first head with
          | lt => simp
          | eq => exact ih rest
          | gt => simp

end Identifier

namespace PreRelease

theorem compare_next (preRelease other : PreRelease) :
    compare other preRelease.next = .lt ↔ (compare other preRelease).isLE = true :=
  Identifier.compare_append_zero preRelease.identifiers other.identifiers

private theorem compare_least_ne_lt (preRelease : PreRelease) :
    compare preRelease .least ≠ .lt := by
  obtain ⟨identifiers, nonempty⟩ := preRelease
  cases identifiers with
  | nil => contradiction
  | cons first rest => exact Identifier.compare_cons_zero_ne_lt first rest

theorem compareOptions_least_ne_lt (preRelease : Option PreRelease) :
    compareOptions preRelease (some .least) ≠ .lt := by
  cases preRelease with
  | none => exact Ordering.noConfusion
  | some value => exact compare_least_ne_lt value

theorem compareOptions_none_isLE (preRelease : Option PreRelease) :
    (compareOptions preRelease none).isLE = true := by
  cases preRelease <;> rfl

end PreRelease

namespace Core

theorem compare_eq_lt_iff {a b : Core} :
    compare a b = .lt ↔ a.major.value < b.major.value ∨ a.major.value = b.major.value ∧
      (a.minor.value < b.minor.value ∨ a.minor.value = b.minor.value ∧
        a.patch.value < b.patch.value) := by
  change ((compare a.major.value b.major.value).then
    ((compare a.minor.value b.minor.value).then (compare a.patch.value b.patch.value))) = .lt ↔ _
  simp only [Ordering.then_eq_lt, Nat.compare_eq_lt, Nat.compare_eq_eq]

theorem compare_next {core other : Core} {patch : Component}
    (following : patch.value = core.patch.value + 1) :
    compare other ⟨core.major, core.minor, patch⟩ = .lt ↔ (compare other core).isLE = true := by
  change ((compare other.major core.major).then
      ((compare other.minor core.minor).then (compare other.patch.value patch.value))) = .lt ↔
    ((compare other.major core.major).then
      ((compare other.minor core.minor).then
        (compare other.patch.value core.patch.value))).isLE = true
  cases compare other.major core.major with
  | lt => simp
  | gt => simp
  | eq =>
      cases compare other.minor core.minor with
      | lt => simp
      | gt => simp
      | eq =>
          simp only [Ordering.eq_then, Nat.compare_eq_lt, Nat.isLE_compare]
          omega

private theorem compare_zero_ne_lt (core : Core) : compare core ⟨0, 0, 0⟩ ≠ .lt := by
  change ((compare core.major.value 0).then
    ((compare core.minor.value 0).then (compare core.patch.value 0))) ≠ .lt
  simp only [ne_eq, Ordering.then_eq_lt, Nat.compare_eq_lt, Nat.not_lt_zero, and_false, or_false,
    not_false_eq_true]

end Core

namespace Point

instance : LinearOrder Point where
  le_refl a := (Std.ReflOrd.isLE_rfl : (compare a a).isLE = true)
  le_trans _ _ _ first second := Std.TransOrd.isLE_trans first second
  lt_iff_le_not_ge a b := by
    change compare a b = .lt ↔ (compare a b).isLE = true ∧ ¬(compare b a).isLE = true
    rw [Std.OrientedOrd.eq_swap (a := b) (b := a)]
    cases compare a b <;> decide
  le_antisymm _ _ first second :=
    Std.LawfulEqOrd.eq_of_compare (Std.OrientedCmp.isLE_antisymm first second)
  le_total a b := by
    change (compare a b).isLE = true ∨ (compare b a).isLE = true
    rw [Std.OrientedOrd.eq_swap (a := b) (b := a)]
    cases compare a b <;> decide
  toDecidableLE := inferInstance
  toDecidableEq := inferInstance
  toDecidableLT := inferInstance
  min := min
  max := max
  compare := compare
  compare_eq_compareOfLessAndEq a b := by
    change compare a b = if compare a b = .lt then .lt else if a = b then .eq else .gt
    by_cases same : a = b
    · subst b
      simp
    · cases found : compare a b with
      | lt => rfl
      | eq => exact absurd (Std.LawfulEqOrd.eq_of_compare found) same
      | gt => simp [same]

theorem compare_eq_then (a b : Point) :
    compare a b = (compare a.toCore b.toCore).then
      (PreRelease.compareOptions a.preRelease b.preRelease) := rfl

theorem least_le (point : Point) : least ≤ point := by
  rw [← not_lt]
  change ¬compare point least = .lt
  rw [compare_eq_then, Ordering.then_eq_lt]
  intro either
  rcases either with below | ⟨-, below⟩
  · exact Core.compare_zero_ne_lt _ below
  · exact PreRelease.compareOptions_least_ne_lt _ below

/-- The points below the next one are those up to the point itself. -/
theorem lt_next_iff {point following other : Point} (next : point.next = .ok following) :
    other < following ↔ other ≤ point := by
  change compare other following = .lt ↔ (compare other point).isLE = true
  rw [compare_eq_then, compare_eq_then]
  unfold Point.next at next
  split at next
  · next release =>
    obtain ⟨patch, nextPatch, same⟩ := Outcome.bind_eq_ok_iff.mp next
    cases same
    rw [release]
    -- the release is the greatest point of its core and the next point the least of the next core
    rw [Ordering.then_eq_lt, Ordering.isLE_then_iff_and,
      Core.compare_next (Component.value_of_next nextPatch)]
    have notBelow := PreRelease.compareOptions_least_ne_lt other.preRelease
    have notAbove := PreRelease.compareOptions_none_isLE other.preRelease
    simp only [notBelow, notAbove, and_false, or_false, or_true, and_true]
  · next preRelease found =>
    cases next
    rw [found]
    cases compare other.toCore point.toCore with
    | lt => simp
    | gt => simp
    | eq =>
        rw [Ordering.eq_then, Ordering.eq_then]
        cases other.preRelease with
        | none => exact iff_of_false Ordering.noConfusion Bool.false_ne_true
        | some value => exact PreRelease.compare_next preRelease value

end Point

end Versioning
