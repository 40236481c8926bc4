import Versioning.Version.Basic

/-!
Precedence. Cores compare component by component; on the same core every pre-release stands below
the release. Points are linearly ordered. Versions compare as their points do, so versions that
differ in build metadata alone compare equal without being equal.
-/

namespace Versioning

namespace Core

instance : Ord Core :=
  ⟨compareLex (compareOn major) (compareLex (compareOn minor) (compareOn patch))⟩

instance : Std.TransOrd Core :=
  inferInstanceAs (Std.TransCmp
    (compareLex (compareOn major) (compareLex (compareOn minor) (compareOn patch))))

instance : Std.LawfulEqOrd Core where
  eq_of_compare {a b} same := by
    change compareLex (compareOn major) (compareLex (compareOn minor) (compareOn patch)) a b = .eq
      at same
    simp only [compareLex_eq_eq, compareOn] at same
    exact Core.ext (Std.LawfulEqOrd.eq_of_compare same.1)
      (Std.LawfulEqOrd.eq_of_compare same.2.1) (Std.LawfulEqOrd.eq_of_compare same.2.2)

end Core

def PreRelease.compareOptions : Option PreRelease → Option PreRelease → Ordering
  | none, none => .eq
  | none, some _ => .gt
  | some _, none => .lt
  | some a, some b => compare a b

instance : Std.TransCmp PreRelease.compareOptions where
  eq_swap {a b} :=
    match a, b with
    | none, none => rfl
    | none, some _ => rfl
    | some _, none => rfl
    | some _, some _ => Std.OrientedOrd.eq_swap (α := PreRelease)
  isLE_trans {a b c} first second :=
    match a, b, c with
    | none, none, none => rfl
    | some _, _, none => rfl
    | some _, some _, some _ => Std.TransOrd.isLE_trans (α := PreRelease) first second
    | none, some _, _ => absurd first Bool.false_ne_true
    | _, none, some _ => absurd second Bool.false_ne_true

instance : Std.LawfulEqCmp PreRelease.compareOptions where
  compare_self {a} :=
    match a with
    | none => rfl
    | some _ => Std.ReflOrd.compare_self (α := PreRelease)
  eq_of_compare {a b} same :=
    match a, b with
    | none, none => rfl
    | none, some _ => absurd same Ordering.noConfusion
    | some _, none => absurd same Ordering.noConfusion
    | some _, some _ => congrArg some (Std.LawfulEqOrd.eq_of_compare (α := PreRelease) same)

namespace Point

def comparePreReleases (a b : Point) : Ordering :=
  PreRelease.compareOptions a.preRelease b.preRelease

instance : Std.TransCmp comparePreReleases where
  eq_swap {a b} := by
    change PreRelease.compareOptions a.preRelease b.preRelease = _
    exact Std.OrientedCmp.eq_swap
  isLE_trans {a b c} first second := by
    change (PreRelease.compareOptions a.preRelease c.preRelease).isLE = true
    exact Std.TransCmp.isLE_trans (b := b.preRelease) first second

instance : Ord Point := ⟨compareLex (compareOn toCore) comparePreReleases⟩

instance : Std.TransOrd Point :=
  inferInstanceAs (Std.TransCmp (compareLex (compareOn toCore) comparePreReleases))

instance : Std.LawfulEqOrd Point where
  eq_of_compare {a b} same := by
    change compareLex (compareOn toCore) comparePreReleases a b = .eq at same
    simp only [compareLex_eq_eq, compareOn] at same
    have cores : a.toCore = b.toCore := Std.LawfulEqOrd.eq_of_compare same.1
    have preReleases : a.preRelease = b.preRelease := Std.LawfulEqCmp.eq_of_compare same.2
    cases a
    cases b
    simp_all

instance : LT Point := ltOfOrd

instance : LE Point := leOfOrd

instance : DecidableRel (α := Point) (· < ·) :=
  fun a b => inferInstanceAs (Decidable (compare a b = .lt))

instance : DecidableRel (α := Point) (· ≤ ·) :=
  fun a b => inferInstanceAs (Decidable ((compare a b).isLE = true))

theorem lt_of_lt_of_le {a b c : Point} (first : a < b) (second : b ≤ c) : a < c :=
  Std.TransCmp.lt_of_lt_of_isLE (b := b) first second

instance : Max Point := maxOfLe

instance : Min Point := minOfLe

end Point

namespace Version

instance : Ord Version := ⟨compareOn toPoint⟩

instance : Std.TransOrd Version := inferInstanceAs (Std.TransCmp (compareOn toPoint))

/-- What a hash of a version is taken of: the core, and the identifiers as they are written. -/
def hashed (version : Version) : Core × Option (List String) :=
  (version.toCore, version.preRelease.map fun preRelease =>
    preRelease.identifiers.map Identifier.text)

def later (a b : Version) : Version := if compare a b = .gt then a else b

end Version

end Versioning
