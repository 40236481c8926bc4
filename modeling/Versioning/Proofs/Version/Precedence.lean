import Mathlib.Data.List.Lex
import Versioning.Proofs.Precedence
import Versioning.Proofs.Version.Text

/-!
Precedence as semantic versioning has it, by the texts of identifiers. Numbers stand in the order of
their values, which for texts without leading zeros is the order by length and then by digits; words
stand in ASCII order above all numbers. The comparison of versions is this order, and what it does
not tell apart has the same hash.
-/

namespace Versioning

/-! ### Digits in order -/

theorem append_lt_append {a b : List Char} (same : a.length = b.length) (before : a < b)
    (rest other : List Char) : a ++ rest < b ++ other := by
  change List.Lex (· < ·) a b at before
  change List.Lex (· < ·) (a ++ rest) (b ++ other)
  induction before with
  | nil => simp at same
  | rel below => exact .rel below
  | cons later ih => exact .cons (ih (by simpa using same))

private theorem digitChar_lt_digitChar {a b : Nat} (small : b < 10) (below : a < b) :
    a.digitChar < b.digitChar := by
  have first := Nat.toNat_digitChar_of_lt_ten (n := a) (by omega)
  have second := Nat.toNat_digitChar_of_lt_ten small
  change a.digitChar.toNat < b.digitChar.toNat
  omega

/-- The text of a lesser number is shorter, or has the same length and stands before. -/
theorem toDigits_before {a b : Nat} (below : a < b) :
    (Nat.toDigits 10 a).length < (Nat.toDigits 10 b).length ∨
      (Nat.toDigits 10 a).length = (Nat.toDigits 10 b).length ∧
        Nat.toDigits 10 a < Nat.toDigits 10 b := by
  -- the last digit decides only if the tens of both are the same
  induction b using Nat.strongRecOn generalizing a with
  | ind b ih =>
      by_cases small : b < 10
      · right
        rw [Nat.toDigits_of_lt_base small, Nat.toDigits_of_lt_base (by omega : a < 10)]
        exact ⟨rfl, .rel (digitChar_lt_digitChar small below)⟩
      · have large : 10 ≤ b := by omega
        rw [Nat.toDigits_of_base_le (by decide) large]
        by_cases short : a < 10
        · left
          have some := Nat.length_toDigits_pos (b := 10) (n := b / 10)
          rw [Nat.toDigits_of_lt_base short]
          simp only [List.length_append, List.length_singleton]
          omega
        · rw [Nat.toDigits_of_base_le (by decide) (by omega : 10 ≤ a)]
          simp only [List.length_append, List.length_singleton]
          by_cases apart : a / 10 < b / 10
          · rcases ih (b / 10) (by omega) apart with shorter | ⟨same, before⟩
            · left
              omega
            · exact .inr ⟨by omega, append_lt_append same before _ _⟩
          · have same : a / 10 = b / 10 := by omega
            have last : a % 10 < b % 10 := by omega
            right
            rw [same]
            refine ⟨rfl, List.Lex.append_left _ (.rel ?_) _⟩
            exact digitChar_lt_digitChar (by omega) last

/-! ### Identifiers -/

theorem compare_string_eq_lt_iff {a b : String} : compare a b = .lt ↔ a < b :=
  compareOfLessAndEq_eq_lt

def isNumberText (text : String) : Bool := text.toList.all Char.isDigit

/-- Precedence of identifiers as they are written. Numbers stand in the order of their values and
below words, which stand in ASCII order. -/
inductive IdentifierPrecedes (a b : String) : Prop
  | numbers (first : isNumberText a = true) (second : isNumberText b = true)
      (below : Nat.ofDigitChars 10 a.toList 0 < Nat.ofDigitChars 10 b.toList 0)
  | numberAndWord (first : isNumberText a = true) (second : isNumberText b = false)
  | words (first : isNumberText a = false) (second : isNumberText b = false) (below : a < b)

/-- Compares identifiers by their characters alone. Of two numbers the longer one is the greater,
and numbers of one length are compared like words. -/
def compareIdentifierTexts (a b : String) : Ordering :=
  match isNumberText a, isNumberText b with
  | true, true => (compare a.length b.length).then (compare a b)
  | true, false => .lt
  | false, true => .gt
  | false, false => compare a b

namespace Identifier

theorem text_injective {a b : Identifier} (same : a.text = b.text) : a = b := by
  have first := a.ofChars_text
  rw [same, b.ofChars_text] at first
  exact (Except.ok.inj first).symm

theorem isNumberText_numeric (value : Nat) : isNumberText (numeric value).text = true := by
  rw [isNumberText, toList_text_numeric]
  exact List.all_eq_true.mpr fun _ => isDigit_of_mem_toDigits

theorem isNumberText_alphanumeric {text : String} (valid : isAlphanumericText text = true) :
    isNumberText (alphanumeric text valid).text = false := by
  rw [isAlphanumericText, Bool.and_eq_true, Bool.not_eq_true'] at valid
  exact valid.2

private theorem compare_eq_lt_iff_precedes {a b : Identifier} :
    compare a b = .lt ↔ IdentifierPrecedes a.text b.text := by
  cases a with
  | numeric a =>
      have first := isNumberText_numeric a
      cases b with
      | numeric b =>
          have second := isNumberText_numeric b
          change compare a b = .lt ↔ _
          rw [Nat.compare_eq_lt]
          constructor
          · intro below
            refine .numbers first second ?_
            rwa [toList_text_numeric, toList_text_numeric, Nat.ofDigitChars_ten_toDigits,
              Nat.ofDigitChars_ten_toDigits]
          · intro precedes
            cases precedes with
            | numbers _ _ below =>
                rwa [toList_text_numeric, toList_text_numeric, Nat.ofDigitChars_ten_toDigits,
                  Nat.ofDigitChars_ten_toDigits] at below
            | numberAndWord _ word => simp [second] at word
            | words word _ _ => simp [first] at word
      | alphanumeric b valid =>
          exact iff_of_true rfl (.numberAndWord first (isNumberText_alphanumeric valid))
  | alphanumeric a validFirst =>
      have first := isNumberText_alphanumeric validFirst
      cases b with
      | numeric b =>
          have second := isNumberText_numeric b
          refine iff_of_false Ordering.noConfusion fun precedes => ?_
          cases precedes with
          | numbers number _ _ => simp [first] at number
          | numberAndWord number _ => simp [first] at number
          | words _ word _ => simp [second] at word
      | alphanumeric b validSecond =>
          have second := isNumberText_alphanumeric validSecond
          change compare a b = .lt ↔ _
          rw [compare_string_eq_lt_iff]
          constructor
          · exact .words first second
          · intro precedes
            cases precedes with
            | numbers number _ _ => simp [first] at number
            | numberAndWord number _ => simp [first] at number
            | words _ _ below => exact below

private theorem compareIdentifierTexts_numeric_eq_lt {a b : Nat} (below : a < b) :
    compareIdentifierTexts (numeric a).text (numeric b).text = .lt := by
  simp only [compareIdentifierTexts, isNumberText_numeric, Ordering.then_eq_lt,
    Nat.compare_eq_lt, Nat.compare_eq_eq, compare_string_eq_lt_iff, String.lt_iff,
    ← String.length_toList, toList_text_numeric]
  exact toDigits_before below

private theorem compareIdentifierTexts_numeric_swap (a b : Nat) :
    compareIdentifierTexts (numeric a).text (numeric b).text =
      (compareIdentifierTexts (numeric b).text (numeric a).text).swap := by
  simp only [compareIdentifierTexts, isNumberText_numeric, Ordering.swap_then]
  rw [Std.OrientedOrd.eq_swap (a := (numeric a).text.length),
    Std.OrientedOrd.eq_swap (a := (numeric a).text)]

theorem compare_eq_compareIdentifierTexts (a b : Identifier) :
    compare a b = compareIdentifierTexts a.text b.text := by
  cases a with
  | numeric a =>
      cases b with
      | numeric b =>
          change compare a b = _
          rcases Nat.lt_trichotomy a b with below | same | above
          · rw [compareIdentifierTexts_numeric_eq_lt below, Nat.compare_eq_lt.mpr below]
          · subst same
            simp [compareIdentifierTexts, isNumberText_numeric]
          · rw [compareIdentifierTexts_numeric_swap, compareIdentifierTexts_numeric_eq_lt above,
              Nat.compare_eq_gt.mpr above]
            rfl
      | alphanumeric b valid =>
          rw [compareIdentifierTexts, isNumberText_numeric, isNumberText_alphanumeric]
          rfl
  | alphanumeric a validFirst =>
      cases b with
      | numeric b =>
          rw [compareIdentifierTexts, isNumberText_numeric, isNumberText_alphanumeric]
          rfl
      | alphanumeric b validSecond =>
          rw [compareIdentifierTexts, isNumberText_alphanumeric, isNumberText_alphanumeric]
          rfl

end Identifier

/-! ### Pre-releases -/

def PreRelease.texts (preRelease : PreRelease) : List String :=
  preRelease.identifiers.map Identifier.text

private theorem PreRelease.texts_injective {a b : PreRelease} (same : a.texts = b.texts) : a = b :=
  PreRelease.ext (List.map_injective_iff.mpr (fun _ _ => Identifier.text_injective) same)

theorem compare_identifiers_eq_lt_iff {a b : List Identifier} :
    compare a b = .lt ↔
      List.Lex IdentifierPrecedes (a.map Identifier.text) (b.map Identifier.text) := by
  induction a generalizing b with
  | nil =>
      cases b with
      | nil => simp
      | cons next rest => exact iff_of_true List.compare_nil_cons .nil
  | cons first others ih =>
      cases b with
      | nil => simp
      | cons next rest =>
          have same : first.text = next.text ↔ first = next :=
            ⟨Identifier.text_injective, congrArg Identifier.text⟩
          rw [List.compare_cons_cons, Ordering.then_eq_lt, List.map_cons, List.map_cons,
            List.cons_lex_cons_iff, ih, Identifier.compare_eq_lt_iff_precedes,
            Std.compare_eq_iff_eq, same]

/-! ### Versions -/

namespace Version

/-- Precedence of versions. Major, minor and patch decide in this order, then a pre-release stands
below the release of its core, and then the identifiers decide. -/
inductive Precedes (a b : Version) : Prop
  | major (below : a.major.value < b.major.value)
  | minor (sameMajor : a.major = b.major) (below : a.minor.value < b.minor.value)
  | patch (sameMajor : a.major = b.major) (sameMinor : a.minor = b.minor)
      (below : a.patch.value < b.patch.value)
  | release (sameCore : a.toCore = b.toCore) (before : a.preRelease.isSome = true)
      (after : b.preRelease = none)
  | preRelease {first second : PreRelease} (sameCore : a.toCore = b.toCore)
      (isFirst : a.preRelease = some first) (isSecond : b.preRelease = some second)
      (below : List.Lex IdentifierPrecedes first.texts second.texts)

variable {a b : Version}

private theorem compare_eq_then (a b : Version) :
    compare a b = (compare a.toCore b.toCore).then
      (PreRelease.compareOptions a.preRelease b.preRelease) := rfl

private theorem compare_eq_lt_iff_precedes : compare a b = .lt ↔ a.Precedes b := by
  rw [compare_eq_then, Ordering.then_eq_lt, Core.compare_eq_lt_iff, Std.compare_eq_iff_eq]
  -- each way to be less is one constructor, by the first field that differs
  constructor
  · rintro ((major | ⟨sameMajor, minor | ⟨sameMinor, patch⟩⟩) | ⟨sameCore, below⟩)
    · exact .major major
    · exact .minor (Component.ext sameMajor) minor
    · exact .patch (Component.ext sameMajor) (Component.ext sameMinor) patch
    · cases first : a.preRelease with
      | none =>
          cases second : b.preRelease <;>
            simp [first, second, PreRelease.compareOptions] at below
      | some preRelease =>
          cases second : b.preRelease with
          | none => exact .release sameCore (by rw [first]; rfl) second
          | some other =>
              rw [first, second] at below
              exact .preRelease sameCore first second (compare_identifiers_eq_lt_iff.mp below)
  · intro precedes
    cases precedes with
    | major below => exact .inl (.inl below)
    | minor sameMajor below => exact .inl (.inr ⟨congrArg _ sameMajor, .inl below⟩)
    | patch sameMajor sameMinor below =>
        exact .inl (.inr ⟨congrArg _ sameMajor, .inr ⟨congrArg _ sameMinor, below⟩⟩)
    | release sameCore before after =>
        obtain ⟨preRelease, first⟩ := Option.isSome_iff_exists.mp before
        exact .inr ⟨sameCore, by rw [first, after]; rfl⟩
    | preRelease sameCore first second below =>
        refine .inr ⟨sameCore, ?_⟩
        rw [first, second]
        exact compare_identifiers_eq_lt_iff.mpr below

private theorem compare_eq_eq_iff :
    compare a b = .eq ↔ a.major = b.major ∧ a.minor = b.minor ∧ a.patch = b.patch ∧
      a.preRelease = b.preRelease := by
  change compare a.toPoint b.toPoint = .eq ↔ _
  rw [Std.compare_eq_iff_eq, Point.ext_iff]

private theorem hashed_eq_iff :
    a.hashed = b.hashed ↔ a.toCore = b.toCore ∧ a.preRelease = b.preRelease := by
  rw [hashed, hashed, Prod.mk.injEq]
  exact and_congr_right fun _ =>
    ⟨fun same => Option.map_injective (fun _ _ => PreRelease.texts_injective) same,
      fun same => congrArg _ same⟩

private theorem least_isLE (version : Version) : (compare least version).isLE = true :=
  Point.least_le version.toPoint

/-- Versions compare by semantic precedence, in which build metadata has no part: two of them
compare equal exactly if nothing else differs, and exactly if the same is hashed. The comparison is
a total preorder with a least version. Numbers among identifiers compare by their values, however
many digits they have, and that can be told from the lengths of their texts and then the digits. -/
theorem compare_is_precedence (a b : Version) :
    (compare a b = .lt ↔ a.Precedes b) ∧
    (compare a b = .gt ↔ b.Precedes a) ∧
    (compare a b = .eq ↔ a.major = b.major ∧ a.minor = b.minor ∧ a.patch = b.patch ∧
      a.preRelease = b.preRelease) ∧
    (compare a b = .eq ↔ a.hashed = b.hashed) ∧
    (∀ x y : Identifier, compare x y = compareIdentifierTexts x.text y.text) ∧
    compare a a = .eq ∧
    compare a b = (compare b a).swap ∧
    ((compare a b).isLE = true ∨ (compare b a).isLE = true) ∧
    (∀ c : Version, (compare a b).isLE = true ∧ (compare b c).isLE = true →
      (compare a c).isLE = true) ∧
    (compare least a).isLE = true := by
  have swapped : compare a b = (compare b a).swap := Std.OrientedOrd.eq_swap
  refine ⟨compare_eq_lt_iff_precedes, ?_, compare_eq_eq_iff, ?_,
    Identifier.compare_eq_compareIdentifierTexts, Std.ReflOrd.compare_self, swapped, ?_, ?_,
    least_isLE a⟩
  · rw [swapped, Ordering.swap_eq_gt, compare_eq_lt_iff_precedes]
  · rw [hashed_eq_iff, compare_eq_eq_iff, Core.ext_iff, and_assoc, and_assoc]
  · rw [swapped]
    cases compare b a <;> simp
  · intro c ⟨first, second⟩
    exact Std.TransOrd.isLE_trans first second

end Version

end Versioning
