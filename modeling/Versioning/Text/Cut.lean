/-!
Cutting text at fixed marks: at every double bar, and once at the first occurrence of a character.
-/

namespace Versioning.Text

/-- The pieces between the double bars, found from left to right without overlap. Text without a
double bar is one piece. -/
def cutAtDoubleBars : List Char → List (List Char)
  | [] => [[]]
  | '|' :: '|' :: rest => [] :: cutAtDoubleBars rest
  | c :: rest => (cutAtDoubleBars rest).modifyHead (c :: ·)

theorem cutAtDoubleBars_ne_nil (text : List Char) : cutAtDoubleBars text ≠ [] := by
  fun_induction cutAtDoubleBars text with
  | case1 => simp
  | case2 => simp
  | case3 c rest _ ih =>
      intro empty
      exact ih (List.modifyHead_eq_nil_iff.mp empty)

def cutOnce? (mark : Char) : List Char → Option (List Char × List Char)
  | [] => none
  | c :: rest =>
      if c = mark then some ([], rest)
      else (cutOnce? mark rest).map fun cut => (c :: cut.1, cut.2)

theorem eq_append_of_cutOnce? {mark : Char} {text before after : List Char}
    (found : cutOnce? mark text = some (before, after)) : text = before ++ mark :: after := by
  induction text generalizing before with
  | nil => simp [cutOnce?] at found
  | cons c rest ih =>
      unfold cutOnce? at found
      split at found
      · next same =>
        simp only [Option.some.injEq, Prod.mk.injEq] at found
        obtain ⟨rfl, rfl⟩ := found
        simp [same]
      · obtain ⟨⟨front, back⟩, inner, same⟩ := Option.map_eq_some_iff.mp found
        simp only [Prod.mk.injEq] at same
        obtain ⟨rfl, rfl⟩ := same
        simp [ih inner]

end Versioning.Text
