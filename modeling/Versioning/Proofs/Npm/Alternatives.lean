import Versioning.Grammar
import Versioning.Proofs.Text.Words

/-!
Texts with a double bar between them. Such a text has the alternatives of both texts, one after the
other, whatever stands in either of them.
-/

namespace Versioning

namespace Npm

variable {options : Options} {a b : String}

/-! ### Words of alternatives -/

theorem contains_bar_eq_of_surrounds {outer inner : List Char}
    (around : Text.Surrounds outer inner) :
    outer.contains '|' = inner.contains '|' := by
  obtain ⟨front, back, blankFront, blankBack, rfl⟩ := around
  have first : '|' ∉ front := Text.not_mem_of_isBlanks (by decide) blankFront
  have last : '|' ∉ back := Text.not_mem_of_isBlanks (by decide) blankBack
  rw [Bool.eq_iff_iff, List.contains_iff_mem, List.contains_iff_mem]
  simp [first, last]

private theorem alternativesOfPiece_eq_ok_of_surrounds {source other : String}
    {outer inner : List Char} {found : List (List Word)} (around : Text.Surrounds outer inner)
    (readInner : alternativesOfPiece source inner = .ok found) :
    alternativesOfPiece other outer = .ok found := by
  unfold alternativesOfPiece at readInner ⊢
  rw [contains_bar_eq_of_surrounds around]
  split at readInner
  · next bar =>
    rw [if_pos bar]
    refine Outcome.mapM_eq_ok_of_forall₂ (around.forall₂_splitOn.imp ?_) readInner
    intro outerSide side aroundSide words readSide
    rw [aroundSide.words_eq]
    cases found : Text.words side with
    | nil => simp [found] at readSide
    | cons word rest => simpa [found] using readSide
  · next noBar =>
    rw [if_neg noBar, around.words_eq]
    exact readInner

theorem alternativesOfPiece_of_no_bar {source : String} {piece : List Char}
    (noBar : '|' ∉ piece) : alternativesOfPiece source piece = .ok [Text.words piece] := by
  simp [alternativesOfPiece, noBar]

theorem alternativesOfPiece_append_bar {source : String} {text piece : List Char}
    {first : List Word} {rest : List (List Word)} (noBar : '|' ∉ text)
    (some : Text.words text ≠ []) (found : alternativesOfPiece source piece = .ok (first :: rest))
    (someFirst : first ≠ []) :
    alternativesOfPiece source (text ++ '|' :: piece) =
      .ok (Text.words text :: first :: rest) := by
  have bar : (text ++ '|' :: piece).contains '|' = true := by simp
  unfold alternativesOfPiece at found ⊢
  rw [if_pos bar, Text.splitOn_append_cons noBar, Outcome.mapM_eq_ok_iff]
  refine .cons ?_ ?_
  · cases same : Text.words text with
    | nil => contradiction
    | cons word others => rfl
  · split at found
    · -- the piece is named in errors only
      refine (Outcome.mapM_eq_ok_iff.mp found).imp fun side words read => ?_
      cases same : Text.words side with
      | nil => simp [same] at read
      | cons word others => simpa [same] using read
    · next alone =>
      cases found
      rw [List.splitOn_eq_singleton (by simpa using alone)]
      refine .cons ?_ .nil
      cases same : Text.words piece with
      | nil => contradiction
      | cons word others => rfl

theorem alternatives_of_no_bar {source : String} (noBar : '|' ∉ source.toList) :
    alternatives source = .ok [Text.words source.toList] := by
  refine Outcome.map_eq_ok_iff.mpr ⟨[[Text.words source.toList]], ?_, rfl⟩
  rw [Text.cutAtDoubleBars_eq_singleton noBar, Outcome.mapM_eq_ok_iff]
  exact .cons (alternativesOfPiece_of_no_bar noBar) .nil

private theorem alternatives_or {first second : List (List Word)}
    (readFirst : alternatives a = .ok first) (readSecond : alternatives b = .ok second) :
    alternatives (a ++ " || " ++ b) = .ok (first ++ second) := by
  obtain ⟨lists, pieces, rfl⟩ := Outcome.map_eq_ok_iff.mp readFirst
  obtain ⟨others, otherPieces, rfl⟩ := Outcome.map_eq_ok_iff.mp readSecond
  refine Outcome.map_eq_ok_iff.mpr ⟨lists ++ others, ?_, List.flatten_append⟩
  exact Text.mapM_cutAtDoubleBars_or alternativesOfPiece alternativesOfPiece_eq_ok_of_surrounds
    pieces otherPieces

/-! ### Branches -/

theorem readTerm_eq_ok_iff {source : String} {token : Word} {branch : Branch} :
    readTerm options source token = .ok branch ↔
      ∃ descriptor, Descriptor.ofChars options.dialect (Sigil.read token).2 = .ok descriptor ∧
        term options source (Sigil.read token).1 descriptor = .ok branch :=
  Outcome.bind_eq_ok_iff

theorem readTerm_eq_error_iff {source : String} {token : Word} {error : ConstraintError} :
    readTerm options source token = .error error ↔
      Descriptor.ofChars options.dialect (Sigil.read token).2 = .error error ∨
        ∃ descriptor, Descriptor.ofChars options.dialect (Sigil.read token).2 = .ok descriptor ∧
          term options source (Sigil.read token).1 descriptor = .error error :=
  Outcome.bind_eq_error_iff

theorem term_eq_ok {source other : String} {sigil : Sigil} {descriptor : Descriptor}
    {branch : Branch} (found : term options source sigil descriptor = .ok branch) :
    term options other sigil descriptor = .ok branch := by
  cases sigil with
  | notEqual =>
      change notEqual source descriptor = .ok branch at found
      change notEqual other descriptor = .ok branch
      unfold notEqual at found ⊢
      split at found
      · next none => rw [if_pos none, found]
      · next some =>
        rw [if_neg some]
        split at found
        · cases found
        · next exact => rw [if_neg exact, found]
  | _ => exact found

private theorem readTerm_eq_ok {source other : String} {token : Word} {branch : Branch}
    (found : readTerm options source token = .ok branch) :
    readTerm options other token = .ok branch := by
  obtain ⟨descriptor, readDescriptor, found⟩ := readTerm_eq_ok_iff.mp found
  exact readTerm_eq_ok_iff.mpr ⟨descriptor, readDescriptor, term_eq_ok found⟩

theorem readBranch_eq_ok {source other : String} {words : List Word} {branch : Branch}
    (found : readBranch options source words = .ok branch) :
    readBranch options other words = .ok branch := by
  unfold readBranch at found ⊢
  split at found
  · exact found
  · unfold readTokens at found ⊢
    split at found
    · exact found
    · next tokens apart =>
      obtain ⟨branches, terms, rfl⟩ := Outcome.map_eq_ok_iff.mp found
      refine Outcome.map_eq_ok_iff.mpr ⟨branches, ?_, rfl⟩
      exact Outcome.mapM_eq_ok_of_forall₂
        (List.forall₂_same.mpr fun token _ _ => readTerm_eq_ok) terms

theorem read_or {first second : List Branch} (readFirst : read options a = .ok first)
    (readSecond : read options b = .ok second) :
    read options (a ++ " || " ++ b) = .ok (first ++ second) := by
  obtain ⟨lists, alternativesFirst, branches⟩ := Outcome.bind_eq_ok_iff.mp readFirst
  obtain ⟨others, alternativesSecond, otherBranches⟩ := Outcome.bind_eq_ok_iff.mp readSecond
  refine Outcome.bind_eq_ok_iff.mpr
    ⟨lists ++ others, alternatives_or alternativesFirst alternativesSecond, ?_⟩
  have named (source : String) {lists : List (List Word)} {branches : List Branch}
      (found : lists.mapM (readBranch options source) = .ok branches) :
      lists.mapM (readBranch options (a ++ " || " ++ b)) = .ok branches :=
    Outcome.mapM_eq_ok_of_forall₂ (List.forall₂_same.mpr fun words _ _ => readBranch_eq_ok) found
  exact Outcome.mapM_append_eq_ok (named a branches) (named b otherBranches)

end Npm

theorem Grammar.read_npm_eq_ok_iff {options : Npm.Options} {source : String} {reading : Reading} :
    (npm options).read source = .ok reading ↔
      reading.preferred = none ∧ Npm.read options source = .ok reading.branches := by
  change (Npm.read options source >>= fun branches => pure ⟨branches, none⟩) = .ok reading ↔ _
  rw [Outcome.bind_eq_ok_iff]
  simp only [Outcome.pure_eq_ok_iff]
  constructor
  · rintro ⟨branches, found, rfl⟩
    exact ⟨rfl, found⟩
  · rintro ⟨preferred, found⟩
    exact ⟨reading.branches, found, by rw [← preferred]⟩

theorem Grammar.read_npm_eq_error_iff {options : Npm.Options} {source : String}
    {error : ConstraintError} :
    (npm options).read source = .error error ↔ Npm.read options source = .error error := by
  change (Npm.read options source >>= fun branches => pure (Reading.mk branches none)) =
    .error error ↔ _
  exact Outcome.bind_pure_eq_error_iff

end Versioning
