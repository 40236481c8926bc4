import Versioning.Proofs.Descriptor
import Versioning.Proofs.Npm.Alternatives

/-!
Texts of a single npm term. A sigil and a descriptor, with or without blanks between them, are read
as one term. No bar stands in a descriptor that is accepted and no sigil in front of it, so the text
is not cut, and a sigil that stands alone is glued to the descriptor that follows.
-/

namespace Versioning

namespace Npm

/-! ### Sigils -/

def Sigil.spellings : List (String × Sigil) :=
  [("", .plain), ("=", .plain), ("~", .tilde), ("~>", .tilde), ("^", .caret), ("!=", .notEqual),
    ("<", .less), ("<=", .atMost), ("=<", .atMost), (">", .greater), (">=", .atLeast),
    ("=>", .atLeast)]

def Sigil.chars : List Char := ['<', '>', '=', '~', '^', '!']

private theorem Sigil.solid_of_mem_chars {c : Char} (among : c ∈ chars) :
    Text.isBlank c = false ∧ c ≠ '|' := by
  simp only [chars, List.mem_cons, List.not_mem_nil, or_false] at among
  rcases among with rfl | rfl | rfl | rfl | rfl | rfl <;> decide

theorem Sigil.apart_of_mem_chars {c : Char} (among : c ∈ chars) :
    (Spelling.isMark c = true → c = '=') ∧ Spelling.isWildcard c = false ∧
      Text.isDecimalDigit c = false := by
  simp only [chars, List.mem_cons, List.not_mem_nil, or_false] at among
  rcases among with rfl | rfl | rfl | rfl | rfl | rfl <;> decide

theorem Sigil.mem_read {text : List Char} {c : Char} (member : c ∈ text) (other : c ∉ chars) :
    c ∈ (read text).2 := by
  simp only [chars, List.mem_cons, List.not_mem_nil, or_false, not_or] at other
  unfold read
  split <;> simp_all

private theorem Sigil.standsAlone_eq_false {text : List Char} {c : Char} (member : c ∈ text)
    (other : c ∉ chars) (noMark : c ≠ 'v') : standsAlone text = false := by
  have noEqual : c ≠ '=' := by
    rintro rfl
    exact other (by decide)
  rw [standsAlone, List.all_eq_false]
  exact ⟨c, mem_read member other, by simp [noMark, noEqual]⟩

theorem standsAlone_append_of_ofChars {dialect : Descriptor.Dialect} {descriptor : Descriptor}
    {text : List Char} (described : Descriptor.ofChars dialect text = .ok descriptor)
    (front : List Char) : Sigil.standsAlone (front ++ text) = false := by
  obtain ⟨marks, first, rest, rfl, -, kind⟩ := Descriptor.exists_first_of_ofChars described
  apply Sigil.standsAlone_eq_false (c := first) (by simp)
  · intro among
    obtain ⟨-, noWildcard, noDigit⟩ := Sigil.apart_of_mem_chars among
    simp [noWildcard, noDigit] at kind
  · rcases kind with wildcard | digit
    · exact Text.ne_of_class wildcard rfl
    · exact Text.ne_of_class digit rfl

section

variable {mark : String} {sigil : Sigil}

private theorem Sigil.read_append (spelled : (mark, sigil) ∈ spellings) {text : List Char}
    (apart : ∀ c ∈ text.head?, c ∉ chars) : read (mark.toList ++ text) = (sigil, text) := by
  cases text with
  | nil =>
      have each : ∀ spelling ∈ spellings, read (spelling.1.toList ++ []) = (spelling.2, []) := by
        decide
      exact each _ spelled
  | cons c rest =>
      have other : c ∉ chars := apart c rfl
      simp only [chars, List.mem_cons, List.not_mem_nil, or_false, not_or] at other
      simp only [spellings, List.mem_cons, Prod.mk.injEq, List.not_mem_nil, or_false] at spelled
      rcases spelled with ⟨rfl, rfl⟩ | ⟨rfl, rfl⟩ | ⟨rfl, rfl⟩ | ⟨rfl, rfl⟩ | ⟨rfl, rfl⟩ |
        ⟨rfl, rfl⟩ | ⟨rfl, rfl⟩ | ⟨rfl, rfl⟩ | ⟨rfl, rfl⟩ | ⟨rfl, rfl⟩ | ⟨rfl, rfl⟩ | ⟨rfl, rfl⟩ <;>
        simp [read, other]

private theorem Sigil.standsAlone_spelling (spelled : (mark, sigil) ∈ spellings) :
    standsAlone mark.toList = true := by
  have each : ∀ spelling ∈ spellings, standsAlone spelling.1.toList = true := by decide
  exact each _ spelled

private theorem Sigil.spelling_subset_chars (spelled : (mark, sigil) ∈ spellings) :
    mark.toList ⊆ chars := by
  have each : ∀ spelling ∈ spellings, spelling.1.toList ⊆ chars := by decide
  exact each _ spelled

theorem Sigil.solid_of_mem_spelling (spelled : (mark, sigil) ∈ spellings) :
    ∀ c ∈ mark.toList, Text.isBlank c = false ∧ c ≠ '|' :=
  fun _ member => solid_of_mem_chars (spelling_subset_chars spelled member)

end

/-! ### Terms -/

/-- A sigil and a descriptor, perhaps with blanks between them, and what they are read as. -/
structure IsTermText (options : Options) (mark : String) (sigil : Sigil) (blanks text : List Char)
    (descriptor : Descriptor) : Prop where
  spelled : (mark, sigil) ∈ Sigil.spellings
  blank : Text.IsBlanks blanks
  solid : ∀ c ∈ text, Text.isBlank c = false
  apart : text.head? ≠ some '='
  described : Descriptor.ofChars options.dialect text = .ok descriptor

namespace IsTermText

variable {options : Options} {mark : String} {sigil : Sigil} {blanks text : List Char}
  {descriptor : Descriptor}

theorem head?_not_mem_chars (isTerm : IsTermText options mark sigil blanks text descriptor) :
    ∀ c ∈ text.head?, c ∉ Sigil.chars := by
  obtain ⟨front, first, rest, rfl, marks, kind⟩ :=
    Descriptor.exists_first_of_ofChars isTerm.described
  intro c isFirst among
  obtain ⟨onlyEqual, noNumber⟩ := Sigil.apart_of_mem_chars among
  cases front with
  | nil =>
      cases isFirst
      simp [noNumber] at kind
  | cons m others =>
      cases isFirst
      have equal := onlyEqual (marks c List.mem_cons_self)
      exact isTerm.apart (congrArg some equal)

private theorem read_token (isTerm : IsTermText options mark sigil blanks text descriptor) :
    Sigil.read (mark.toList ++ text) = (sigil, text) :=
  Sigil.read_append isTerm.spelled isTerm.head?_not_mem_chars

private theorem standsAlone_token (isTerm : IsTermText options mark sigil blanks text descriptor) :
    Sigil.standsAlone (mark.toList ++ text) = false :=
  standsAlone_append_of_ofChars isTerm.described mark.toList

private theorem text_ne_nil (isTerm : IsTermText options mark sigil blanks text descriptor) :
    text ≠ [] := by
  obtain ⟨front, first, rest, rfl, -, -⟩ := Descriptor.exists_first_of_ofChars isTerm.described
  exact List.append_ne_nil_of_right_ne_nil front (List.cons_ne_nil first rest)

theorem glue_words_append (isTerm : IsTermText options mark sigil blanks text descriptor)
    (rest : List Word) : glue [] (Text.words (mark.toList ++ (blanks ++ text)) ++ rest) =
      (mark.toList ++ text) :: glue [] rest := by
  have nonempty := isTerm.text_ne_nil
  have solidMark : ∀ c ∈ mark.toList, Text.isBlank c = false :=
    fun c member => (Sigil.solid_of_mem_spelling isTerm.spelled c member).1
  have wordText : Text.words text = [text] := Text.words_eq_singleton nonempty isTerm.solid
  have single : glue [] ([mark.toList ++ text] ++ rest) =
      (mark.toList ++ text) :: glue [] rest := by
    simp [glue, isTerm.standsAlone_token]
  cases blanks with
  | nil =>
      rw [List.nil_append, Text.words_eq_singleton, single]
      · exact List.append_ne_nil_of_right_ne_nil _ nonempty
      · exact List.forall_mem_append.mpr ⟨solidMark, isTerm.solid⟩
  | cons c others =>
      obtain ⟨blank, blankOthers⟩ := List.forall_mem_cons.mp isTerm.blank
      rw [List.cons_append, Text.words_append_cons _ _ blank,
        Text.words_blanks_append text blankOthers, wordText]
      by_cases none : mark.toList = []
      · rw [none] at single ⊢
        exact single
      · -- the sigil is a word of its own, which waits for the next one
        rw [Text.words_eq_singleton none solidMark]
        simp [glue, Sigil.standsAlone_spelling isTerm.spelled, isTerm.standsAlone_token]

private theorem glue_words (isTerm : IsTermText options mark sigil blanks text descriptor) :
    glue [] (Text.words (mark.toList ++ (blanks ++ text))) = [mark.toList ++ text] := by
  simpa [glue] using isTerm.glue_words_append []

theorem bar_not_mem (isTerm : IsTermText options mark sigil blanks text descriptor) :
    '|' ∉ mark.toList ++ (blanks ++ text) := by
  simp only [List.mem_append, not_or]
  exact ⟨fun bar => (Sigil.solid_of_mem_spelling isTerm.spelled '|' bar).2 rfl,
    Text.not_mem_of_isBlanks (by decide) isTerm.blank,
    Descriptor.bar_not_mem_of_ofChars isTerm.described⟩

private theorem readTerm_token {source : String}
    (isTerm : IsTermText options mark sigil blanks text descriptor) :
    readTerm options source (mark.toList ++ text) = term options source sigil descriptor := by
  rw [readTerm, isTerm.read_token]
  simp only [isTerm.described]
  rfl

private theorem readBranch_words {source : String}
    (isTerm : IsTermText options mark sigil blanks text descriptor) :
    readBranch options source (Text.words (mark.toList ++ (blanks ++ text))) =
      term options source sigil descriptor := by
  have glued := isTerm.glue_words
  unfold readBranch
  split
  · next none =>
    rw [none] at glued
    cases glued
  · rw [glued]
    change ([mark.toList ++ text].mapM (readTerm options source)).map List.flatten = _
    rw [List.mapM_cons, List.mapM_nil, isTerm.readTerm_token]
    cases term options source sigil descriptor <;>
      simp [bind, Except.bind, pure, Except.pure, Except.map]

/-- The text of a term is read as this term alone. -/
theorem read_eq {source : String}
    (isTerm : IsTermText options mark sigil blanks text descriptor)
    (written : source.toList = mark.toList ++ (blanks ++ text)) :
    read options source = (term options source sigil descriptor).map fun branch => [branch] := by
  have cut : alternatives source = .ok [Text.words (mark.toList ++ (blanks ++ text))] :=
    written ▸ alternatives_of_no_bar (written ▸ isTerm.bar_not_mem)
  rw [read, cut]
  change [_].mapM (readBranch options source) = _
  rw [List.mapM_cons, List.mapM_nil, isTerm.readBranch_words]
  cases term options source sigil descriptor <;> rfl

end IsTermText

end Npm

end Versioning
