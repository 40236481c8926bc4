import Versioning.Proofs.Maven

/-!
Bracketed maven texts as lists of enclosures. The scan finds an opening character, then the first
closing character, and between restrictions a comma. So a text that is read is made of enclosures in
just one way, and each of them is read by itself.
-/

namespace Versioning

namespace Maven

/-- A restriction as it stands in a text: a body between an opening and a closing character. -/
structure Enclosure where
  opening : Char
  body : List Char
  closing : Char
  opens : isOpening opening = true
  inside : ∀ c ∈ body, isClosing c = false
  closes : isClosing closing = true

namespace Enclosure

variable {source : String} {enclosures : List Enclosure}

def text (enclosure : Enclosure) : List Char :=
  enclosure.opening :: (enclosure.body ++ [enclosure.closing])

def texts (enclosures : List Enclosure) : List Char := [','].intercalate (enclosures.map text)

theorem texts_singleton (enclosure : Enclosure) : texts [enclosure] = enclosure.text :=
  List.intercalate_singleton

theorem texts_cons (enclosure : Enclosure) (some : enclosures ≠ []) :
    texts (enclosure :: enclosures) = enclosure.text ++ ',' :: texts enclosures := by
  obtain ⟨next, others, rfl⟩ := List.exists_cons_of_ne_nil some
  rw [texts, texts, List.map_cons, List.map_cons, List.intercalate_cons_cons, List.append_assoc]
  rfl

private theorem exists_texts_eq_cons (some : enclosures ≠ []) :
    ∃ c rest, texts enclosures = c :: rest ∧ isOpening c = true := by
  obtain ⟨first, others, rfl⟩ := List.exists_cons_of_ne_nil some
  by_cases alone : others = []
  · rw [alone, texts_singleton]
    exact ⟨_, _, rfl, first.opens⟩
  · rw [texts_cons first alone]
    exact ⟨_, _, rfl, first.opens⟩

def read (source : String) (enclosure : Enclosure) : Except ConstraintError Restriction := do
  let form ← readForm source enclosure.opening enclosure.closing enclosure.body
  Restriction.ofForm form

/-! ### Enclosures are read one by one -/

private theorem readRestrictions_text_append (enclosure : Enclosure) {later : List Char}
    {outcome : Except ConstraintError (List Restriction)}
    (behind : ∀ index, readRestrictions source .behind index later = outcome) (index : Nat) :
    readRestrictions source .before index (enclosure.text ++ later) = do
      let restriction ← enclosure.read source
      let restrictions ← outcome
      return restriction :: restrictions := by
  rw [text, List.cons_append, List.append_assoc, List.singleton_append, readRestrictions,
    if_pos enclosure.opens, readRestrictions_inside enclosure.closes enclosure.inside [] behind,
    read, bind_assoc]
  rfl

theorem readRestrictions_texts (some : enclosures ≠ []) (index : Nat) :
    readRestrictions source .before index (texts enclosures) =
      enclosures.mapM (read source) := by
  induction enclosures generalizing index with
  | nil => contradiction
  | cons enclosure rest ih =>
      rw [List.mapM_cons]
      by_cases alone : rest = []
      · rw [alone, texts_singleton, ← List.append_nil (text _)]
        exact enclosure.readRestrictions_text_append (fun _ => rfl) index
      · rw [texts_cons enclosure alone]
        exact enclosure.readRestrictions_text_append (fun _ => ih alone _) index

/-! ### What is read is made of enclosures -/

/-- What a text that is read is, depending on where the scan stands in front of it. -/
def Completes (text : List Char) : Place → Prop
  | .before => ∃ enclosures, enclosures ≠ [] ∧ text = texts enclosures
  | .inside opening _ body => isOpening opening = true → (∀ c ∈ body, isClosing c = false) →
      ∃ enclosures, enclosures ≠ [] ∧ opening :: (body.reverse ++ text) = texts enclosures
  | .behind => text = [] ∨ ∃ enclosures, enclosures ≠ [] ∧ text = ',' :: texts enclosures

private theorem completes_of_readRestrictions {place : Place} {index : Nat} {text : List Char}
    {restrictions : List Restriction}
    (found : readRestrictions source place index text = .ok restrictions) :
    Completes text place := by
  induction text generalizing place index restrictions with
  | nil =>
      cases place with
      | before => cases found
      | inside => cases found
      | behind => exact .inl rfl
  | cons c rest ih =>
      unfold readRestrictions at found
      cases place with
      | before =>
          dsimp only at found
          split at found
          · next opens => exact ih found opens (List.forall_mem_nil _)
          · cases found
      | inside opening openedAt body =>
          intro opens inside
          dsimp only at found
          split at found
          · next closes =>
            obtain ⟨form, -, found⟩ := Outcome.bind_eq_ok_iff.mp found
            obtain ⟨restriction, -, found⟩ := Outcome.bind_eq_ok_iff.mp found
            obtain ⟨later, found, -⟩ := Outcome.bind_eq_ok_iff.mp found
            let enclosure : Enclosure := ⟨opening, body.reverse, c, opens,
              fun d member => inside d (List.mem_reverse.mp member), closes⟩
            rcases ih found with rfl | ⟨enclosures, some, rfl⟩
            · exact ⟨[enclosure], List.cons_ne_nil _ _, (texts_singleton enclosure).symm⟩
            · refine ⟨enclosure :: enclosures, List.cons_ne_nil _ _, ?_⟩
              rw [texts_cons enclosure some]
              simp [enclosure, Enclosure.text]
          · next other =>
            have within : ∀ d ∈ c :: body, isClosing d = false :=
              List.forall_mem_cons.mpr ⟨Bool.eq_false_iff.mpr other, inside⟩
            simpa using ih found opens within
      | behind =>
          dsimp only at found
          split at found
          · next comma =>
            obtain ⟨enclosures, some, rfl⟩ := ih found
            rw [beq_iff_eq.mp comma]
            exact .inr ⟨enclosures, some, rfl⟩
          · cases found

/-! ### Bracketed texts -/

/-- A bracketed text is read as its enclosures are. -/
theorem read_texts (some : enclosures ≠ []) (written : source.toList = texts enclosures) :
    Maven.read source =
      (enclosures.mapM (read source)).map fun restrictions => (restrictions, none) := by
  obtain ⟨c, rest, same, opens⟩ := exists_texts_eq_cons some
  have solid : ¬Text.isBlankText source.toList = true := by
    rw [written, same]
    exact Text.not_isBlankText List.mem_cons_self (isBlank_of_isOpening opens)
  unfold Maven.read
  dsimp only
  rw [if_neg solid, written, ← readRestrictions_texts some 0, same, List.head?_cons,
    Option.any_some, if_pos opens]

theorem exists_texts_of_read {result : List Restriction × Option Version}
    (bracketed : source.toList.head?.any isOpening = true)
    (found : Maven.read source = .ok result) :
    ∃ enclosures, enclosures ≠ [] ∧ source.toList = texts enclosures := by
  unfold Maven.read at found
  dsimp only at found
  split at found
  · cases found
  · obtain ⟨restrictions, found, -⟩ := Outcome.map_eq_ok_iff.mp found
    exact completes_of_readRestrictions found

end Enclosure

theorem Form.IsBracketed.exists_enclosure {form : Form} (bracketed : form.IsBracketed) :
    ∃ enclosure : Enclosure, form.text.toList = enclosure.text ∧
      ∀ source, enclosure.read source = Restriction.ofForm form := by
  obtain ⟨opening, body, closing, same, opens, inside, closes, readForm⟩ := bracketed.exists_text
  refine ⟨⟨opening, body, closing, opens, inside, closes⟩, same, fun source => ?_⟩
  rw [Enclosure.read, readForm]
  rfl

/-! ### Sides -/

/-- What stands on one side of a comma: nothing but blanks, or a descriptor with blanks around. -/
inductive IsSide : List Char → Option Descriptor → Prop
  | blank {text : List Char} (blank : Text.IsBlanks text) : IsSide text none
  | descriptor {text inner : List Char} {descriptor : Descriptor}
      (around : Text.Surrounds text inner)
      (described : Descriptor.ofChars .maven inner = .ok descriptor) :
      IsSide text (some descriptor)

theorem isFieldChar_or_isDecimalDigit_of_ofChars {text : List Char} {descriptor : Descriptor}
    (described : Descriptor.ofChars .maven text = .ok descriptor) :
    ∀ c ∈ text, isFieldChar c = true ∨ Text.isDecimalDigit c = true := by
  intro c member
  obtain ⟨fields, cut⟩ := Descriptor.exists_fields_of_ofChars described
  exact (Spelling.mem_of_read? cut c member).resolve_left fun mark => nomatch mark.1

theorem isBlank_of_ofChars {text : List Char} {descriptor : Descriptor}
    (described : Descriptor.ofChars .maven text = .ok descriptor) :
    ∀ c ∈ text, Text.isBlank c = false := by
  intro c member
  rcases isFieldChar_or_isDecimalDigit_of_ofChars described c member with field | digit
  · exact isBlank_of_isFieldChar field
  · exact Spelling.isBlank_of_isDecimalDigit digit

theorem trim_eq_of_ofChars {text inner : List Char} {descriptor : Descriptor}
    (around : Text.Surrounds text inner)
    (described : Descriptor.ofChars .maven inner = .ok descriptor) : Text.trim text = inner :=
  around.trim_eq (isBlank_of_ofChars described)

theorem readSide_eq_ok_iff {text : List Char} {side : Option Descriptor} :
    readSide text = .ok side ↔ IsSide text side := by
  constructor
  · intro found
    unfold readSide at found
    split at found
    · next blank =>
      cases found
      exact .blank (List.all_eq_true.mp blank)
    · obtain ⟨descriptor, described, rfl⟩ := Outcome.map_eq_ok_iff.mp found
      exact .descriptor (Text.surrounds_trim text) described
  · intro isSide
    cases isSide with
    | blank blank =>
        have none : Text.isBlankText text = true := List.all_eq_true.mpr blank
        rw [readSide, if_pos none]
    | descriptor around described =>
        obtain ⟨front, first, rest, same, -⟩ := Descriptor.exists_first_of_ofChars described
        have solid : ¬Text.isBlankText text = true := by
          obtain ⟨before, behind, -, -, rfl⟩ := around
          refine Text.not_isBlankText (c := first) (by simp [same]) ?_
          exact isBlank_of_ofChars described first (by simp [same])
        rw [readSide, if_neg solid, trim_eq_of_ofChars around described, described]
        rfl

theorem IsSide.comma_not_mem {text : List Char} {side : Option Descriptor}
    (isSide : IsSide text side) : ',' ∉ text := by
  cases isSide with
  | blank blank => exact Text.not_mem_of_isBlanks (by decide) blank
  | descriptor around described =>
      obtain ⟨before, behind, blankBefore, blankBehind, rfl⟩ := around
      simp only [List.mem_append, not_or]
      refine ⟨⟨Text.not_mem_of_isBlanks (by decide) blankBefore, fun comma => ?_⟩,
        Text.not_mem_of_isBlanks (by decide) blankBehind⟩
      rcases isFieldChar_or_isDecimalDigit_of_ofChars described ',' comma with field | digit
      · exact absurd field (by decide)
      · exact absurd digit (by decide)

end Maven

end Versioning
