import Versioning.Grammar
import Versioning.Proofs.Descriptor

/-!
The maven grammar. What is read in it are restrictions in brackets, or a single soft requirement,
and they are read from the text that they are written as. A restriction is written with brackets
that face it, whichever way they faced where it was read.
-/

namespace Versioning

namespace Maven

variable {source : String} {descriptor : Descriptor} {side lower upper : Limit} {form : Form}

/-! ### Texts of descriptors -/

theorem isFieldChar_of_mem_text (writable : descriptor.IsWritable .maven) :
    ∀ c ∈ descriptor.text.toList, isFieldChar c = true := by
  rw [Descriptor.toList_text]
  exact writable.permits_fields.isFieldChar

theorem trim_text (writable : descriptor.IsWritable .maven) :
    Text.trim descriptor.text.toList = descriptor.text.toList :=
  Text.trim_eq fun c member => isBlank_of_isFieldChar (isFieldChar_of_mem_text writable c member)

theorem text_ne_nil (writable : descriptor.IsWritable .maven) : descriptor.text.toList ≠ [] := by
  rw [Descriptor.toList_text]
  exact List.append_ne_nil_of_left_ne_nil writable.permits_fields.major.ne_nil _

theorem not_isBlankText_text (writable : descriptor.IsWritable .maven) :
    ¬Text.isBlankText descriptor.text.toList = true := by
  obtain ⟨c, member⟩ := List.exists_mem_of_ne_nil _ (text_ne_nil writable)
  have field := isFieldChar_of_mem_text writable c member
  exact Text.not_isBlankText member (isBlank_of_isFieldChar field)

theorem isOpening_eq_false {c : Char} (field : isFieldChar c = true) : isOpening c = false := by
  simp only [isOpening, Bool.or_eq_false_iff, beq_eq_false_iff_ne]
  exact ⟨⟨Text.ne_of_class field rfl, Text.ne_of_class field rfl⟩, Text.ne_of_class field rfl⟩

private theorem isClosing_eq_false {c : Char} (field : isFieldChar c = true) :
    isClosing c = false := by
  simp only [isClosing, Bool.or_eq_false_iff, beq_eq_false_iff_ne]
  exact ⟨⟨Text.ne_of_class field rfl, Text.ne_of_class field rfl⟩, Text.ne_of_class field rfl⟩

/-! ### Forms -/

def Limit.descriptor? : Limit → Option Descriptor
  | .absent => none
  | .inclusive descriptor => some descriptor
  | .exclusive descriptor => some descriptor

def Limit.IsWritable (side : Limit) : Prop :=
  ∀ descriptor ∈ side.descriptor?, descriptor.IsWritable .maven

theorem Limit.isWritable_absent : Limit.absent.IsWritable := by
  simp [IsWritable, descriptor?]

theorem Limit.isWritable_inclusive (writable : descriptor.IsWritable .maven) :
    (Limit.inclusive descriptor).IsWritable := by
  simpa [IsWritable, descriptor?] using writable

/-- Whether a form is written in brackets, around descriptors without wildcards and build
metadata. -/
def Form.IsBracketed : Form → Prop
  | .minimum _ => False
  | .exact descriptor => descriptor.IsWritable .maven
  | .interval lower upper => lower.IsWritable ∧ upper.IsWritable

private theorem readSide_text (writable : side.IsWritable) :
    readSide side.text.toList = .ok side.descriptor? := by
  have ofDescriptor {descriptor : Descriptor} (writable : descriptor.IsWritable .maven) :
      readSide descriptor.text.toList = .ok (some descriptor) := by
    rw [readSide, if_neg (not_isBlankText_text writable), trim_text writable, writable.ofChars_text]
    rfl
  cases side with
  | absent => rfl
  | inclusive descriptor => exact ofDescriptor (writable descriptor rfl)
  | exclusive descriptor => exact ofDescriptor (writable descriptor rfl)

private theorem limit_descriptor? (missing : GrammarFault) (side : Limit) :
    limit source missing side.isInclusive side.descriptor? = .ok side := by
  cases side <;> rfl

theorem Limit.IsWritable.isFieldChar_of_mem_text (writable : side.IsWritable) :
    ∀ c ∈ side.text.toList, isFieldChar c = true := by
  cases side with
  | absent => exact List.forall_mem_nil _
  | inclusive descriptor => exact Maven.isFieldChar_of_mem_text (writable descriptor rfl)
  | exclusive descriptor => exact Maven.isFieldChar_of_mem_text (writable descriptor rfl)

private theorem readForm_interval {opening closing : Char} (writableLower : lower.IsWritable)
    (writableUpper : upper.IsWritable) (opens : (opening == '[') = lower.isInclusive)
    (closes : (closing == ']') = upper.isInclusive) :
    readForm source opening closing (lower.text.toList ++ ',' :: upper.text.toList) =
      .ok (.interval lower upper) := by
  have noComma : ',' ∉ lower.text.toList := fun comma =>
    absurd (writableLower.isFieldChar_of_mem_text ',' comma) (by decide)
  unfold readForm
  rw [opens, closes, Text.cutOnce?_append noComma]
  refine Outcome.bind_eq_ok_iff.mpr ⟨_, readSide_text writableLower, ?_⟩
  refine Outcome.bind_eq_ok_iff.mpr ⟨_, readSide_text writableUpper, ?_⟩
  refine Outcome.bind_eq_ok_iff.mpr ⟨_, limit_descriptor? _ lower, ?_⟩
  exact Outcome.bind_eq_ok_iff.mpr ⟨_, limit_descriptor? _ upper, rfl⟩

private theorem readForm_exact (writable : descriptor.IsWritable .maven) :
    readForm source '[' ']' descriptor.text.toList = .ok (.exact descriptor) := by
  have noComma : ',' ∉ descriptor.text.toList := fun comma =>
    absurd (isFieldChar_of_mem_text writable ',' comma) (by decide)
  unfold readForm
  rw [Text.cutOnce?_eq_none noComma]
  simp only [beq_self_eq_true, Bool.and_self, if_true, trim_text writable, writable.ofChars_text]
  rfl

theorem Form.IsBracketed.exists_text (bracketed : form.IsBracketed) :
    ∃ opening body closing, form.text.toList = opening :: (body ++ [closing]) ∧
      isOpening opening = true ∧ (∀ c ∈ body, isClosing c = false) ∧ isClosing closing = true ∧
        ∀ source, readForm source opening closing body = .ok form := by
  cases form with
  | minimum descriptor => exact bracketed.elim
  | exact descriptor =>
      refine ⟨'[', descriptor.text.toList, ']', ?_, rfl, fun c member => ?_, rfl,
        fun source => readForm_exact bracketed⟩
      · simp [text]
      · exact isClosing_eq_false (isFieldChar_of_mem_text bracketed c member)
  | interval lower upper =>
      obtain ⟨writableLower, writableUpper⟩ := bracketed
      refine ⟨if lower.isInclusive then '[' else '(',
        lower.text.toList ++ ',' :: upper.text.toList,
        if upper.isInclusive then ']' else ')', ?_, ?_, ?_, ?_, fun source =>
          readForm_interval writableLower writableUpper ?_ ?_⟩
      · cases atLower : lower.isInclusive <;> cases atUpper : upper.isInclusive <;>
          simp [text, atLower, atUpper]
      · cases lower.isInclusive <;> rfl
      · intro c member
        rcases List.mem_append.mp member with atLower | behind
        · exact isClosing_eq_false (writableLower.isFieldChar_of_mem_text c atLower)
        · rcases List.mem_cons.mp behind with rfl | atUpper
          · rfl
          · exact isClosing_eq_false (writableUpper.isFieldChar_of_mem_text c atUpper)
      · cases upper.isInclusive <;> rfl
      · cases lower.isInclusive <;> rfl
      · cases upper.isInclusive <;> rfl

/-! ### Lists of restrictions -/

variable {restrictions : List Restriction} {restriction : Restriction}

theorem Restriction.ofForm_eq_ok (restriction : Restriction) :
    ofForm restriction.form = .ok restriction := by
  unfold ofForm
  split
  · next range same =>
    rw [restriction.range_eq] at same
    cases same
    rfl
  · next error failed =>
    rw [restriction.range_eq] at failed
    cases failed

theorem readRestrictions_inside {opening closing : Char} {openedAt : Nat} {later : List Char}
    {outcome : Except ConstraintError (List Restriction)} (closes : isClosing closing = true)
    {body : List Char} (inside : ∀ c ∈ body, isClosing c = false) (front : List Char)
    (behind : ∀ index, readRestrictions source .behind index later = outcome) (index : Nat) :
    readRestrictions source (.inside opening openedAt front) index (body ++ closing :: later) = do
      let form ← readForm source opening closing (front.reverse ++ body)
      let restriction ← Restriction.ofForm form
      let restrictions ← outcome
      return restriction :: restrictions := by
  -- the index moves on with each character; it is named in errors only
  induction body generalizing front index with
  | nil =>
      rw [List.nil_append, List.append_nil, readRestrictions, if_pos closes]
      simp only [behind]
  | cons c rest ih =>
      obtain ⟨first, others⟩ := List.forall_mem_cons.mp inside
      rw [List.cons_append, readRestrictions, if_neg (Bool.eq_false_iff.mp first), ih others,
        List.reverse_cons, List.append_assoc, List.singleton_append]

private theorem readRestrictions_text (bracketed : restriction.form.IsBracketed) {later : List Char}
    (behind : ∀ index, readRestrictions source .behind index later = .ok restrictions)
    (index : Nat) :
    readRestrictions source .before index (restriction.text.toList ++ later) =
      .ok (restriction :: restrictions) := by
  obtain ⟨opening, body, closing, same, opens, inside, closes, read⟩ := bracketed.exists_text
  rw [Restriction.text, same, List.cons_append, List.append_assoc, List.singleton_append,
    readRestrictions, if_pos opens, readRestrictions_inside closes inside [] behind]
  refine Outcome.bind_eq_ok_iff.mpr ⟨_, read source, ?_⟩
  exact Outcome.bind_eq_ok_iff.mpr ⟨_, restriction.ofForm_eq_ok, rfl⟩

private theorem readRestrictions_intercalate (some : restrictions ≠ [])
    (bracketed : ∀ restriction ∈ restrictions, restriction.form.IsBracketed) (index : Nat) :
    readRestrictions source .before index
      (",".intercalate (restrictions.map Restriction.text)).toList = .ok restrictions := by
  induction restrictions generalizing index with
  | nil => contradiction
  | cons restriction rest ih =>
      obtain ⟨first, others⟩ := List.forall_mem_cons.mp bracketed
      cases rest with
      | nil =>
          have read : readRestrictions source .before index (restriction.text.toList ++ []) =
              .ok [restriction] := readRestrictions_text first (fun _ => rfl) index
          simpa using read
      | cons next further =>
          rw [List.map_cons, List.map_cons, String.intercalate_cons_cons, String.toList_append,
            String.toList_append, List.append_assoc]
          refine readRestrictions_text first (fun position => ?_) index
          exact ih (List.cons_ne_nil _ _) others _

/-! ### What is read -/

private theorem isWritable_of_readSide {text : List Char} {found : Option Descriptor}
    (read : readSide text = .ok found) : ∀ descriptor ∈ found, descriptor.IsWritable .maven := by
  unfold readSide at read
  split at read
  · cases read
    simp
  · obtain ⟨descriptor, described, rfl⟩ := Outcome.map_eq_ok_iff.mp read
    rintro _ ⟨⟩
    exact Descriptor.isWritable_of_ofChars described

private theorem descriptor?_of_limit {missing : GrammarFault} {inclusive : Bool}
    {found : Option Descriptor} (made : limit source missing inclusive found = .ok side) :
    side.descriptor? = found := by
  cases found with
  | none =>
      cases inclusive <;> cases made
      rfl
  | some descriptor => cases inclusive <;> cases made <;> rfl

private theorem isBracketed_of_readForm {opening closing : Char} {body : List Char}
    (read : readForm source opening closing body = .ok form) : form.IsBracketed := by
  unfold readForm at read
  split at read
  · obtain ⟨lower, readLower, read⟩ := Outcome.bind_eq_ok_iff.mp read
    obtain ⟨upper, readUpper, read⟩ := Outcome.bind_eq_ok_iff.mp read
    obtain ⟨lowerLimit, limitLower, read⟩ := Outcome.bind_eq_ok_iff.mp read
    obtain ⟨upperLimit, limitUpper, read⟩ := Outcome.bind_eq_ok_iff.mp read
    cases Outcome.pure_eq_ok_iff.mp read
    constructor
    · rw [Limit.IsWritable, descriptor?_of_limit limitLower]
      exact isWritable_of_readSide readLower
    · rw [Limit.IsWritable, descriptor?_of_limit limitUpper]
      exact isWritable_of_readSide readUpper
  · dsimp only at read
    split at read
    · obtain ⟨descriptor, described, read⟩ := Outcome.bind_eq_ok_iff.mp read
      cases Outcome.pure_eq_ok_iff.mp read
      exact Descriptor.isWritable_of_ofChars described
    · cases read

theorem form_of_ofForm (made : Restriction.ofForm form = .ok restriction) :
    restriction.form = form := by
  unfold Restriction.ofForm at made
  split at made
  · cases made
    rfl
  · cases made

theorem isBracketed_of_readRestrictions {place : Place} {index : Nat} {text : List Char}
    (read : readRestrictions source place index text = .ok restrictions) :
    ∀ restriction ∈ restrictions, restriction.form.IsBracketed := by
  induction text generalizing place index restrictions with
  | nil =>
      cases place with
      | before => cases read
      | inside => cases read
      | behind =>
          cases read
          exact List.forall_mem_nil _
  | cons c rest ih =>
      unfold readRestrictions at read
      cases place with
      | before =>
          dsimp only at read
          split at read
          · exact ih read
          · cases read
      | inside opening openedAt body =>
          dsimp only at read
          split at read
          · obtain ⟨form, readForm, read⟩ := Outcome.bind_eq_ok_iff.mp read
            obtain ⟨restriction, made, read⟩ := Outcome.bind_eq_ok_iff.mp read
            obtain ⟨later, behind, same⟩ := Outcome.bind_eq_ok_iff.mp read
            cases Outcome.pure_eq_ok_iff.mp same
            refine List.forall_mem_cons.mpr ⟨?_, ih behind⟩
            rw [form_of_ofForm made]
            exact isBracketed_of_readForm readForm
          · exact ih read
      | behind =>
          dsimp only at read
          split at read
          · exact ih read
          · cases read

private theorem exists_cons_of_readRestrictions {index : Nat} {text : List Char}
    (read : readRestrictions source .before index text = .ok restrictions) :
    ∃ c rest, text = c :: rest ∧ isOpening c = true := by
  cases text with
  | nil => cases read
  | cons c rest =>
      unfold readRestrictions at read
      dsimp only at read
      split at read
      · next opens => exact ⟨c, rest, rfl, opens⟩
      · cases read

theorem isBlank_of_isOpening {c : Char} (opens : isOpening c = true) : Text.isBlank c = false := by
  simp only [isOpening, Bool.or_eq_true, beq_iff_eq] at opens
  rcases opens with (rfl | rfl) | rfl <;> decide

theorem read_of_bracketed (some : restrictions ≠ [])
    (bracketed : ∀ restriction ∈ restrictions, restriction.form.IsBracketed) :
    read (",".intercalate (restrictions.map Restriction.text)) = .ok (restrictions, none) := by
  unfold read
  have found (source : String) : readRestrictions source .before 0
      (",".intercalate (restrictions.map Restriction.text)).toList = .ok restrictions :=
    readRestrictions_intercalate some bracketed 0
  obtain ⟨c, rest, same, opens⟩ := exists_cons_of_readRestrictions (found "")
  have solid : ¬Text.isBlankText (c :: rest) = true :=
    Text.not_isBlankText List.mem_cons_self (isBlank_of_isOpening opens)
  dsimp only
  rw [found, same, if_neg solid, List.head?_cons, Option.any_some, if_pos opens]
  rfl

theorem read_descriptor_text (writable : descriptor.IsWritable .maven) :
    read descriptor.text = readSoftRequirement descriptor.text.toList := by
  obtain ⟨c, rest, same⟩ := List.exists_cons_of_ne_nil (text_ne_nil writable)
  have closed : isOpening c = false :=
    isOpening_eq_false (isFieldChar_of_mem_text writable c (same ▸ List.mem_cons_self))
  unfold read
  dsimp only
  rw [if_neg (not_isBlankText_text writable), same, List.head?_cons, Option.any_some, closed,
    if_neg Bool.false_ne_true]

/-- What was read from a text is read again from the text that it is written as. -/
theorem read_render (some : restrictions ≠ []) {preferred : Option Version}
    (found : read source = .ok (restrictions, preferred)) :
    read (",".intercalate (restrictions.map Restriction.text)) = .ok (restrictions, preferred) := by
  unfold read at found
  dsimp only at found
  split at found
  · cases found
  · split at found
    · obtain ⟨others, read, same⟩ := Outcome.map_eq_ok_iff.mp found
      cases same
      exact read_of_bracketed some (isBracketed_of_readRestrictions read)
    · obtain ⟨descriptor, described, found⟩ := Outcome.bind_eq_ok_iff.mp found
      obtain ⟨restriction, made, same⟩ := Outcome.bind_eq_ok_iff.mp found
      have writable : descriptor.IsWritable .maven := Descriptor.isWritable_of_ofChars described
      have form := form_of_ofForm made
      cases Outcome.pure_eq_ok_iff.mp same
      rw [List.map_singleton, String.intercalate_singleton, Restriction.text, form, Form.text,
        read_descriptor_text writable, readSoftRequirement, trim_text writable,
        writable.ofChars_text]
      exact Outcome.bind_eq_ok_iff.mpr ⟨_, rfl, Outcome.bind_eq_ok_iff.mpr ⟨_, made, rfl⟩⟩

end Maven

end Versioning
