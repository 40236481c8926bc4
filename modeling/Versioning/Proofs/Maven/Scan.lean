import Mathlib.Data.String.Basic
import Mathlib.Logic.Relation
import Versioning.Proofs.Maven.Enclosures

/-!
The scan of a bracketed maven text, one character at a time. It stops where no step leads on, which
is what its error tells. Its indices count the bytes of the text that it has come over, so wherever
it has come to, they lie between characters, and what they cut out of the source is what was read.
-/

namespace Versioning

namespace Maven

/-- A scan on its way: the place it has come to, the index in bytes of the next character, and what
remains of the source. -/
structure Scan where
  place : Place
  index : Nat
  rest : List Char

namespace Scan

variable {source : String} {scan next : Scan} {error : ConstraintError}

def start (source : String) : Scan := ⟨.before, 0, source.toList⟩

def read (source : String) (scan : Scan) : Except ConstraintError (List Restriction) :=
  readRestrictions source scan.place scan.index scan.rest

/-- How a scan goes on over one character. -/
inductive Step (source : String) : Scan → Scan → Prop
  | opening {c : Char} {index : Nat} {rest : List Char} (opens : isOpening c = true) :
      Step source ⟨.before, index, c :: rest⟩ ⟨.inside c index [], index + c.utf8Size, rest⟩
  | within {opening c : Char} {openedAt index : Nat} {body rest : List Char}
      (other : isClosing c = false) :
      Step source ⟨.inside opening openedAt body, index, c :: rest⟩
        ⟨.inside opening openedAt (c :: body), index + c.utf8Size, rest⟩
  | closing {opening c : Char} {openedAt index : Nat} {body rest : List Char}
      {restriction : Restriction} (closes : isClosing c = true)
      (found : (readForm source opening c body.reverse >>= Restriction.ofForm) = .ok restriction) :
      Step source ⟨.inside opening openedAt body, index, c :: rest⟩
        ⟨.behind, index + 1, rest⟩
  | comma {c : Char} {index : Nat} {rest : List Char} (comma : c = ',') :
      Step source ⟨.behind, index, c :: rest⟩ ⟨.before, index + 1, rest⟩

/-- Where a scan cannot go on, and what it stops with. -/
inductive Stops (source : String) : Scan → ConstraintError → Prop
  | atEnd {index : Nat} : Stops source ⟨.before, index, []⟩ (.malformed source .expectedMoreAtEnd)
  | notOpening {c : Char} {index : Nat} {rest : List Char} (other : isOpening c = false) :
      Stops source ⟨.before, index, c :: rest⟩ (.malformed source (.expectedMore c index))
  | unmatched {opening : Char} {openedAt index : Nat} {body : List Char} :
      Stops source ⟨.inside opening openedAt body, index, []⟩
        (.malformed source (.unmatchedOpening opening openedAt))
  | refused {opening c : Char} {openedAt index : Nat} {body rest : List Char}
      {error : ConstraintError} (closes : isClosing c = true)
      (failed : (readForm source opening c body.reverse >>= Restriction.ofForm) = .error error) :
      Stops source ⟨.inside opening openedAt body, index, c :: rest⟩ error
  | trailing {c : Char} {index : Nat} {rest : List Char} (other : c ≠ ',') :
      Stops source ⟨.behind, index, c :: rest⟩ (.malformed source (.trailingInput index))

def Reaches (source : String) : Scan → Scan → Prop := Relation.ReflTransGen (Step source)

/-! ### Where a scan stops -/

theorem Step.length_lt (step : Step source scan next) : next.rest.length < scan.rest.length := by
  cases step <;> simp

theorem read_closing {opening c : Char} {openedAt index : Nat} {body rest : List Char}
    (closes : isClosing c = true) :
    read source ⟨.inside opening openedAt body, index, c :: rest⟩ = do
      let restriction ← readForm source opening c body.reverse >>= Restriction.ofForm
      let restrictions ← read source ⟨.behind, index + 1, rest⟩
      return restriction :: restrictions := by
  rw [read, readRestrictions, if_pos closes, bind_assoc]
  rfl

theorem Step.read_eq_error_iff (step : Step source scan next) :
    read source scan = .error error ↔ read source next = .error error := by
  cases step with
  | opening opens => rw [read, readRestrictions, if_pos opens, read]
  | within other => rw [read, readRestrictions, if_neg (Bool.eq_false_iff.mp other), read]
  | closing closes found =>
      have later (outcome : Except ConstraintError (List Restriction)) (first : Restriction) :
          (outcome >>= fun others => pure (first :: others)) = .error error ↔
            outcome = .error error := by
        cases outcome <;> simp [bind, Except.bind, pure, Except.pure]
      rw [read_closing closes, found]
      exact later _ _
  | comma comma => rw [read, readRestrictions, if_pos (beq_iff_eq.mpr comma), read]

private theorem Stops.read_eq_error (stops : Stops source scan error) :
    read source scan = .error error := by
  cases stops with
  | atEnd => rfl
  | notOpening other => rw [read, readRestrictions, if_neg (Bool.eq_false_iff.mp other)]
  | unmatched => rfl
  | refused closes failed =>
      rw [read_closing closes, failed]
      rfl
  | trailing other => rw [read, readRestrictions, if_neg (mt beq_iff_eq.mp other)]

/-- A scan goes on, or it stops with an error, or it is through. -/
theorem step_or_stops (source : String) (scan : Scan) :
    (∃ next, Step source scan next) ∨ (∃ error, Stops source scan error) ∨
      scan.place = .behind ∧ scan.rest = [] := by
  obtain ⟨place, index, rest⟩ := scan
  cases place with
  | before =>
      cases rest with
      | nil => exact .inr (.inl ⟨_, .atEnd⟩)
      | cons c rest =>
          cases opens : isOpening c with
          | true => exact .inl ⟨_, .opening opens⟩
          | false => exact .inr (.inl ⟨_, .notOpening opens⟩)
  | inside opening openedAt body =>
      cases rest with
      | nil => exact .inr (.inl ⟨_, .unmatched⟩)
      | cons c rest =>
          cases closes : isClosing c with
          | false => exact .inl ⟨_, .within closes⟩
          | true =>
              cases found : readForm source opening c body.reverse >>= Restriction.ofForm with
              | ok restriction => exact .inl ⟨_, .closing closes found⟩
              | error error => exact .inr (.inl ⟨_, .refused closes found⟩)
  | behind =>
      cases rest with
      | nil => exact .inr (.inr ⟨rfl, rfl⟩)
      | cons c rest =>
          by_cases comma : c = ','
          · exact .inl ⟨_, .comma comma⟩
          · exact .inr (.inl ⟨_, .trailing comma⟩)

/-- A scan ends with an error exactly if it comes to where it stops with that error. -/
theorem read_eq_error_iff : read source scan = .error error ↔
    ∃ last, Reaches source scan last ∧ Stops source last error := by
  constructor
  · intro failed
    induction remaining : scan.rest.length using Nat.strongRecOn generalizing scan with
    | ind remaining ih =>
        rcases step_or_stops source scan with ⟨next, step⟩ | ⟨other, stops⟩ | ⟨place, rest⟩
        · obtain ⟨last, reaches, stops⟩ := ih next.rest.length
            (remaining ▸ step.length_lt) (step.read_eq_error_iff.mp failed) rfl
          exact ⟨last, .head step reaches, stops⟩
        · cases stops.read_eq_error.symm.trans failed
          exact ⟨scan, .refl, stops⟩
        · rw [read, place, rest] at failed
          cases failed
  · rintro ⟨last, reaches, stops⟩
    induction reaches using Relation.ReflTransGen.head_induction_on with
    | refl => exact stops.read_eq_error
    | head step _ ih => exact step.read_eq_error_iff.mpr ih

/-! ### What the indices say -/

/-- Whether two indices lie between characters of a source, with some text between them. -/
structure IsSlice (source : String) (first last : Nat) (text : List Char) : Prop where
  validFirst : String.Pos.Raw.IsValid source ⟨first⟩
  validLast : String.Pos.Raw.IsValid source ⟨last⟩
  extract : String.Pos.Raw.extract source ⟨first⟩ ⟨last⟩ = String.ofList text

theorem isSlice_of_eq_append {front text back : List Char}
    (cut : source.toList = front ++ text ++ back) :
    IsSlice source (String.utf8Len front) (String.utf8Len front + String.utf8Len text) text := by
  have same : source = String.ofList (front ++ text ++ back) := by
    rw [← cut, String.ofList_toList]
  have valid {first last : List Char} (joined : front ++ text ++ back = first ++ last) :
      String.Pos.Raw.IsValid source ⟨String.utf8Len first⟩ := by
    refine String.Pos.Raw.isValid_iff_exists_append.mpr
      ⟨String.ofList first, String.ofList last, ?_, ?_⟩
    · rw [same, joined, String.ofList_append]
    · rw [String.rawEndPos_ofList]
  refine ⟨valid (List.append_assoc _ _ _), ?_, ?_⟩
  · rw [← String.utf8Len_append]
    exact valid rfl
  · rw [same]
    exact String.extract_of_valid front text back

/-- Whether the indices of a scan count the bytes of the text in front of what they point at. -/
def IsPlaced (source : String) (scan : Scan) : Prop :=
  match scan.place with
  | .inside opening openedAt body => ∃ front,
      source.toList = front ++ opening :: (body.reverse ++ scan.rest) ∧
        openedAt = String.utf8Len front ∧
        scan.index = openedAt + opening.utf8Size + String.utf8Len body
  | _ => ∃ front, source.toList = front ++ scan.rest ∧ scan.index = String.utf8Len front

private theorem isPlaced_start (source : String) : IsPlaced source (start source) := ⟨[], rfl, rfl⟩

private theorem utf8Size_of_isClosing {c : Char} (closes : isClosing c = true) :
    c.utf8Size = 1 := by
  simp only [isClosing, Bool.or_eq_true, beq_iff_eq] at closes
  rcases closes with (same | same) | same
  · subst same
    rfl
  · subst same
    rfl
  · subst same
    rfl

/-- With each character the index moves on by the bytes of the character: a closing character and
a comma have one byte each. -/
theorem Step.isPlaced (step : Step source scan next) (placed : IsPlaced source scan) :
    IsPlaced source next := by
  cases step with
  | @opening c index rest opens =>
      obtain ⟨front, cut, same⟩ := placed
      exact ⟨front, cut, same, rfl⟩
  | @within opening c openedAt index body rest other =>
      obtain ⟨front, cut, opened, same⟩ := placed
      dsimp only at cut same
      refine ⟨front, by simpa using cut, opened, ?_⟩
      dsimp only
      rw [String.utf8Len_cons]
      omega
  | @closing opening c openedAt index body rest restriction closes found =>
      obtain ⟨front, cut, opened, same⟩ := placed
      dsimp only at cut same
      refine ⟨front ++ opening :: (body.reverse ++ [c]), by simpa using cut, ?_⟩
      simp only [String.utf8Len_append, String.utf8Len_cons, String.utf8Len_nil,
        String.utf8Len_reverse, utf8Size_of_isClosing closes]
      omega
  | @comma c index rest comma =>
      obtain ⟨front, cut, same⟩ := placed
      dsimp only at cut same
      subst comma
      refine ⟨front ++ [','], by simpa using cut, ?_⟩
      rw [String.utf8Len_append, same]
      rfl

theorem isPlaced_of_reaches (reaches : Reaches source (start source) scan) :
    IsPlaced source scan := by
  induction reaches with
  | refl => exact isPlaced_start source
  | tail _ step ih => exact step.isPlaced ih

private theorem IsPlaced.exists_front (placed : IsPlaced source scan) :
    ∃ front, source.toList = front ++ scan.rest ∧ scan.index = String.utf8Len front := by
  obtain ⟨place, index, rest⟩ := scan
  cases place with
  | inside opening openedAt body =>
      obtain ⟨front, cut, opened, same⟩ := placed
      dsimp only at cut same
      refine ⟨front ++ opening :: body.reverse, by simpa using cut, ?_⟩
      simp only [String.utf8Len_append, String.utf8Len_cons, String.utf8Len_reverse]
      omega
  | before => exact placed
  | behind => exact placed

theorem isSlice_rest (reaches : Reaches source (start source) scan) :
    IsSlice source scan.index source.utf8ByteSize scan.rest := by
  obtain ⟨front, cut, same⟩ := (isPlaced_of_reaches reaches).exists_front
  have size : source.utf8ByteSize = scan.index + String.utf8Len scan.rest := by
    rw [← String.utf8Len_toList, cut, String.utf8Len_append, same]
  rw [size, same]
  exact isSlice_of_eq_append (by rw [cut, List.append_nil])

theorem isSlice_body {opening : Char} {openedAt index : Nat} {body rest : List Char}
    (reaches : Reaches source (start source) ⟨.inside opening openedAt body, index, rest⟩) :
    IsSlice source openedAt index (opening :: body.reverse) ∧
      IsSlice source (openedAt + opening.utf8Size) index body.reverse := by
  obtain ⟨front, cut, opened, same⟩ := isPlaced_of_reaches reaches
  dsimp only at cut same
  constructor
  · have last : index = String.utf8Len front + String.utf8Len (opening :: body.reverse) := by
      rw [String.utf8Len_cons, String.utf8Len_reverse]
      omega
    rw [opened, last]
    exact isSlice_of_eq_append (by simpa using cut)
  · have first : openedAt + opening.utf8Size = String.utf8Len (front ++ [opening]) := by
      rw [opened, String.utf8Len_append, String.utf8Len_cons, String.utf8Len_nil, Nat.zero_add]
    have last : index = String.utf8Len (front ++ [opening]) + String.utf8Len body.reverse := by
      rw [← first, String.utf8Len_reverse, same]
    rw [first, last]
    exact isSlice_of_eq_append (by simpa using cut)

end Scan

end Maven

end Versioning
