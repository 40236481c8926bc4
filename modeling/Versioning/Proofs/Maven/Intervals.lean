import Versioning.Proofs.Conjunction.Interval
import Versioning.Proofs.Constraint.Parsing
import Versioning.Proofs.Constraint.Satisfaction
import Versioning.Proofs.Maven.Enclosures
import Versioning.Proofs.Version.Next

/-!
What maven restrictions admit. A restriction is kept as a half-open range, so that an exclusive
lower bound and an inclusive upper one are moved on to the next point. By precedence it says the
same as its brackets do, and it exists unless a bound cannot be moved on or no version is left.
-/

namespace Versioning

namespace Maven

/-! ### Forms -/

theorem Restriction.ofForm_eq_error {form : Form} {error : ConstraintError}
    (failed : form.range = .error error) : ofForm form = .error error := by
  unfold ofForm
  split
  · next range found => cases found.symm.trans failed
  · next other found =>
    cases found.symm.trans failed
    rfl

variable {point : Point} {lower upper : Limit} {form : Form}

def Limit.Above : Limit → Point → Prop
  | .absent, _ => True
  | .inclusive descriptor, point => descriptor.floor ≤ point
  | .exclusive descriptor, point => descriptor.floor < point

def Limit.Below : Limit → Point → Prop
  | .absent, _ => True
  | .inclusive descriptor, point => point ≤ descriptor.floor
  | .exclusive descriptor, point => point < descriptor.floor

def Form.Holds : Form → Point → Prop
  | .minimum descriptor, point => descriptor.floor ≤ point
  | .exact descriptor, point => point = descriptor.floor
  | .interval lower upper, point => lower.Above point ∧ upper.Below point

theorem Form.above_iff {start : Option Point} (found : Form.start lower = .ok start) :
    (∀ bound ∈ start, bound ≤ point) ↔ lower.Above point := by
  cases lower with
  | absent =>
      cases found
      exact iff_of_true (by simp) trivial
  | inclusive descriptor =>
      cases found
      simp [Limit.Above]
  | exclusive descriptor =>
      obtain ⟨next, following, rfl⟩ := Outcome.map_eq_ok_iff.mp found
      have moved : next ≤ point ↔ descriptor.floor < point := by
        rw [← not_lt, Point.lt_next_iff following, not_le]
      simpa [Limit.Above] using moved

theorem Form.below_iff {stop : Option Point} (found : Form.stop upper = .ok stop) :
    (∀ bound ∈ stop, point < bound) ↔ upper.Below point := by
  cases upper with
  | absent =>
      cases found
      exact iff_of_true (by simp) trivial
  | inclusive descriptor =>
      obtain ⟨next, following, rfl⟩ := Outcome.map_eq_ok_iff.mp found
      simpa [Limit.Below] using Point.lt_next_iff following
  | exclusive descriptor =>
      cases found
      simp [Limit.Below]

private theorem Form.contains_bounds_iff {range : Range}
    (found : (Form.range.bounds lower upper >>= fun (start, stop) =>
      Range.between (start.map Point.toVersion) (stop.map Point.toVersion)) = .ok range) :
    range.contains point = true ↔ lower.Above point ∧ upper.Below point := by
  obtain ⟨⟨start, stop⟩, bounds, between⟩ := Outcome.bind_eq_ok_iff.mp found
  obtain ⟨first, starts, bounds⟩ := Outcome.bind_eq_ok_iff.mp bounds
  obtain ⟨last, stops, bounds⟩ := Outcome.bind_eq_ok_iff.mp bounds
  cases Outcome.pure_eq_ok_iff.mp bounds
  obtain ⟨startEq, stopEq⟩ := Range.bounds_of_between between
  rw [Range.contains_iff, Range.floor, Range.getD_least_le_iff, startEq, stopEq,
    Form.above_iff (Outcome.mapError_eq_ok_iff.mp starts),
    Form.below_iff (Outcome.mapError_eq_ok_iff.mp stops)]

/-- The range of a form contains what the form says. -/
theorem Form.contains_iff {range : Range} (found : form.range = .ok range) :
    range.contains point = true ↔ form.Holds point := by
  cases form with
  | minimum descriptor =>
      cases found
      rw [Range.contains_iff]
      exact and_iff_left nofun
  | exact descriptor =>
      rw [contains_bounds_iff found, Holds, le_antisymm_iff, and_comm]
      exact Iff.rfl
  | interval lower upper => exact contains_bounds_iff found

/-! ### Enclosures -/

/-- Whether a point is within the lower side of an interval. Only `[` includes the least point that
the side describes. -/
def MeetsLower (opening : Char) (side : Option Descriptor) (point : Point) : Prop :=
  ∀ descriptor ∈ side, if opening = '[' then descriptor.floor ≤ point else descriptor.floor < point

def MeetsUpper (closing : Char) (side : Option Descriptor) (point : Point) : Prop :=
  ∀ descriptor ∈ side, if closing = ']' then point ≤ descriptor.floor else point < descriptor.floor

/-- What an enclosure says of a point: to be between two sides, or to be at one descriptor. -/
inductive Enclosure.Holds (enclosure : Enclosure) (point : Point) : Prop
  | interval {lower upper : List Char} {low high : Option Descriptor}
      (body : enclosure.body = lower ++ ',' :: upper)
      (isLower : IsSide lower low) (isUpper : IsSide upper high)
      (above : MeetsLower enclosure.opening low point)
      (below : MeetsUpper enclosure.closing high point)
  | exact {descriptor : Descriptor} (opening : enclosure.opening = '[')
      (closing : enclosure.closing = ']') (body : IsSide enclosure.body (some descriptor))
      (same : point = descriptor.floor)

namespace Enclosure

variable {source : String} {enclosure : Enclosure} {enclosures : List Enclosure}
  {missing : GrammarFault} {side : Option Descriptor}

theorem above_iff_of_limit {opening : Char}
    (made : limit source missing (opening == '[') side = .ok lower) :
    lower.Above point ↔ MeetsLower opening side point := by
  cases side with
  | none =>
      cases includes : opening == '[' <;> rw [includes] at made <;> cases made
      simp [Limit.Above, MeetsLower]
  | some descriptor =>
      by_cases includes : opening = '['
      · subst includes
        cases made
        simp [Limit.Above, MeetsLower]
      · rw [beq_false_of_ne includes] at made
        cases made
        simp [Limit.Above, MeetsLower, includes]

theorem below_iff_of_limit {closing : Char}
    (made : limit source missing (closing == ']') side = .ok upper) :
    upper.Below point ↔ MeetsUpper closing side point := by
  cases side with
  | none =>
      cases includes : closing == ']' <;> rw [includes] at made <;> cases made
      simp [Limit.Below, MeetsUpper]
  | some descriptor =>
      by_cases includes : closing = ']'
      · subst includes
        cases made
        simp [Limit.Below, MeetsUpper]
      · rw [beq_false_of_ne includes] at made
        cases made
        simp [Limit.Below, MeetsUpper, includes]

theorem holds_iff_of_sides {first last : List Char} {low high : Option Descriptor}
    (body : enclosure.body = first ++ ',' :: last) (isLower : IsSide first low)
    (isUpper : IsSide last high) : enclosure.Holds point ↔
      MeetsLower enclosure.opening low point ∧ MeetsUpper enclosure.closing high point := by
  constructor
  · intro holds
    cases holds with
    | @interval others further side otherSide same sideLower sideUpper above below =>
        have cut := Text.cutOnce?_append sideLower.comma_not_mem further
        rw [← same, body, Text.cutOnce?_append isLower.comma_not_mem] at cut
        cases cut
        cases (readSide_eq_ok_iff.mpr isLower).symm.trans (readSide_eq_ok_iff.mpr sideLower)
        cases (readSide_eq_ok_iff.mpr isUpper).symm.trans (readSide_eq_ok_iff.mpr sideUpper)
        exact ⟨above, below⟩
    | exact _ _ whole _ =>
        have comma := whole.comma_not_mem
        rw [body] at comma
        simp at comma
  · rintro ⟨above, below⟩
    exact .interval body isLower isUpper above below

private theorem holds_iff_of_readForm
    (found : readForm source enclosure.opening enclosure.closing enclosure.body = .ok form) :
    form.Holds point ↔ enclosure.Holds point := by
  unfold readForm at found
  split at found
  · next first last cut =>
    obtain ⟨low, readLower, found⟩ := Outcome.bind_eq_ok_iff.mp found
    obtain ⟨high, readUpper, found⟩ := Outcome.bind_eq_ok_iff.mp found
    obtain ⟨lower, limitLower, found⟩ := Outcome.bind_eq_ok_iff.mp found
    obtain ⟨upper, limitUpper, found⟩ := Outcome.bind_eq_ok_iff.mp found
    cases Outcome.pure_eq_ok_iff.mp found
    rw [holds_iff_of_sides (Text.eq_append_of_cutOnce? cut) (readSide_eq_ok_iff.mp readLower)
      (readSide_eq_ok_iff.mp readUpper), ← above_iff_of_limit limitLower,
      ← below_iff_of_limit limitUpper]
    exact Iff.rfl
  · next uncut =>
    dsimp only at found
    split at found
    · next includes =>
      obtain ⟨descriptor, described, found⟩ := Outcome.bind_eq_ok_iff.mp found
      cases Outcome.pure_eq_ok_iff.mp found
      simp only [Bool.and_eq_true, beq_iff_eq] at includes
      constructor
      · intro same
        exact .exact includes.1 includes.2 (.descriptor (Text.surrounds_trim _) described) same
      · intro holds
        cases holds with
        | interval body isLower _ _ _ =>
            rw [body, Text.cutOnce?_append isLower.comma_not_mem] at uncut
            cases uncut
        | exact _ _ body same =>
            cases body with
            | descriptor around other =>
                rw [trim_eq_of_ofChars around other] at described
                cases other.symm.trans described
                exact same
    · cases found

private theorem contains_iff_holds {restriction : Restriction}
    (found : enclosure.read source = .ok restriction) :
    restriction.range.contains point = true ↔ enclosure.Holds point := by
  obtain ⟨form, readForm, made⟩ := Outcome.bind_eq_ok_iff.mp found
  rw [Form.contains_iff restriction.range_eq, form_of_ofForm made, holds_iff_of_readForm readForm]

theorem exists_contains_iff_exists_holds {restrictions : List Restriction}
    (found : enclosures.mapM (read source) = .ok restrictions) :
    (∃ restriction ∈ restrictions, restriction.range.contains point = true) ↔
      ∃ enclosure ∈ enclosures, enclosure.Holds point := by
  have pairs := Outcome.mapM_eq_ok_iff.mp found
  clear found
  induction pairs with
  | nil => simp
  | cons first _ ih => simp only [List.mem_cons, exists_eq_or_imp, contains_iff_holds first, ih]

/-! ### Intervals with two sides -/

/-- Whether a bound of an interval would have to be the point after a release that has none. -/
def Overflows (enclosure : Enclosure) (low high : Descriptor) : Prop :=
  (enclosure.opening ≠ '[' ∧ low.floor.IsLastOfLine) ∨
    (enclosure.closing = ']' ∧ high.floor.IsLastOfLine)

def lowerLimit (enclosure : Enclosure) (low : Descriptor) : Limit :=
  if enclosure.opening == '[' then .inclusive low else .exclusive low

def upperLimit (enclosure : Enclosure) (high : Descriptor) : Limit :=
  if enclosure.closing == ']' then .inclusive high else .exclusive high

def asForm (enclosure : Enclosure) (low high : Descriptor) : Form :=
  .interval (enclosure.lowerLimit low) (enclosure.upperLimit high)

variable {first last : List Char} {low high : Descriptor}

theorem read_of_sides (body : enclosure.body = first ++ ',' :: last)
    (isLower : IsSide first (some low)) (isUpper : IsSide last (some high)) :
    enclosure.read source = Restriction.ofForm (enclosure.asForm low high) := by
  have readForm : readForm source enclosure.opening enclosure.closing enclosure.body =
      .ok (enclosure.asForm low high) := by
    rw [Maven.readForm, body, Text.cutOnce?_append isLower.comma_not_mem]
    refine Outcome.bind_eq_ok_iff.mpr ⟨_, readSide_eq_ok_iff.mpr isLower, ?_⟩
    exact Outcome.bind_eq_ok_iff.mpr ⟨_, readSide_eq_ok_iff.mpr isUpper, rfl⟩
  rw [read, readForm]
  rfl

theorem holds_iff_holds_form (body : enclosure.body = first ++ ',' :: last)
    (isLower : IsSide first (some low)) (isUpper : IsSide last (some high)) :
    enclosure.Holds point ↔ (enclosure.asForm low high).Holds point := by
  have lower : limit "" .blank (enclosure.opening == '[') (some low) =
      .ok (enclosure.lowerLimit low) := rfl
  have upper : limit "" .blank (enclosure.closing == ']') (some high) =
      .ok (enclosure.upperLimit high) := rfl
  rw [holds_iff_of_sides body isLower isUpper, ← above_iff_of_limit lower,
    ← below_iff_of_limit upper]
  exact Iff.rfl

theorem exists_start (within : ¬(enclosure.opening ≠ '[' ∧ low.floor.IsLastOfLine)) :
    ∃ start, Form.start (enclosure.lowerLimit low) = .ok (some start) := by
  by_cases includes : enclosure.opening = '['
  · exact ⟨low.floor, by simp [lowerLimit, includes, Form.start]⟩
  · obtain ⟨next, following⟩ := Point.exists_next_eq_ok fun last => within ⟨includes, last⟩
    exact ⟨next, by simp [lowerLimit, includes, Form.start, following, Except.map]⟩

private theorem exists_stop (within : ¬(enclosure.closing = ']' ∧ high.floor.IsLastOfLine)) :
    ∃ stop, Form.stop (enclosure.upperLimit high) = .ok (some stop) := by
  by_cases includes : enclosure.closing = ']'
  · obtain ⟨next, following⟩ := Point.exists_next_eq_ok fun last => within ⟨includes, last⟩
    exact ⟨next, by simp [upperLimit, includes, Form.stop, following, Except.map]⟩
  · exact ⟨high.floor, by simp [upperLimit, includes, Form.stop]⟩

theorem Overflows.range_eq (overflows : enclosure.Overflows low high) : ∃ operation,
    (enclosure.asForm low high).range = .error (.version (.componentOverflow operation)) := by
  unfold asForm Form.range Form.range.bounds
  by_cases atLower : enclosure.opening ≠ '[' ∧ low.floor.IsLastOfLine
  · obtain ⟨operation, failed⟩ := Point.exists_next_eq_error atLower.2
    exact ⟨operation, by simp [lowerLimit, atLower.1, Form.start, failed, Except.map, bind,
      Except.bind, Except.mapError]⟩
  · obtain ⟨start, starts⟩ := exists_start atLower
    obtain ⟨closes, last⟩ := overflows.resolve_left atLower
    obtain ⟨operation, failed⟩ := Point.exists_next_eq_error last
    exact ⟨operation, by simp [starts, upperLimit, closes, Form.stop, failed, Except.map, bind,
      Except.bind, Except.mapError]⟩

theorem exists_bounds (within : ¬enclosure.Overflows low high) : ∃ start stop : Point,
    (∀ point, (enclosure.asForm low high).Holds point ↔ start ≤ point ∧ point < stop) ∧
      (enclosure.asForm low high).range =
        Range.between (some start.toVersion) (some stop.toVersion) := by
  obtain ⟨atLower, atUpper⟩ := not_or.mp within
  obtain ⟨start, starts⟩ := exists_start atLower
  obtain ⟨stop, stops⟩ := exists_stop atUpper
  refine ⟨start, stop, fun point => ?_, ?_⟩
  · rw [asForm, Form.Holds, ← Form.above_iff starts, ← Form.below_iff stops]
    simp
  · unfold asForm Form.range Form.range.bounds
    simp [starts, stops, bind, Except.bind, Except.mapError, pure, Except.pure]

theorem exists_between_iff {start stop : Point} :
    (∃ version : Version, start ≤ version.toPoint ∧ version.toPoint < stop) ↔ start < stop := by
  constructor
  · rintro ⟨version, above, below⟩
    exact above.trans_lt below
  · intro ascending
    exact ⟨start.toVersion, le_refl start, ascending⟩

theorem exists_range_iff : (∃ range, (enclosure.asForm low high).range = .ok range) ↔
    ¬enclosure.Overflows low high ∧
      ∃ version : Version, (enclosure.asForm low high).Holds version.toPoint := by
  by_cases overflows : enclosure.Overflows low high
  · obtain ⟨operation, failed⟩ := overflows.range_eq
    refine iff_of_false ?_ fun kept => kept.1 overflows
    rintro ⟨range, found⟩
    cases failed.symm.trans found
  · obtain ⟨start, stop, holds, same⟩ := exists_bounds overflows
    simp only [holds, exists_between_iff, overflows, not_false_eq_true, true_and, same]
    constructor
    · rintro ⟨range, found⟩
      obtain ⟨starts, stops⟩ := Range.between_eq_ok_iff.mp found
      exact range.start_lt_stop _ starts _ stops
    · intro ascending
      exact ⟨.segment start stop ascending, Range.between_eq_ok_iff.mpr ⟨rfl, rfl⟩⟩

theorem range_eq_of_not_exists_holds (within : ¬enclosure.Overflows low high)
    (empty : ¬∃ version : Version, (enclosure.asForm low high).Holds version.toPoint) :
    ∃ start stop, (enclosure.asForm low high).range = .error (.invalidRange start stop) := by
  obtain ⟨start, stop, holds, same⟩ := exists_bounds within
  simp only [holds, exists_between_iff] at empty
  exact ⟨start.toVersion, stop.toVersion, same.trans (dif_neg empty)⟩

end Enclosure

end Maven

/-! ### Constraints -/

namespace Constraint

open Maven (Enclosure Form Restriction)

variable {source : String} {constraint : Constraint} {restrictions : List Restriction}
  {preferred : Option Version}

theorem covers_restrictions_iff
    (branches : constraint.branches =
      restrictions.map fun restriction => [.restriction restriction])
    (version : Version) : Range.Covers constraint.ranges.toList version.toPoint ↔
      ∃ restriction ∈ restrictions, restriction.range.contains version.toPoint = true := by
  rw [covers_iff, branches]
  simp [Predicate.admits, Predicate.comparators, Conjunction.admits_comparators_iff]

theorem parse_maven_eq_ok_iff : parse .maven source = .ok constraint ↔
    ∃ restrictions, Maven.read source = .ok (restrictions, constraint.preferred) ∧
      restrictions ≠ [] ∧ constraint.grammar = .maven ∧
      constraint.branches = restrictions.map fun restriction => [.restriction restriction] := by
  rw [parse_eq_ok_iff]
  constructor
  · rintro ⟨reading, found, some, branches, grammar, preferred⟩
    obtain ⟨⟨restrictions, favoured⟩, read, same⟩ := Outcome.bind_eq_ok_iff.mp found
    cases Outcome.pure_eq_ok_iff.mp same
    refine ⟨restrictions, by rw [preferred]; exact read, ?_, grammar, branches⟩
    rintro rfl
    contradiction
  · rintro ⟨restrictions, read, some, grammar, branches⟩
    refine ⟨⟨_, constraint.preferred⟩, Outcome.bind_eq_ok_iff.mpr ⟨_, read, rfl⟩, ?_, branches,
      grammar, rfl⟩
    obtain ⟨first, others, rfl⟩ := List.exists_cons_of_ne_nil some
    simp

theorem covers_iff_holds {restriction : Restriction}
    (only : constraint.branches = [[.restriction restriction]]) (point : Point) :
    Range.Covers constraint.ranges.toList point ↔ restriction.form.Holds point := by
  have alone : constraint.branches = [restriction].map fun restriction =>
      [Predicate.restriction restriction] := only
  change Range.Covers constraint.ranges.toList point.toVersion.toPoint ↔ _
  rw [covers_restrictions_iff alone, ← Form.contains_iff restriction.range_eq]
  simp only [List.mem_singleton, exists_eq_left]
  exact Iff.rfl

theorem covers_iff_holds_of_parse {form : Form} (bracketed : form.IsBracketed)
    (parsed : parse .maven form.text = .ok constraint) (point : Point) :
    Range.Covers constraint.ranges.toList point ↔ form.Holds point := by
  obtain ⟨enclosure, written, readForm⟩ := bracketed.exists_enclosure
  obtain ⟨restrictions, read, -, -, branches⟩ := parse_maven_eq_ok_iff.mp parsed
  rw [Enclosure.read_texts (List.cons_ne_nil _ _)
    (written.trans (Enclosure.texts_singleton enclosure).symm)] at read
  obtain ⟨others, each, same⟩ := Outcome.map_eq_ok_iff.mp read
  obtain ⟨rfl, -⟩ := Prod.mk.inj same
  cases Outcome.mapM_eq_ok_iff.mp each with
  | cons made none =>
      cases none
      rw [readForm] at made
      rw [covers_iff_holds branches, Maven.form_of_ofForm made]

theorem exists_parse_of_maven_read (some : restrictions ≠ [])
    (read : Maven.read source = .ok (restrictions, preferred)) :
    ∃ constraint, parse .maven source = .ok constraint := by
  obtain ⟨ranges, normal⟩ : ∃ ranges, normalize ((restrictions.map fun restriction =>
      [Predicate.restriction restriction]).map Branch.conjunction) = .ok ranges := by
    refine exists_normalize_iff.mpr fun conjunction member => ?_
    simp only [List.mem_map, exists_exists_and_eq_and] at member
    obtain ⟨restriction, -, rfl⟩ := member
    rw [Branch.conjunction, List.flatMap_singleton]
    exact Conjunction.exists_ranges_comparators restriction.range
  exact ⟨⟨_, .maven, preferred, ranges.toArray, normal⟩,
    parse_maven_eq_ok_iff.mpr ⟨restrictions, read, some, rfl, rfl⟩⟩

private theorem parse_eq_error_of_maven_read {error : ConstraintError}
    (failed : Maven.read source = .error error) : parse .maven source = .error error := by
  unfold parse Grammar.read
  rw [failed]
  rfl

/-- A single restriction makes a constraint exactly if its form has a range, and fails as this one
does. -/
theorem parse_maven_of_form {enclosure : Enclosure} {form : Maven.Form}
    (written : source.toList = enclosure.text)
    (form_read : ∀ source, enclosure.read source = Restriction.ofForm form) :
    ((∃ constraint, parse .maven source = .ok constraint) ↔ ∃ range, form.range = .ok range) ∧
      ∀ error, form.range = .error error → parse .maven source = .error error := by
  have read : Maven.read source =
      (Restriction.ofForm form).map fun restriction => ([restriction], none) := by
    rw [Enclosure.read_texts (List.cons_ne_nil _ _)
      (written.trans (Enclosure.texts_singleton enclosure).symm), List.mapM_cons, List.mapM_nil,
      form_read]
    cases Restriction.ofForm form <;> rfl
  have ofError {error : ConstraintError} (failed : form.range = .error error) :
      parse .maven source = .error error := by
    apply parse_eq_error_of_maven_read
    rw [read, Restriction.ofForm_eq_error failed]
    rfl
  refine ⟨⟨?_, ?_⟩, fun _ => ofError⟩
  · rintro ⟨constraint, parsed⟩
    cases found : form.range with
    | ok range => exact ⟨range, rfl⟩
    | error error => cases parsed.symm.trans (ofError found)
  · rintro ⟨range, found⟩
    apply exists_parse_of_maven_read (List.cons_ne_nil ⟨form, range, found⟩ [])
    rw [read, Restriction.ofForm_eq_ok ⟨form, range, found⟩]
    rfl

/-- A bracketed maven text that is read admits the versions that one of its restrictions holds for,
by precedence. A single restriction with two descriptors is read exactly if neither bound overflows
and some version is between the two; else the error says which of the two it is. -/
theorem maven_intervals (source : String) :
    (∀ constraint, parse .maven source = .ok constraint →
      source.toList.head?.any Maven.isOpening = true →
      (∃ enclosures, enclosures ≠ [] ∧ source.toList = Enclosure.texts enclosures) ∧
      ∀ enclosures, source.toList = Enclosure.texts enclosures → ∀ version : Version,
        constraint.admits true version = true ↔
          ∃ enclosure ∈ enclosures, enclosure.Holds version.toPoint) ∧
    ∀ (enclosure : Enclosure) (first last : List Char) (low high : Descriptor),
      source.toList = enclosure.text → enclosure.body = first ++ ',' :: last →
      Maven.IsSide first (some low) → Maven.IsSide last (some high) →
      ((∃ constraint, parse .maven source = .ok constraint) ↔
        ¬enclosure.Overflows low high ∧ ∃ version : Version, enclosure.Holds version.toPoint) ∧
      (enclosure.Overflows low high → ∃ operation,
        parse .maven source = .error (.version (.componentOverflow operation))) ∧
      (¬enclosure.Overflows low high → (¬∃ version : Version, enclosure.Holds version.toPoint) →
        ∃ start stop, parse .maven source = .error (.invalidRange start stop)) := by
  constructor
  · intro constraint parsed bracketed
    obtain ⟨restrictions, read, -, -, branches⟩ := parse_maven_eq_ok_iff.mp parsed
    refine ⟨Enclosure.exists_texts_of_read bracketed read, fun enclosures written version => ?_⟩
    have some : enclosures ≠ [] := by
      rintro rfl
      rw [written] at bracketed
      contradiction
    rw [Enclosure.read_texts some written] at read
    obtain ⟨others, readEach, same⟩ := Outcome.map_eq_ok_iff.mp read
    obtain ⟨rfl, -⟩ := Prod.mk.inj same
    rw [admits_including_iff, covers_restrictions_iff branches]
    exact Enclosure.exists_contains_iff_exists_holds readEach
  · intro enclosure first last low high written body isLower isUpper
    obtain ⟨exists_iff, failing⟩ := parse_maven_of_form written fun source =>
      Enclosure.read_of_sides body isLower isUpper
    simp only [Enclosure.holds_iff_holds_form body isLower isUpper]
    refine ⟨exists_iff.trans Enclosure.exists_range_iff, fun overflows => ?_,
      fun within empty => ?_⟩
    · obtain ⟨operation, failed⟩ := overflows.range_eq
      exact ⟨operation, failing _ failed⟩
    · obtain ⟨start, stop, failed⟩ := Enclosure.range_eq_of_not_exists_holds within empty
      exact ⟨start, stop, failing _ failed⟩

theorem maven_intervals_reversed :
    ∃ constraint, parse .maven "]1,2]" = .ok constraint ∧
      constraint.admits true (.release ⟨2, by decide⟩ 0 0) = true ∧
      constraint.admits true (.release 1 0 0) = false := by
  let one : Descriptor := .one (.number 1)
  let two : Descriptor := .one (.number ⟨2, by decide⟩)
  have inside : ∀ c ∈ ['1', ',', '2'], Maven.isClosing c = false :=
    fun c member => Bool.eq_false_iff.mpr (List.any_eq_false.mp rfl c member)
  let enclosure : Enclosure := ⟨']', ['1', ',', '2'], ']', rfl, inside, rfl⟩
  have isLower : Maven.IsSide ['1'] (some one) := .descriptor (.refl _) rfl
  have isUpper : Maven.IsSide ['2'] (some two) := .descriptor (.refl _) rfl
  have holds (version : Version) : enclosure.Holds version.toPoint ↔
      one.floor < version.toPoint ∧ version.toPoint ≤ two.floor :=
    Enclosure.holds_iff_holds_form rfl isLower isUpper
  obtain ⟨readings, intervals⟩ := maven_intervals "]1,2]"
  have within : ¬enclosure.Overflows one two := by
    rintro (⟨-, -, last⟩ | ⟨-, -, last⟩) <;> exact absurd last (by decide)
  obtain ⟨constraint, parsed⟩ :=
    (intervals enclosure ['1'] ['2'] one two rfl rfl isLower isUpper).1.mpr
      ⟨within, .release ⟨2, by decide⟩ 0 0, (holds _).mpr (by decide)⟩
  have admits := (readings constraint parsed rfl).2 [enclosure] rfl
  refine ⟨constraint, parsed, (admits _).mpr ?_, Bool.eq_false_iff.mpr (mt (admits _).mp ?_)⟩
  · exact ⟨enclosure, List.mem_singleton_self _, (holds _).mpr (by decide)⟩
  · simp only [List.mem_singleton, exists_eq_left, holds]
    decide

end Constraint

end Versioning
