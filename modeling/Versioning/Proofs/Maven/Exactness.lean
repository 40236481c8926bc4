import Versioning.Proofs.Maven.Intervals
import Versioning.Proofs.Maven.Scan

/-!
The texts that the maven grammar accepts, and no others: a descriptor between blanks, or enclosures
with commas between them, each of which is written for a form that has a range.
-/

namespace Versioning

namespace Maven

variable {source : String} {form : Form} {lower upper : Limit}

/-! ### Forms that have a range -/

def Limit.Starts : Limit → Prop
  | .exclusive descriptor => ∃ next, descriptor.floor.next = .ok next
  | _ => True

def Limit.Stops : Limit → Prop
  | .inclusive descriptor => ∃ next, descriptor.floor.next = .ok next
  | _ => True

/-- Whether a form has a range: its bounds exist, and if there are two of them, so does a version
between them. -/
def Form.IsValid : Form → Prop
  | .minimum _ => True
  | .exact descriptor => ∃ next, descriptor.floor.next = .ok next
  | .interval lower upper => lower.Starts ∧ upper.Stops ∧
      (lower ≠ .absent → upper ≠ .absent →
        ∃ version : Version, lower.Above version.toPoint ∧ upper.Below version.toPoint)

private theorem Limit.exists_start_iff :
    (∃ start, Form.start lower = .ok start) ↔ lower.Starts := by
  cases lower with
  | exclusive descriptor =>
      simp only [Form.start, Outcome.map_eq_ok_iff, Limit.Starts]
      constructor
      · rintro ⟨_, next, found, -⟩
        exact ⟨next, found⟩
      · rintro ⟨next, found⟩
        exact ⟨_, next, found, rfl⟩
  | _ => exact iff_of_true ⟨_, rfl⟩ trivial

private theorem Limit.exists_stop_iff : (∃ stop, Form.stop upper = .ok stop) ↔ upper.Stops := by
  cases upper with
  | inclusive descriptor =>
      simp only [Form.stop, Outcome.map_eq_ok_iff, Limit.Stops]
      constructor
      · rintro ⟨_, next, found, -⟩
        exact ⟨next, found⟩
      · rintro ⟨next, found⟩
        exact ⟨_, next, found, rfl⟩
  | _ => exact iff_of_true ⟨_, rfl⟩ trivial

private theorem Limit.isSome_start {start : Option Point} (found : Form.start lower = .ok start) :
    start.isSome = true ↔ lower ≠ .absent := by
  cases lower with
  | absent =>
      cases found
      simp
  | inclusive descriptor =>
      cases found
      simp
  | exclusive descriptor =>
      obtain ⟨next, -, rfl⟩ := Outcome.map_eq_ok_iff.mp found
      simp

private theorem Limit.isSome_stop {stop : Option Point} (found : Form.stop upper = .ok stop) :
    stop.isSome = true ↔ upper ≠ .absent := by
  cases upper with
  | absent =>
      cases found
      simp
  | inclusive descriptor =>
      obtain ⟨next, -, rfl⟩ := Outcome.map_eq_ok_iff.mp found
      simp
  | exclusive descriptor =>
      cases found
      simp

private theorem Form.exists_range_bounds_iff :
    (∃ range, (Form.range.bounds lower upper >>= fun (start, stop) =>
        Range.between (start.map Point.toVersion) (stop.map Point.toVersion)) = .ok range) ↔
      (Form.interval lower upper).IsValid := by
  constructor
  · rintro ⟨range, found⟩
    obtain ⟨⟨start, stop⟩, bounds, between⟩ := Outcome.bind_eq_ok_iff.mp found
    obtain ⟨first, starts, bounds⟩ := Outcome.bind_eq_ok_iff.mp bounds
    obtain ⟨last, stops, bounds⟩ := Outcome.bind_eq_ok_iff.mp bounds
    cases Outcome.pure_eq_ok_iff.mp bounds
    have starts := Outcome.mapError_eq_ok_iff.mp starts
    have stops := Outcome.mapError_eq_ok_iff.mp stops
    obtain ⟨rfl, rfl⟩ := Range.bounds_of_between between
    refine ⟨Limit.exists_start_iff.mp ⟨_, starts⟩, Limit.exists_stop_iff.mp ⟨_, stops⟩, ?_⟩
    -- the least version of the range is between the bounds
    intro atLower _
    obtain ⟨least, isStart⟩ :=
      Option.isSome_iff_exists.mp ((Limit.isSome_start starts).mpr atLower)
    refine ⟨least.toVersion, (Form.above_iff starts).mp ?_, (Form.below_iff stops).mp ?_⟩
    · intro bound member
      rw [isStart] at member
      cases member
      exact le_refl least
    · exact range.start_lt_stop least isStart
  · rintro ⟨starts, stops, between⟩
    obtain ⟨start, starts⟩ := Limit.exists_start_iff.mpr starts
    obtain ⟨stop, stops⟩ := Limit.exists_stop_iff.mpr stops
    have ascending : ∀ least ∈ start, ∀ last ∈ stop, least < last := by
      rintro least rfl last rfl
      obtain ⟨version, above, below⟩ :=
        between ((Limit.isSome_start starts).mp rfl) ((Limit.isSome_stop stops).mp rfl)
      have fromStart := (Form.above_iff starts).mpr above least rfl
      exact fromStart.trans_lt ((Form.below_iff stops).mpr below last rfl)
    refine ⟨⟨start, stop, ascending⟩, Outcome.bind_eq_ok_iff.mpr ⟨(start, stop), ?_, ?_⟩⟩
    · refine Outcome.bind_eq_ok_iff.mpr ⟨start, Outcome.mapError_eq_ok_iff.mpr starts, ?_⟩
      exact Outcome.bind_eq_ok_iff.mpr ⟨stop, Outcome.mapError_eq_ok_iff.mpr stops, rfl⟩
    · refine Range.between_eq_ok_iff.mpr ⟨?_, ?_⟩ <;> simp [Function.comp_def, Point.toVersion]

private theorem Form.exists_range_iff : (∃ range, form.range = .ok range) ↔ form.IsValid := by
  cases form with
  | minimum descriptor => exact iff_of_true ⟨_, rfl⟩ trivial
  | interval lower upper => exact exists_range_bounds_iff
  | exact descriptor =>
      refine exists_range_bounds_iff.trans ⟨fun valid => valid.2.1, fun next => ?_⟩
      exact ⟨trivial, next, fun _ _ => ⟨descriptor.floor.toVersion, le_refl _, le_refl _⟩⟩

theorem Restriction.ofForm_eq_ok_iff {restriction : Restriction} :
    ofForm form = .ok restriction ↔ restriction.form = form := by
  constructor
  · exact form_of_ofForm
  · rintro rfl
    exact restriction.ofForm_eq_ok

private theorem Form.exists_restriction_iff :
    (∃ restriction : Restriction, restriction.form = form) ↔ form.IsValid := by
  rw [← exists_range_iff]
  constructor
  · rintro ⟨restriction, rfl⟩
    exact ⟨restriction.range, restriction.range_eq⟩
  · rintro ⟨range, same⟩
    exact ⟨⟨form, range, same⟩, rfl⟩

/-! ### Enclosures and their forms -/

namespace Enclosure

variable {enclosure : Enclosure} {enclosures : List Enclosure} {missing : GrammarFault}
  {side : Option Descriptor} {restriction : Restriction} {restrictions : List Restriction}

def lowerSide (enclosure : Enclosure) (side : Option Descriptor) : Limit :=
  side.elim .absent enclosure.lowerLimit

def upperSide (enclosure : Enclosure) (side : Option Descriptor) : Limit :=
  side.elim .absent enclosure.upperLimit

/-- What an enclosure is written for: an interval between two sides, of which one may be blank if no
bracket includes it, or a single version in brackets that both include it. -/
inductive IsWrittenFor (enclosure : Enclosure) : Form → Prop
  | interval {first last : List Char} {low high : Option Descriptor}
      (body : enclosure.body = first ++ ',' :: last)
      (isLower : IsSide first low) (isUpper : IsSide last high)
      (lowerOpen : low = none → enclosure.opening ≠ '[')
      (upperOpen : high = none → enclosure.closing ≠ ']') :
      enclosure.IsWrittenFor (.interval (enclosure.lowerSide low) (enclosure.upperSide high))
  | exact {descriptor : Descriptor} (opening : enclosure.opening = '[')
      (closing : enclosure.closing = ']') (body : IsSide enclosure.body (some descriptor)) :
      enclosure.IsWrittenFor (.exact descriptor)

private theorem limit_lower_eq_ok_iff :
    limit source missing (enclosure.opening == '[') side = .ok lower ↔
    (side = none → enclosure.opening ≠ '[') ∧ enclosure.lowerSide side = lower := by
  by_cases includes : enclosure.opening = '[' <;> cases side <;>
    simp [limit, lowerSide, lowerLimit, includes]

private theorem limit_upper_eq_ok_iff :
    limit source missing (enclosure.closing == ']') side = .ok upper ↔
    (side = none → enclosure.closing ≠ ']') ∧ enclosure.upperSide side = upper := by
  by_cases includes : enclosure.closing = ']' <;> cases side <;>
    simp [limit, upperSide, upperLimit, includes]

private theorem readForm_eq_ok_iff :
    readForm source enclosure.opening enclosure.closing enclosure.body = .ok form ↔
      enclosure.IsWrittenFor form := by
  constructor
  · intro found
    unfold readForm at found
    split at found
    · next first last cut =>
      obtain ⟨low, readLower, found⟩ := Outcome.bind_eq_ok_iff.mp found
      obtain ⟨high, readUpper, found⟩ := Outcome.bind_eq_ok_iff.mp found
      obtain ⟨lower, limitLower, found⟩ := Outcome.bind_eq_ok_iff.mp found
      obtain ⟨upper, limitUpper, found⟩ := Outcome.bind_eq_ok_iff.mp found
      cases Outcome.pure_eq_ok_iff.mp found
      obtain ⟨lowerOpen, rfl⟩ := limit_lower_eq_ok_iff.mp limitLower
      obtain ⟨upperOpen, rfl⟩ := limit_upper_eq_ok_iff.mp limitUpper
      exact .interval (Text.eq_append_of_cutOnce? cut) (readSide_eq_ok_iff.mp readLower)
        (readSide_eq_ok_iff.mp readUpper) lowerOpen upperOpen
    · dsimp only at found
      split at found
      · next includes =>
        obtain ⟨descriptor, described, found⟩ := Outcome.bind_eq_ok_iff.mp found
        cases Outcome.pure_eq_ok_iff.mp found
        simp only [Bool.and_eq_true, beq_iff_eq] at includes
        exact .exact includes.1 includes.2 (.descriptor (Text.surrounds_trim _) described)
      · cases found
  · intro written
    unfold readForm
    cases written with
    | interval body isLower isUpper lowerOpen upperOpen =>
        rw [body, Text.cutOnce?_append isLower.comma_not_mem]
        refine Outcome.bind_eq_ok_iff.mpr ⟨_, readSide_eq_ok_iff.mpr isLower, ?_⟩
        refine Outcome.bind_eq_ok_iff.mpr ⟨_, readSide_eq_ok_iff.mpr isUpper, ?_⟩
        refine Outcome.bind_eq_ok_iff.mpr ⟨_, limit_lower_eq_ok_iff.mpr ⟨lowerOpen, rfl⟩, ?_⟩
        exact Outcome.bind_eq_ok_iff.mpr ⟨_, limit_upper_eq_ok_iff.mpr ⟨upperOpen, rfl⟩, rfl⟩
    | exact opening closing body =>
        rw [Text.cutOnce?_eq_none body.comma_not_mem, opening, closing]
        cases body with
        | descriptor around described =>
            simp only [beq_self_eq_true, Bool.and_self, if_true]
            rw [trim_eq_of_ofChars around described, described]
            rfl

theorem read_eq_ok_iff :
    enclosure.read source = .ok restriction ↔ enclosure.IsWrittenFor restriction.form := by
  rw [read, Outcome.bind_eq_ok_iff]
  simp only [Restriction.ofForm_eq_ok_iff, readForm_eq_ok_iff, exists_eq_right']

end Enclosure

/-! ### Soft requirements -/

private theorem isOpening_eq_false_of_ofChars {text : List Char} {descriptor : Descriptor}
    (described : Descriptor.ofChars .maven (Text.trim text) = .ok descriptor) :
    ∀ c ∈ text, isOpening c = false := by
  obtain ⟨front, back, blankFront, blankBack, cut⟩ := Text.surrounds_trim text
  have blank {c : Char} (blank : Text.isBlank c = true) : isOpening c = false := by
    rw [← Bool.not_eq_true]
    intro opens
    rw [isBlank_of_isOpening opens] at blank
    contradiction
  intro c member
  rw [cut, List.mem_append, List.mem_append] at member
  rcases member with (before | inside) | behind
  · exact blank (blankFront c before)
  · rcases isFieldChar_or_isDecimalDigit_of_ofChars described c inside with field | digit
    · exact isOpening_eq_false field
    · simp only [isOpening, Bool.or_eq_false_iff, beq_eq_false_iff_ne]
      exact ⟨⟨Text.ne_of_class digit rfl, Text.ne_of_class digit rfl⟩, Text.ne_of_class digit rfl⟩
  · exact blank (blankBack c behind)

private theorem read_of_ofChars {descriptor : Descriptor}
    (described : Descriptor.ofChars .maven (Text.trim source.toList) = .ok descriptor) :
    read source = readSoftRequirement source.toList := by
  have bare : ¬source.toList.head?.any isOpening = true := by
    rw [Option.any_eq_true]
    rintro ⟨c, first, opens⟩
    have other := isOpening_eq_false_of_ofChars described c (List.mem_of_mem_head? first)
    rw [opens] at other
    contradiction
  have solid : ¬Text.isBlankText source.toList = true := by
    intro blank
    have nothing : IsSide source.toList none := .blank (List.all_eq_true.mp blank)
    have something : IsSide source.toList (some descriptor) :=
      .descriptor (Text.surrounds_trim _) described
    cases (readSide_eq_ok_iff.mpr nothing).symm.trans (readSide_eq_ok_iff.mpr something)
  unfold read
  dsimp only
  rw [if_neg solid, if_neg bare]

/-! ### Texts and readings -/

/-- What a text is read as. A descriptor between blanks asks for at least its version, which is
preferred. Enclosures make one alternative each, and none of them is preferred. -/
inductive IsReadAs (source : String) : Reading → Prop
  | soft {descriptor : Descriptor} {restriction : Restriction}
      (described : Descriptor.ofChars .maven (Text.trim source.toList) = .ok descriptor)
      (form : restriction.form = .minimum descriptor) :
      IsReadAs source ⟨[[.restriction restriction]], some descriptor.floor.toVersion⟩
  | list {enclosures : List Enclosure} {restrictions : List Restriction} (some : enclosures ≠ [])
      (written : source.toList = Enclosure.texts enclosures)
      (each : List.Forall₂ (fun enclosure restriction => enclosure.IsWrittenFor restriction.form)
        enclosures restrictions) :
      IsReadAs source ⟨restrictions.map fun restriction => [.restriction restriction], none⟩

theorem mapM_read_eq_ok_iff {enclosures : List Enclosure} {restrictions : List Restriction} :
    enclosures.mapM (Enclosure.read source) = .ok restrictions ↔
      List.Forall₂ (fun enclosure restriction => enclosure.IsWrittenFor restriction.form)
        enclosures restrictions := by
  simp only [Outcome.mapM_eq_ok_iff, Enclosure.read_eq_ok_iff]

private theorem read_maven_eq_ok_iff {reading : Reading} :
    Grammar.maven.read source = .ok reading ↔ IsReadAs source reading := by
  constructor
  · intro found
    obtain ⟨⟨restrictions, preferred⟩, read, same⟩ := Outcome.bind_eq_ok_iff.mp found
    cases Outcome.pure_eq_ok_iff.mp same
    by_cases bracketed : source.toList.head?.any isOpening = true
    · obtain ⟨enclosures, some, written⟩ := Enclosure.exists_texts_of_read bracketed read
      rw [Enclosure.read_texts some written] at read
      obtain ⟨others, each, same⟩ := Outcome.map_eq_ok_iff.mp read
      cases same
      exact .list some written (mapM_read_eq_ok_iff.mp each)
    · unfold Maven.read at read
      dsimp only at read
      rw [if_neg bracketed] at read
      split at read
      · cases read
      · obtain ⟨descriptor, described, read⟩ := Outcome.bind_eq_ok_iff.mp read
        obtain ⟨restriction, made, same⟩ := Outcome.bind_eq_ok_iff.mp read
        cases Outcome.pure_eq_ok_iff.mp same
        exact .soft described (form_of_ofForm made)
  · intro readAs
    cases readAs with
    | @soft descriptor restriction described form =>
        refine Outcome.bind_eq_ok_iff.mpr
          ⟨([restriction], some descriptor.floor.toVersion), ?_, rfl⟩
        rw [read_of_ofChars described]
        refine Outcome.bind_eq_ok_iff.mpr ⟨descriptor, described, ?_⟩
        exact Outcome.bind_eq_ok_iff.mpr
          ⟨restriction, Restriction.ofForm_eq_ok_iff.mpr form, rfl⟩
    | @list enclosures restrictions some written each =>
        refine Outcome.bind_eq_ok_iff.mpr ⟨(restrictions, none), ?_, rfl⟩
        rw [Enclosure.read_texts some written, mapM_read_eq_ok_iff.mpr each]
        rfl

private theorem exists_isReadAs_iff : (∃ reading, IsReadAs source reading) ↔
    (∃ descriptor, Descriptor.ofChars .maven (Text.trim source.toList) = .ok descriptor) ∨
      ∃ enclosures, enclosures ≠ [] ∧ source.toList = Enclosure.texts enclosures ∧
        ∀ enclosure ∈ enclosures, ∃ form, enclosure.IsWrittenFor form ∧ form.IsValid := by
  have readable {enclosure : Enclosure} :
      (∃ form, enclosure.IsWrittenFor form ∧ form.IsValid) ↔
        ∃ restriction, enclosure.read source = .ok restriction := by
    simp only [← Form.exists_restriction_iff, Enclosure.read_eq_ok_iff]
    constructor
    · rintro ⟨_, written, restriction, rfl⟩
      exact ⟨restriction, written⟩
    · rintro ⟨restriction, written⟩
      exact ⟨_, written, restriction, rfl⟩
  simp only [readable, ← Outcome.exists_mapM_eq_ok_iff]
  constructor
  · rintro ⟨reading, readAs⟩
    cases readAs with
    | soft described _ => exact .inl ⟨_, described⟩
    | list some written each => exact .inr ⟨_, some, written, _, mapM_read_eq_ok_iff.mpr each⟩
  · rintro (⟨descriptor, described⟩ | ⟨enclosures, some, written, restrictions, each⟩)
    · obtain ⟨restriction, form⟩ := Form.exists_restriction_iff.mpr
        (show (Form.minimum descriptor).IsValid from trivial)
      exact ⟨_, .soft described form⟩
    · exact ⟨_, .list some written (mapM_read_eq_ok_iff.mp each)⟩

/-- The maven grammar accepts a descriptor between blanks, and non-empty lists of enclosures with a
comma between any two and nothing else around them, each of which is written for a form that has a
range. It makes one alternative of each enclosure, in order, and prefers a version only if it was
given a descriptor alone. In brackets it scans the text once, with less and less remaining, and the
error is that of the place where it cannot go on. All indices lie between characters, and what they
cut out is what was scanned. -/
theorem read_is_exact (source : String) :
    ((∃ reading, Grammar.maven.read source = .ok reading) ↔
      (∃ descriptor, Descriptor.ofChars .maven (Text.trim source.toList) = .ok descriptor) ∨
        ∃ enclosures, enclosures ≠ [] ∧ source.toList = Enclosure.texts enclosures ∧
          ∀ enclosure ∈ enclosures, ∃ form, enclosure.IsWrittenFor form ∧ form.IsValid) ∧
    (∀ reading, Grammar.maven.read source = .ok reading ↔ IsReadAs source reading) ∧
    (∀ error, readRestrictions source .before 0 source.toList = .error error ↔
      ∃ last, Scan.Reaches source (.start source) last ∧ Scan.Stops source last error) ∧
    (∀ scan next, Scan.Step source scan next → next.rest.length < scan.rest.length) ∧
    ∀ scan, Scan.Reaches source (.start source) scan →
      Scan.IsSlice source scan.index source.utf8ByteSize scan.rest ∧
      ∀ opening openedAt body, scan.place = .inside opening openedAt body →
        Scan.IsSlice source openedAt scan.index (opening :: body.reverse) ∧
        Scan.IsSlice source (openedAt + opening.utf8Size) scan.index body.reverse := by
  have stops (error : ConstraintError) : (Scan.start source).read source = .error error ↔
      ∃ last, Scan.Reaches source (.start source) last ∧ Scan.Stops source last error :=
    Scan.read_eq_error_iff
  refine ⟨?_, fun reading => read_maven_eq_ok_iff, stops, fun scan next step => step.length_lt,
    fun scan reaches => ⟨Scan.isSlice_rest reaches, ?_⟩⟩
  · simp only [read_maven_eq_ok_iff]
    exact exists_isReadAs_iff
  · intro opening openedAt body inside
    obtain ⟨place, index, rest⟩ := scan
    cases inside
    exact Scan.isSlice_body reaches

theorem read_is_exact_wide_blank :
    ∃ reading, Grammar.maven.read "[1,\u30002),]3,)" = .ok reading := by
  let one : Descriptor := .one (.number 1)
  let two : Descriptor := .one (.number ⟨2, by decide⟩)
  let three : Descriptor := .one (.number ⟨3, by decide⟩)
  let closed : Enclosure := ⟨'[', ['1', ',', '\u3000', '2'], ')', rfl, by simp [isClosing], rfl⟩
  let facing : Enclosure := ⟨']', ['3', ','], ')', rfl, by simp [isClosing], rfl⟩
  have wide : Text.Surrounds ['\u3000', '2'] ['2'] :=
    ⟨['\u3000'], [], List.forall_mem_singleton.mpr rfl, Text.isBlanks_nil, rfl⟩
  have isOne : IsSide ['1'] (some one) := .descriptor (.refl _) rfl
  have isTwo : IsSide ['\u3000', '2'] (some two) := .descriptor wide rfl
  have isThree : IsSide ['3'] (some three) := .descriptor (.refl _) rfl
  have forClosed : closed.IsWrittenFor (.interval (.inclusive one) (.exclusive two)) :=
    .interval rfl isOne isTwo (by simp) (by simp)
  have forFacing : facing.IsWrittenFor (.interval (.exclusive three) .absent) :=
    .interval rfl isThree (.blank Text.isBlanks_nil) (by simp) (fun _ => by decide)
  have between : ∃ version : Version, one.floor ≤ version.toPoint ∧ version.toPoint < two.floor :=
    ⟨.release 1 0 0, by decide, by decide⟩
  refine (read_is_exact _).1.mpr (.inr ⟨[closed, facing], List.cons_ne_nil _ _, rfl, ?_⟩)
  refine List.forall_mem_cons.mpr ⟨?_, List.forall_mem_singleton.mpr ?_⟩
  · exact ⟨_, forClosed, trivial, trivial, fun _ _ => between⟩
  · exact ⟨_, forFacing, ⟨_, rfl⟩, trivial, fun _ limited => absurd rfl limited⟩

end Maven

end Versioning
