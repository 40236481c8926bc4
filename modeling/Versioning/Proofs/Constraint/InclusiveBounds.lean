import Mathlib.Order.Bounds.Basic
import Versioning.Proofs.Constraint.PreRelease
import Versioning.Proofs.Constraint.Selection
import Versioning.Proofs.Maven.Intervals
import Versioning.Proofs.Npm.Acceptance
import Versioning.Proofs.Npm.Layout

/-!
Bounds that include the version they name. A version at the upper end of what is covered is always
accepted, even as a pre-release: the range ends with the next one, which has the same core. One at
the lower end is accepted because the range starts with it, unless it is the least version, which
bounds nothing and so is not named by the ranges at all.
-/

namespace Versioning

theorem Point.le_toPoint (point : Point) : point ≤ point.toCore.toPoint := by
  cases found : point.preRelease with
  | none =>
      have same : point.toCore.toPoint = point := Point.ext rfl rfl rfl found.symm
      exact same.ge
  | some preRelease => exact (Point.lt_toPoint (Option.isSome_iff_exists.mpr ⟨_, found⟩)).le

theorem Point.exists_next_of_isPreRelease {point : Point} (preRelease : point.isPreRelease = true) :
    ∃ next, point.next = .ok next ∧ point < next ∧ next < point.toCore.toPoint := by
  obtain ⟨current, found⟩ := Option.isSome_iff_exists.mp preRelease
  have following : point.next = .ok ⟨point.toCore, some current.next⟩ := by
    rw [Point.next, found]
  exact ⟨_, following, (Point.lt_next_iff following).mpr le_rfl, Point.lt_toPoint rfl⟩

theorem Version.toPoint_eq_least_iff {version : Version} (bare : version.build = none) :
    version.toPoint = .least ↔ version = .least := by
  constructor
  · intro same
    exact Version.ext_iff.mpr ⟨congrArg (·.major) same, congrArg (·.minor) same,
      congrArg (·.patch) same, congrArg (·.preRelease) same, bare⟩
  · rintro rfl
    rfl

namespace Constraint

open Maven (Enclosure Form Limit)
open Range (Covers)

variable {constraint : Constraint} {version : Version}

/-! ### Ends of what is covered -/

private theorem isSatisfiedBy_of_isGreatest
    (greatest : IsGreatest {point | Covers constraint.ranges.toList point} version.toPoint) :
    constraint.isSatisfiedBy version = true := by
  refine isSatisfiedBy_iff.mpr ⟨greatest.1, fun preRelease => ?_⟩
  -- if all pre-releases of the core were covered, so would be the one after the version
  rintro ⟨origin, early, covered⟩
  obtain ⟨next, -, above, below⟩ := Point.exists_next_of_isPreRelease preRelease
  have first := Point.firstPreRelease_le preRelease
  have from_origin : origin ≤ next := by
    rcases early with rfl | before
    · exact Point.least_le next
    · exact (before.trans_le first).le.trans above.le
  exact not_le.mpr above (greatest.2 (covered next from_origin below))

theorem isSatisfiedBy_iff_of_isLeast
    (least : IsLeast {point | Covers constraint.ranges.toList point} version.toPoint)
    (filled : ∀ point, version.toPoint ≤ point → point < version.toCore.toPoint →
      Covers constraint.ranges.toList point) :
    constraint.isSatisfiedBy version = true ↔ version.toPoint ≠ .least := by
  have covered : Covers constraint.ranges.toList version.toPoint := least.1
  rw [isSatisfiedBy_iff, and_iff_right covered]
  constructor
  · intro stays same
    have preRelease : version.isPreRelease = true := by
      rw [same]
      rfl
    refine stays preRelease ⟨.least, .inl rfl, fun point above below => filled point ?_ below⟩
    rw [same]
    exact above
  · -- what leads up to the pre-releases of the core would be covered, and below the version
    rintro different preRelease ⟨origin, early, covered⟩
    have first := Point.firstPreRelease_le preRelease
    have last := Point.lt_toPoint preRelease
    rcases early with rfl | before
    · have reached := least.2 (covered .least le_rfl ((Point.least_le _).trans_lt last))
      exact different (le_antisymm reached (Point.least_le _))
    · have below : origin < version.toPoint := before.trans_le first
      exact not_le.mpr below (least.2 (covered origin le_rfl (below.trans last)))

theorem isSatisfiedBy_iff_of_covers_iff {within : Point → Prop}
    (covers : ∀ point, Covers constraint.ranges.toList point ↔
      version.toPoint ≤ point ∧ within point)
    (reaches : ∀ point, point ≤ version.toCore.toPoint → within point) :
    constraint.isSatisfiedBy version = true ↔ version.toPoint ≠ .least := by
  have covered : Covers constraint.ranges.toList version.toPoint :=
    (covers _).mpr ⟨le_rfl, reaches _ version.toPoint.le_toPoint⟩
  refine isSatisfiedBy_iff_of_isLeast ⟨covered, ?_⟩ fun point above below => ?_
  · exact fun point held => ((covers point).mp held).1
  · exact (covers point).mpr ⟨above, reaches point below.le⟩

/-! ### Npm texts -/

theorem covers_iff_of_branches_eq {branch : Branch} (only : constraint.branches = [branch])
    (point : Point) :
    Covers constraint.ranges.toList point ↔ branch.admits point.toVersion = true := by
  change Covers constraint.ranges.toList point.toVersion.toPoint ↔ _
  rw [constraint.covers_iff, only, Branch.admits, List.all_eq_true]
  simp

section

variable {options : Npm.Options} {mark : String} {sigil : Npm.Sigil} {branch : Branch}

theorem exists_term_of_parse (spelled : (mark, sigil) ∈ Npm.Sigil.spellings)
    (parsed : parse (.npm options) (mark ++ version.text) = .ok constraint) :
    ∃ branch, Npm.term options (mark ++ version.text) sigil (.complete version) = .ok branch ∧
      ∀ point, Covers constraint.ranges.toList point ↔ branch.admits point.toVersion = true := by
  have apart : version.text.toList.head? ≠ some '=' := by
    obtain ⟨c, rest, same, digit⟩ := version.exists_toList_text_eq_cons
    rw [same, List.head?_cons, ne_eq, Option.some.injEq]
    exact Text.ne_of_class digit rfl
  have isTerm : Npm.IsTermText options mark sigil [] version.text.toList (.complete version) :=
    ⟨spelled, Text.isBlanks_nil, version.isBlank_of_mem_text, apart,
      Npm.ofChars_version_text version⟩
  obtain ⟨readBranches, -⟩ := parse_npm_eq_ok_iff.mp parsed
  rw [isTerm.read_eq String.toList_append] at readBranches
  obtain ⟨branch, found, only⟩ := Outcome.map_eq_ok_iff.mp readBranches
  exact ⟨branch, found, covers_iff_of_branches_eq only.symm⟩

theorem exists_stop_of_term {source : String} (isLine : sigil = .tilde ∨ sigil = .caret)
    (found : Npm.term options source sigil (.complete version) = .ok branch) :
    ∃ stop, version.toCore.toPoint < stop ∧
      Npm.bounded (Npm.lowerBound options (.complete version)) (some stop) = .ok branch := by
  have lead : (Descriptor.complete version).NumbersLead := List.forall_mem_nil _
  have numbered : (Descriptor.complete version).precision ≠ 0 := by simp
  have above : (Descriptor.complete version).floor ≤ version.toCore.toPoint :=
    version.toPoint.le_toPoint
  let release : Version := version.withoutSuffixes
  rcases isLine with rfl | rfl
  · change Npm.tilde options (.complete version) = .ok branch at found
    rw [Npm.tilde, if_neg numbered] at found
    obtain ⟨stop, next, limits⟩ := Outcome.bind_eq_ok_iff.mp found
    have below : release.toPoint < stop :=
      (Descriptor.lt_nextLine_iff_prefix lead numbered next rfl above).mpr (List.take_prefix _ _)
    exact ⟨stop, below, limits⟩
  · change Npm.caret options (.complete version) = .ok branch at found
    rw [Npm.caret, if_neg numbered] at found
    obtain ⟨stop, next, limits⟩ := Outcome.bind_eq_ok_iff.mp found
    have below : release.toPoint < stop :=
      (Descriptor.lt_caretStop_iff_prefix lead numbered (Outcome.mapError_eq_ok_iff.mp next) rfl
        above).mpr (List.take_prefix _ _)
    exact ⟨stop, below, limits⟩

end

theorem covers_iff_of_parse_hyphen
    (parsed : parse (.npm .standard) (version.text ++ " - " ++ version.text) = .ok constraint)
    (point : Point) : Covers constraint.ranges.toList point ↔ point = version.toPoint := by
  let word : Npm.DescriptorWord :=
    ⟨version.text.toList, version.isBlank_of_mem_text, .standard, _,
      Npm.ofChars_version_text version⟩
  have blank : Text.IsBlanks [' '] := List.all_eq_true.mp rfl
  have written : Npm.Clause.AreWrittenAs [.between word word]
      (version.text ++ " - " ++ version.text).toList := by
    have same : (version.text ++ " - " ++ version.text).toList =
        word.chars ++ ([' '] ++ '-' :: ([' '] ++ word.chars)) := by
      simp [word]
    rw [same]
    exact .one (.between (.refl _) blank (List.cons_ne_nil _ _) blank (List.cons_ne_nil _ _))
  obtain ⟨readBranches, -⟩ := parse_npm_eq_ok_iff.mp parsed
  obtain ⟨branch, only, found⟩ := written.read_eq_ok_iff_of_singleton.mp readBranches
  obtain ⟨first, last, low, high, found⟩ := Npm.Clause.readBranch_between_eq_ok_iff.mp found
  cases low.symm.trans (Npm.ofChars_version_text version)
  cases high.symm.trans (Npm.ofChars_version_text version)
  have lower : Npm.lowerBound .standard (.complete version) = some version.toPoint := rfl
  rw [covers_iff_of_branches_eq only, Npm.admits_hyphen_iff_of_isComplete rfl found, lower,
    le_antisymm_iff, and_comm]
  simp only [Option.mem_some_iff, forall_eq', Descriptor.floor_complete]
  exact Iff.rfl

/-! ### Maven texts -/

/-- Only a soft requirement has a preferred version, and it is the floor of its descriptor. -/
theorem exists_minimum_of_preferred {source : String} {preferred : Version}
    (parsed : parse .maven source = .ok constraint)
    (isPreferred : constraint.preferred = some preferred) :
    ∃ restriction descriptor, constraint.branches = [[.restriction restriction]] ∧
      restriction.form = .minimum descriptor ∧ preferred = descriptor.floor.toVersion := by
  obtain ⟨restrictions, read, -, -, branches⟩ := parse_maven_eq_ok_iff.mp parsed
  rw [isPreferred] at read
  unfold Maven.read at read
  dsimp only at read
  split at read
  · cases read
  · split at read
    · obtain ⟨others, -, same⟩ := Outcome.map_eq_ok_iff.mp read
      cases same
    · obtain ⟨descriptor, -, read⟩ := Outcome.bind_eq_ok_iff.mp read
      obtain ⟨restriction, made, same⟩ := Outcome.bind_eq_ok_iff.mp read
      cases Outcome.pure_eq_ok_iff.mp same
      exact ⟨restriction, descriptor, branches, Maven.form_of_ofForm made, rfl⟩

private theorem preferred_of_parse_text (bare : version.build = none)
    (parsed : parse .maven version.text = .ok constraint) :
    constraint.preferred = some version := by
  have writable : (Descriptor.complete version).IsWritable .maven :=
    Descriptor.isWritable_complete (.inr bare)
  have same : (Descriptor.complete version).floor.toVersion = version :=
    Version.ext rfl rfl rfl rfl bare.symm
  obtain ⟨restrictions, read, -⟩ := parse_maven_eq_ok_iff.mp parsed
  rw [← Descriptor.text_complete, Maven.read_descriptor_text writable, Maven.readSoftRequirement,
    Maven.trim_text writable, writable.ofChars_text] at read
  obtain ⟨descriptor, described, read⟩ := Outcome.bind_eq_ok_iff.mp read
  cases described
  obtain ⟨restriction, -, read⟩ := Outcome.bind_eq_ok_iff.mp read
  obtain ⟨-, preferred⟩ := Prod.mk.inj (Outcome.pure_eq_ok_iff.mp read)
  rw [← preferred, same]

theorem isSatisfiedBy_preferred_iff {source : String} {preferred : Version}
    (parsed : parse .maven source = .ok constraint)
    (isPreferred : constraint.preferred = some preferred) :
    constraint.isSatisfiedBy preferred = true ↔ preferred ≠ .least := by
  obtain ⟨restriction, descriptor, only, form, rfl⟩ :=
    exists_minimum_of_preferred parsed isPreferred
  have covers (point : Point) : Covers constraint.ranges.toList point ↔
      descriptor.floor.toVersion.toPoint ≤ point ∧ True := by
    rw [covers_iff_holds only, form, and_true]
    exact Iff.rfl
  rw [isSatisfiedBy_iff_of_covers_iff covers fun _ _ => trivial, ne_eq,
    Version.toPoint_eq_least_iff rfl]

/-! ### Versions in constraints that name them -/

/-- The texts in which a version is the greatest one that is asked for. -/
def textsUpTo (version : Version) : List (Grammar × String) :=
  [(.npm .standard, "=" ++ version.text), (.npm .standard, "<=" ++ version.text),
    (.npm .standard, version.text ++ " - " ++ version.text),
    (.maven, "[" ++ version.text ++ "]"), (.maven, "(," ++ version.text ++ "]")]

/-- The texts in which a version is the least one that is asked for, and greater ones are too. -/
def textsFrom (version : Version) : List (Grammar × String) :=
  [(.npm .standard, ">=" ++ version.text), (.npm .standard, "~" ++ version.text),
    (.npm .standard, "^" ++ version.text), (.maven, version.text),
    (.maven, "[" ++ version.text ++ ",)")]

private theorem isGreatest_of_parse_textsUpTo (bare : version.build = none)
    {text : Grammar × String} (member : text ∈ textsUpTo version)
    (parsed : parse text.1 text.2 = .ok constraint) :
    IsGreatest {point | Covers constraint.ranges.toList point} version.toPoint := by
  have ofEqual (covers : ∀ point, Covers constraint.ranges.toList point ↔ point = version.toPoint) :
      IsGreatest {point | Covers constraint.ranges.toList point} version.toPoint :=
    ⟨(covers _).mpr rfl, fun point covered => ((covers point).mp covered).le⟩
  have ofAtMost
      (covers : ∀ point, Covers constraint.ranges.toList point ↔ point ≤ version.toPoint) :
      IsGreatest {point | Covers constraint.ranges.toList point} version.toPoint :=
    ⟨(covers _).mpr le_rfl, fun point covered => (covers point).mp covered⟩
  have writable : (Descriptor.complete version).IsWritable .maven :=
    Descriptor.isWritable_complete (.inr bare)
  simp only [textsUpTo, List.mem_cons, List.not_mem_nil, or_false] at member
  rcases member with rfl | rfl | rfl | rfl | rfl
  · have spelled : ("=", .plain) ∈ Npm.Sigil.spellings := by decide
    obtain ⟨branch, found, covers⟩ := exists_term_of_parse spelled parsed
    cases found
    exact ofEqual fun point => (covers point).trans Npm.admits_exactly_iff
  · have spelled : ("<=", .atMost) ∈ Npm.Sigil.spellings := by decide
    obtain ⟨branch, found, covers⟩ := exists_term_of_parse spelled parsed
    exact ofAtMost fun point => (covers point).trans (Npm.admits_atMost_iff found)
  · exact ofEqual (covers_iff_of_parse_hyphen parsed)
  · let form : Form := .exact (.complete version)
    have text : "[" ++ version.text ++ "]" = form.text := by simp [form, Form.text]
    have bracketed : form.IsBracketed := writable
    exact ofEqual (covers_iff_holds_of_parse bracketed (text ▸ parsed))
  · let form : Form := .interval .absent (.inclusive (.complete version))
    have text : "(," ++ version.text ++ "]" = form.text := by
      simp [form, Form.text, Limit.text, Limit.isInclusive]
    have bracketed : form.IsBracketed :=
      ⟨Limit.isWritable_absent, Limit.isWritable_inclusive writable⟩
    exact ofAtMost fun point =>
      (covers_iff_holds_of_parse bracketed (text ▸ parsed) point).trans (true_and _).to_iff

theorem isSatisfiedBy_iff_of_parse_textsFrom (bare : version.build = none)
    {text : Grammar × String} (member : text ∈ textsFrom version)
    (parsed : parse text.1 text.2 = .ok constraint) :
    constraint.isSatisfiedBy version = true ↔ version ≠ .least := by
  have ofLine {mark : String} {sigil : Npm.Sigil} (spelled : (mark, sigil) ∈ Npm.Sigil.spellings)
      (isLine : sigil = .tilde ∨ sigil = .caret)
      (parsed : parse (.npm .standard) (mark ++ version.text) = .ok constraint) :
      constraint.isSatisfiedBy version = true ↔ version.toPoint ≠ .least := by
    obtain ⟨branch, found, covers⟩ := exists_term_of_parse spelled parsed
    obtain ⟨stop, beyond, limits⟩ := exists_stop_of_term isLine found
    have lower : Npm.lowerBound .standard (.complete version) = some version.toPoint := rfl
    rw [lower] at limits
    refine isSatisfiedBy_iff_of_covers_iff (fun point => ?_) fun point upTo => upTo.trans_lt beyond
    rw [covers, Npm.admits_bounded_iff limits]
    simp only [Option.mem_some_iff, forall_eq']
    exact Iff.rfl
  have writable : (Descriptor.complete version).IsWritable .maven :=
    Descriptor.isWritable_complete (.inr bare)
  rw [ne_eq, ← Version.toPoint_eq_least_iff bare]
  simp only [textsFrom, List.mem_cons, List.not_mem_nil, or_false] at member
  rcases member with rfl | rfl | rfl | rfl | rfl
  · have spelled : (">=", .atLeast) ∈ Npm.Sigil.spellings := by decide
    obtain ⟨branch, found, covers⟩ := exists_term_of_parse spelled parsed
    cases found
    refine isSatisfiedBy_iff_of_covers_iff (fun point => ?_) fun _ _ => trivial
    exact (covers point).trans (Npm.admits_atLeast_iff.trans (and_true _).symm.to_iff)
  · exact ofLine (by decide) (.inl rfl) parsed
  · exact ofLine (by decide) (.inr rfl) parsed
  · rw [Version.toPoint_eq_least_iff bare]
    exact isSatisfiedBy_preferred_iff parsed (preferred_of_parse_text bare parsed)
  · let form : Form := .interval (.inclusive (.complete version)) .absent
    have text : "[" ++ version.text ++ ",)" = form.text := by
      simp [form, Form.text, Limit.text, Limit.isInclusive, String.append_assoc]
    have bracketed : form.IsBracketed :=
      ⟨Limit.isWritable_inclusive writable, Limit.isWritable_absent⟩
    exact isSatisfiedBy_iff_of_covers_iff (covers_iff_holds_of_parse bracketed (text ▸ parsed))
      fun _ _ => trivial

/-- A constraint accepts the version that it includes as a bound. Where the version bounds it from
below, the least version is an exception: a bound at it excludes nothing, so that the range does not
start at any pre-release. A soft requirement bounds what it prefers from below, and this is selected
whenever a candidate stands at it, with the same exception. -/
theorem isSatisfiedBy_of_inclusive_bound (version : Version) (bare : version.build = none) :
    (∀ text ∈ textsUpTo version, ∀ constraint, parse text.1 text.2 = .ok constraint →
      constraint.isSatisfiedBy version = true) ∧
    (∀ text ∈ textsFrom version, ∀ constraint, parse text.1 text.2 = .ok constraint →
      (constraint.isSatisfiedBy version = true ↔ version ≠ .least)) ∧
    ∀ source constraint preferred, parse .maven source = .ok constraint →
      constraint.preferred = some preferred →
      (constraint.isSatisfiedBy preferred = true ↔ preferred ≠ .least) ∧
      ∀ candidates, (∃ candidate ∈ candidates, compare candidate preferred = .eq) →
        ((∃ chosen ∈ candidates, constraint.select candidates = some chosen ∧
          compare chosen preferred = .eq) ↔ preferred ≠ .least) := by
  refine ⟨?_, ?_, ?_⟩
  · intro text member constraint parsed
    exact isSatisfiedBy_of_isGreatest (isGreatest_of_parse_textsUpTo bare member parsed)
  · intro text member constraint parsed
    exact isSatisfiedBy_iff_of_parse_textsFrom bare member parsed
  · intro source constraint preferred parsed isPreferred
    have satisfied := isSatisfiedBy_preferred_iff parsed isPreferred
    exact ⟨satisfied, fun candidates among =>
      (exists_select_preferred_iff isPreferred among).trans satisfied⟩

theorem isSatisfiedBy_of_inclusive_bound_tilde :
    ∃ constraint version, Version.parse "1.0.0-rc" = .ok version ∧ version.build = none ∧
      parse (.npm .standard) "~1.0.0-rc" = .ok constraint ∧
      constraint.isSatisfiedBy version = true := by
  let preRelease : PreRelease := ⟨[.alphanumeric "rc" rfl], List.cons_ne_nil _ _⟩
  let version : Version := ⟨⟨⟨1, 0, 0⟩, some preRelease⟩, none⟩
  obtain ⟨constraint, parsed, -⟩ : ∃ constraint,
      parse (.npm .standard) "~1.0.0-rc" = .ok constraint ∧ constraint.branches = [_] :=
    exists_parse rfl rfl ⟨_, rfl⟩
  have text : "~" ++ version.text = "~1.0.0-rc" := by decide
  have member : (.npm .standard, "~1.0.0-rc") ∈ textsFrom version := by
    rw [← text]
    exact List.mem_cons_of_mem _ List.mem_cons_self
  have different : version ≠ .least := by decide
  exact ⟨constraint, version, rfl, rfl, parsed,
    ((isSatisfiedBy_of_inclusive_bound version rfl).2.1 _ member _ parsed).mpr different⟩

theorem isSatisfiedBy_least_eq_false :
    ∃ constraint version, Version.parse "0.0.0-0" = .ok version ∧ version.build = none ∧
      parse (.npm .standard) ">=0.0.0-0" = .ok constraint ∧
      constraint.isSatisfiedBy version = false := by
  obtain ⟨constraint, parsed, -⟩ : ∃ constraint,
      parse (.npm .standard) ">=0.0.0-0" = .ok constraint ∧ constraint.branches = [_] :=
    exists_parse rfl rfl ⟨_, rfl⟩
  have member : (.npm .standard, ">=0.0.0-0") ∈ textsFrom .least := List.mem_cons_self
  have satisfied := isSatisfiedBy_iff_of_parse_textsFrom rfl member parsed
  exact ⟨constraint, .least, rfl, rfl, parsed,
    Bool.eq_false_iff.mpr fun accepted => satisfied.mp accepted rfl⟩

end Constraint

end Versioning
