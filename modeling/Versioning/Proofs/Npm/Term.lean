import Versioning.Proofs.Npm.Alternatives
import Versioning.Proofs.Predicate
import Versioning.Proofs.Range.Membership

/-!
What npm branches are made of. Every predicate of a term is `*` or a condition without build
metadata, and there is at least one. Which operators and points its conditions may have depends on
the sigil.
-/

namespace Versioning

/-- Whether a branch has predicates, and each is `*` or a condition with an operator and a point
that stand in some relation. -/
structure Branch.IsMadeOf (related : Operator → Point → Prop) (branch : Branch) : Prop where
  ne_nil : branch ≠ []
  forall_mem : ∀ predicate ∈ branch, predicate = .any ∨ ∃ condition,
    predicate = .condition condition ∧ condition.version.build = none ∧
      related condition.operator condition.version.toPoint

namespace Branch.IsMadeOf

variable {related other : Operator → Point → Prop} {branch : Branch}

theorem mono (made : branch.IsMadeOf related)
    (weaker : ∀ operator point, related operator point → other operator point) :
    branch.IsMadeOf other := by
  refine ⟨made.ne_nil, fun predicate member => ?_⟩
  rcases made.forall_mem predicate member with any | ⟨condition, same, plain, relates⟩
  · exact .inl any
  · exact .inr ⟨condition, same, plain, weaker _ _ relates⟩

theorem any : IsMadeOf related [.any] where
  ne_nil := List.cons_ne_nil _ _
  forall_mem _ member := .inl (List.mem_singleton.mp member)

private theorem append {rest : Branch} (first : branch.IsMadeOf related)
    (second : rest.IsMadeOf related) :
    IsMadeOf related (branch ++ rest) where
  ne_nil := List.append_ne_nil_of_left_ne_nil first.ne_nil rest
  forall_mem := List.forall_mem_append.mpr ⟨first.forall_mem, second.forall_mem⟩

private theorem dropLast_append {rest : Branch} (first : branch.IsMadeOf related)
    (second : rest.IsMadeOf related) : IsMadeOf related (branch.dropLast ++ rest) where
  ne_nil := List.append_ne_nil_of_right_ne_nil _ second.ne_nil
  forall_mem := List.forall_mem_append.mpr
    ⟨fun predicate member => first.forall_mem predicate (List.dropLast_subset branch member),
      second.forall_mem⟩

private theorem flatten {branches : List Branch} (nonempty : branches ≠ [])
    (made : ∀ branch ∈ branches, branch.IsMadeOf related) :
    IsMadeOf related branches.flatten := by
  induction branches with
  | nil => contradiction
  | cons first rest ih =>
      obtain ⟨madeFirst, madeRest⟩ := List.forall_mem_cons.mp made
      rw [List.flatten_cons]
      cases rest with
      | nil => simpa using madeFirst
      | cons second others => exact madeFirst.append (ih (List.cons_ne_nil _ _) madeRest)

end Branch.IsMadeOf

namespace Npm

open Branch (IsMadeOf)

variable {related : Operator → Point → Prop} {options : Options} {descriptor : Descriptor}
  {branch : Branch}

/-! ### Conditions -/

theorem isMadeOf_single {condition : Condition} (plain : condition.version.build = none)
    (relates : related condition.operator condition.version.toPoint) :
    IsMadeOf related (single condition) where
  ne_nil := List.cons_ne_nil _ _
  forall_mem _ member := .inr ⟨condition, List.mem_singleton.mp member, plain, relates⟩

theorem comparison_eq_ok {operator : Operator} {point : Point}
    (found : comparison operator point = .ok branch) :
    ∃ condition, branch = single condition ∧ condition.operator = operator ∧
      condition.version = point.toVersion := by
  obtain ⟨condition, made, rfl⟩ := Outcome.map_eq_ok_iff.mp found
  exact ⟨condition, rfl, Condition.eq_of_make made⟩

theorem conjunction_of_comparison {operator : Operator} {point : Point}
    (found : comparison operator point = .ok branch) :
    ∃ comparator, operator.comparator point = .ok comparator ∧
      branch.conjunction = [comparator] := by
  obtain ⟨condition, rfl, rfl, version⟩ := comparison_eq_ok found
  have made := condition.comparator_eq
  rw [version] at made
  exact ⟨condition.comparator, made, rfl⟩

theorem exists_comparison (operator : Operator) {point next : Point}
    (following : point.next = .ok next) : ∃ branch, comparison operator point = .ok branch := by
  obtain ⟨comparator, made⟩ := operator.exists_comparator following
  let condition : Condition := ⟨operator, point.toVersion, comparator, made⟩
  exact ⟨_, Outcome.map_eq_ok_iff.mpr ⟨condition, condition.make_eq_ok, rfl⟩⟩

theorem isMadeOf_comparison {operator : Operator} {point : Point} (relates : related operator point)
    (found : comparison operator point = .ok branch) : branch.IsMadeOf related := by
  obtain ⟨condition, rfl, rfl, version⟩ := comparison_eq_ok found
  refine isMadeOf_single ?_ ?_
  · rw [version]
    rfl
  · rw [version]
    exact relates

theorem isMadeOf_bounded {start stop : Option Point}
    (starts : ∀ point ∈ start, related .atLeast point)
    (stops : ∀ point ∈ stop, related .less point) (found : bounded start stop = .ok branch) :
    branch.IsMadeOf related := by
  obtain ⟨range, between, found⟩ := Outcome.bind_eq_ok_iff.mp found
  obtain ⟨startEq, stopEq⟩ := Range.bounds_of_between between
  rw [startEq, stopEq] at found
  split at found
  · cases Outcome.pure_eq_ok_iff.mp found
    exact .any
  · next conditions nonempty =>
    cases Outcome.pure_eq_ok_iff.mp found
    refine ⟨by simpa using nonempty, fun predicate member => .inr ?_⟩
    obtain ⟨condition, among, rfl⟩ := List.mem_map.mp member
    refine ⟨condition, rfl, ?_⟩
    rcases List.mem_append.mp among with atStart | atStop
    · obtain ⟨point, bound, rfl⟩ := List.mem_map.mp atStart
      exact ⟨rfl, starts point (Option.mem_toList.mp bound)⟩
    · obtain ⟨point, bound, rfl⟩ := List.mem_map.mp atStop
      exact ⟨rfl, stops point (Option.mem_toList.mp bound)⟩

/-! ### Terms -/

/-- The operators and points of the conditions that a sigil and a descriptor may come down to. -/
inductive Yields (options : Options) (descriptor : Descriptor) : Sigil → Operator → Point → Prop
  | exact : Yields options descriptor .plain .equal descriptor.floor
  | excluded : Yields options descriptor .notEqual .notEqual descriptor.floor
  | nothing {sigil : Sigil} : Yields options descriptor sigil .less .least
  | start {sigil : Sigil} {point : Point} (range : sigil ∈ [.plain, .tilde, .caret, .atLeast])
      (starts : point ∈ lowerBound options descriptor) :
      Yields options descriptor sigil .atLeast point
  | line {sigil : Sigil} {point : Point} (next : nextLine descriptor = .ok point) :
      Yields options descriptor sigil .less point
  | caretLine {point : Point} (stops : caretStop descriptor = .ok point) :
      Yields options descriptor .caret .less point
  | below : Yields options descriptor .less .less descriptor.floor
  | belowLine : Yields options descriptor .less .less descriptor.floor.withLeastPreRelease
  | atMost : Yields options descriptor .atMost .atMost descriptor.floor
  | greater : Yields options descriptor .greater .greater descriptor.floor
  | pastLine {point : Point} (next : nextLine descriptor = .ok point) :
      Yields options descriptor .greater .atLeast point
  | atLeast : Yields options descriptor .atLeast .atLeast descriptor.floor

theorem isMadeOf_line {sigil : Sigil} (range : sigil ∈ [.plain, .tilde, .caret, .atLeast])
    (found : (nextLine descriptor >>= fun stop =>
      bounded (lowerBound options descriptor) (some stop)) = .ok branch) :
    branch.IsMadeOf (Yields options descriptor sigil) := by
  obtain ⟨stop, next, found⟩ := Outcome.bind_eq_ok_iff.mp found
  refine isMadeOf_bounded (fun point starts => .start range starts) ?_ found
  intro point stops
  cases stops
  exact .line next

private theorem isMadeOf_plain (found : plain options descriptor = .ok branch) :
    branch.IsMadeOf (Yields options descriptor .plain) := by
  unfold plain at found
  split at found
  · cases Outcome.pure_eq_ok_iff.mp found
    exact .any
  · exact isMadeOf_line (by decide) found
  · exact isMadeOf_line (by decide) found
  · cases Outcome.pure_eq_ok_iff.mp found
    exact isMadeOf_single rfl .exact

private theorem isMadeOf_tilde (found : tilde options descriptor = .ok branch) :
    branch.IsMadeOf (Yields options descriptor .tilde) := by
  unfold tilde at found
  split at found
  · cases Outcome.pure_eq_ok_iff.mp found
    exact .any
  · exact isMadeOf_line (by decide) found

private theorem isMadeOf_caret (found : caret options descriptor = .ok branch) :
    branch.IsMadeOf (Yields options descriptor .caret) := by
  unfold caret at found
  split at found
  · cases Outcome.pure_eq_ok_iff.mp found
    exact .any
  · obtain ⟨stop, stops, found⟩ := Outcome.bind_eq_ok_iff.mp found
    refine isMadeOf_bounded (fun point starts => .start (by decide) starts) ?_ found
    intro point isStop
    cases isStop
    exact .caretLine (Outcome.mapError_eq_ok_iff.mp stops)

private theorem isMadeOf_notEqual {source : String}
    (found : notEqual source descriptor = .ok branch) :
    branch.IsMadeOf (Yields options descriptor .notEqual) := by
  unfold notEqual at found
  split at found
  · cases found
    exact isMadeOf_single rfl .nothing
  · split at found
    · cases found
    · cases found
      exact isMadeOf_single rfl .excluded

private theorem isMadeOf_less : (less descriptor).IsMadeOf (Yields options descriptor .less) := by
  unfold less
  split
  · exact isMadeOf_single rfl .nothing
  · exact isMadeOf_single rfl .below
  · exact isMadeOf_single rfl .belowLine

/-- What `<=` and `>` have in common: the line is drawn behind all that the descriptor describes. -/
def drawnBehind (operator : Operator) (whole : Branch) (line : Point → Condition)
    (descriptor : Descriptor) : Except ConstraintError Branch := do
  match descriptor.precision with
  | 0 => return whole
  | 3 => comparison operator descriptor.floor
  | _ => return single (line (← nextLine descriptor))

theorem atMost_eq_drawnBehind (descriptor : Descriptor) :
    atMost descriptor = drawnBehind .atMost [.any] .below descriptor := rfl

theorem greater_eq_drawnBehind (descriptor : Descriptor) :
    greater descriptor = drawnBehind .greater (single .nothing) .atLeast descriptor := rfl

theorem drawnBehind_cases {operator : Operator} {whole : Branch} {line : Point → Condition}
    (found : drawnBehind operator whole line descriptor = .ok branch) :
    (descriptor.precision = 0 ∧ whole = branch) ∨
      (descriptor.precision = 3 ∧ comparison operator descriptor.floor = .ok branch) ∨
      descriptor.precision ≠ 0 ∧ descriptor.precision ≠ 3 ∧
        ∃ stop, nextLine descriptor = .ok stop ∧ single (line stop) = branch := by
  unfold drawnBehind at found
  split at found
  · next none => exact .inl ⟨none, Outcome.pure_eq_ok_iff.mp found⟩
  · next complete => exact .inr (.inl ⟨complete, found⟩)
  · next numbered incomplete =>
    obtain ⟨stop, next, same⟩ := Outcome.bind_eq_ok_iff.mp found
    exact .inr (.inr ⟨numbered, incomplete, stop, next, Outcome.pure_eq_ok_iff.mp same⟩)

private theorem isMadeOf_atMost (found : atMost descriptor = .ok branch) :
    branch.IsMadeOf (Yields options descriptor .atMost) := by
  rw [atMost_eq_drawnBehind] at found
  rcases drawnBehind_cases found with ⟨-, same⟩ | ⟨-, found⟩ | ⟨-, -, stop, next, same⟩
  · exact same ▸ .any
  · exact isMadeOf_comparison .atMost found
  · exact same ▸ isMadeOf_single rfl (.line next)

private theorem isMadeOf_greater (found : greater descriptor = .ok branch) :
    branch.IsMadeOf (Yields options descriptor .greater) := by
  rw [greater_eq_drawnBehind] at found
  rcases drawnBehind_cases found with ⟨-, same⟩ | ⟨-, found⟩ | ⟨-, -, start, next, same⟩
  · exact same ▸ isMadeOf_single rfl .nothing
  · exact isMadeOf_comparison .greater found
  · exact same ▸ isMadeOf_single rfl (.pastLine next)

theorem isMadeOf_atLeast (found : atLeast options descriptor = .ok branch) :
    branch.IsMadeOf (Yields options descriptor .atLeast) := by
  unfold atLeast at found
  split at found
  · cases found
    exact .any
  · cases found
    exact isMadeOf_single rfl .atLeast
  · refine isMadeOf_bounded (fun point starts => .start (by decide) starts) ?_ found
    intro point isStop
    cases isStop

theorem isMadeOf_term {source : String} {sigil : Sigil}
    (found : term options source sigil descriptor = .ok branch) :
    branch.IsMadeOf (Yields options descriptor sigil) := by
  cases sigil with
  | plain => exact isMadeOf_plain found
  | tilde => exact isMadeOf_tilde found
  | caret => exact isMadeOf_caret found
  | notEqual => exact isMadeOf_notEqual found
  | less =>
      cases found
      exact isMadeOf_less
  | atMost => exact isMadeOf_atMost found
  | greater => exact isMadeOf_greater found
  | atLeast => exact isMadeOf_atLeast found

/-! ### Hyphen ranges -/

inductive YieldsBetween (options : Options) (low high : Descriptor) : Operator → Point → Prop
  | start {point : Point} (starts : point ∈ lowerBound options low) :
      YieldsBetween options low high .atLeast point
  | stop {point : Point} (stops : hyphenStop high = .ok (some point)) :
      YieldsBetween options low high .less point
  | last : YieldsBetween options low high .atMost high.floor

theorem isMadeOf_hyphen {low high : Descriptor} (found : hyphen options low high = .ok branch) :
    branch.IsMadeOf (YieldsBetween options low high) := by
  obtain ⟨stop, stops, found⟩ := Outcome.bind_eq_ok_iff.mp found
  obtain ⟨range, limits, found⟩ := Outcome.bind_eq_ok_iff.mp found
  have made : range.IsMadeOf (YieldsBetween options low high) := by
    refine isMadeOf_bounded (fun point => .start) ?_ limits
    intro point isStop
    cases isStop
    exact .stop (Outcome.mapError_eq_ok_iff.mp stops)
  split at found
  · obtain ⟨last, compared, found⟩ := Outcome.bind_eq_ok_iff.mp found
    cases Outcome.pure_eq_ok_iff.mp found
    exact made.dropLast_append (isMadeOf_comparison .last compared)
  · cases Outcome.pure_eq_ok_iff.mp found
    exact made

/-! ### Alternatives -/

theorem glue_ne_nil {pending : Word} {words : List Word} (solid : ∀ word ∈ words, word ≠ [])
    (some : pending ≠ [] ∨ words ≠ []) : glue pending words ≠ [] := by
  induction words generalizing pending with
  | nil =>
      have nonempty : pending ≠ [] := some.resolve_right fun missing => missing rfl
      simp [glue, nonempty]
  | cons word rest ih =>
      obtain ⟨solidWord, solidRest⟩ := List.forall_mem_cons.mp solid
      rw [glue]
      split
      · exact ih solidRest (.inl (List.append_ne_nil_of_right_ne_nil pending solidWord))
      · exact List.cons_ne_nil _ _

theorem exists_words_of_alternatives {source : String} {alternatives : List (List Word)}
    (found : Npm.alternatives source = .ok alternatives) :
    ∀ words ∈ alternatives, ∃ text, Text.words text = words := by
  intro words member
  obtain ⟨lists, pieces, rfl⟩ := Outcome.map_eq_ok_iff.mp found
  obtain ⟨list, ofPiece, inside⟩ := List.mem_flatten.mp member
  obtain ⟨piece, -, found⟩ := Outcome.exists_of_mem_mapM pieces ofPiece
  unfold alternativesOfPiece at found
  split at found
  · obtain ⟨side, -, found⟩ := Outcome.exists_of_mem_mapM found inside
    split at found
    · cases found
    · cases found
      exact ⟨side, rfl⟩
  · cases found
    cases List.mem_singleton.mp inside
    exact ⟨piece, rfl⟩

private theorem solid_of_alternatives {source : String} {alternatives : List (List Word)}
    (found : Npm.alternatives source = .ok alternatives) :
    ∀ words ∈ alternatives, ∀ word ∈ words, word ≠ [] := by
  intro words member word among
  obtain ⟨text, rfl⟩ := exists_words_of_alternatives found words member
  exact Text.ne_nil_of_mem_words among

/-- The terms that the tokens of an alternative stand for, as sigils and descriptors. The ends of a
hyphen range have no sigils. -/
def terms : List Word → List (Sigil × Word)
  | [low, ['-'], high] => [(.plain, low), (.plain, high)]
  | tokens => tokens.map Sigil.read

inductive TokensYield (options : Options) (tokens : List Word) : Operator → Point → Prop
  | term {sigil : Sigil} {word : Word} {descriptor : Descriptor} {operator : Operator}
      {point : Point} (member : (sigil, word) ∈ terms tokens)
      (described : Descriptor.ofChars options.dialect word = .ok descriptor)
      (yields : Yields options descriptor sigil operator point) :
      TokensYield options tokens operator point
  | hyphen {first last : Word} {low high : Descriptor} {operator : Operator} {point : Point}
      (memberLow : (.plain, first) ∈ terms tokens) (memberHigh : (.plain, last) ∈ terms tokens)
      (describedLow : Descriptor.ofChars options.dialect first = .ok low)
      (describedHigh : Descriptor.ofChars options.dialect last = .ok high)
      (yields : YieldsBetween options low high operator point) :
      TokensYield options tokens operator point

private theorem isMadeOf_readTokens {source : String} {tokens : List Word} (nonempty : tokens ≠ [])
    (found : readTokens options source tokens = .ok branch) :
    branch.IsMadeOf (TokensYield options tokens) := by
  unfold readTokens at found
  split at found
  · obtain ⟨low, describedLow, found⟩ := Outcome.bind_eq_ok_iff.mp found
    obtain ⟨high, describedHigh, found⟩ := Outcome.bind_eq_ok_iff.mp found
    refine (isMadeOf_hyphen found).mono fun _ _ => .hyphen ?_ ?_ describedLow describedHigh
    · exact List.mem_cons_self
    · exact List.mem_cons_of_mem _ (List.mem_singleton_self _)
  · next _ apart =>
    obtain ⟨branches, readTerms, rfl⟩ := Outcome.map_eq_ok_iff.mp found
    have each : terms tokens = tokens.map Sigil.read := by
      unfold terms
      split
      · next low high => exact (apart low high rfl).elim
      · rfl
    refine .flatten ?_ fun branch member => ?_
    · rintro rfl
      exact nonempty (List.forall₂_nil_right_iff.mp (Outcome.mapM_eq_ok_iff.mp readTerms))
    · obtain ⟨token, among, readToken⟩ := Outcome.exists_of_mem_mapM readTerms member
      obtain ⟨descriptor, described, found⟩ := readTerm_eq_ok_iff.mp readToken
      refine (isMadeOf_term found).mono fun _ _ => .term ?_ described
      rw [each]
      exact List.mem_map_of_mem among

private theorem isMadeOf_readBranch {source : String} {words : List Word}
    (solid : ∀ word ∈ words, word ≠ []) (found : readBranch options source words = .ok branch) :
    branch.IsMadeOf (TokensYield options (glue [] words)) := by
  unfold readBranch at found
  split at found
  · cases found
    exact .any
  · next some => exact isMadeOf_readTokens (glue_ne_nil solid (.inr some)) found

/-- Each branch of a text comes down to `*` and to what the tokens of an alternative yield. -/
theorem isMadeOf_read {source : String} {alternatives : List (List Word)} {branches : List Branch}
    (cut : Npm.alternatives source = .ok alternatives)
    (found : read options source = .ok branches) :
    ∀ branch ∈ branches,
      ∃ words ∈ alternatives, branch.IsMadeOf (TokensYield options (glue [] words)) := by
  intro branch member
  obtain ⟨others, again, found⟩ := Outcome.bind_eq_ok_iff.mp found
  cases cut.symm.trans again
  obtain ⟨words, among, readWords⟩ := Outcome.exists_of_mem_mapM found member
  exact ⟨words, among, isMadeOf_readBranch (solid_of_alternatives cut words among) readWords⟩

end Npm

end Versioning
