import Versioning.Proofs.Npm.Rendering
import Versioning.Proofs.Npm.SingleTerm

/-!
Layouts of npm texts. The same clauses may be written with more or fewer blanks, and with single or
double bars between them. What is read are the clauses alone: each as it is read where it stands by
itself, written as tightly as can be.
-/

namespace Versioning

namespace Npm

/-! ### Clauses -/

/-- A descriptor without blanks that is accepted in the npm grammar, strict or loose. -/
structure DescriptorWord where
  chars : Word
  solid : ∀ c ∈ chars, Text.isBlank c = false
  accepted : ∃ options descriptor,
    Descriptor.ofChars (Options.dialect options) chars = .ok descriptor

/-- A sigil in one of its spellings, which may be empty, and the descriptor it applies to. -/
structure Term where
  mark : String
  descriptor : DescriptorWord
  spelled : ∃ sigil, (mark, sigil) ∈ Sigil.spellings
  apart : descriptor.chars.head? ≠ some '='

/-- What is written on one side of a bar. -/
inductive Clause
  | blank
  | between (low high : DescriptorWord)
  | terms (first : Term) (others : List Term)

def Term.token (term : Term) : Word := term.mark.toList ++ term.descriptor.chars

def Clause.tokens : Clause → List Word
  | .blank => []
  | .between low high => [low.chars, ['-'], high.chars]
  | .terms first others => (first :: others).map Term.token

/-- The text of a clause without any blank that can be spared. -/
def Clause.tight (clause : Clause) : String := String.ofList ([' '].intercalate clause.tokens)

/-! ### Layouts -/

inductive AreWrittenAs : List Term → List Char → Prop
  | one {term : Term} {blanks : List Char} (blank : Text.IsBlanks blanks) :
      AreWrittenAs [term] (term.mark.toList ++ (blanks ++ term.descriptor.chars))
  | cons {term : Term} {others : List Term} {blanks gap rest : List Char}
      (blank : Text.IsBlanks blanks) (blankGap : Text.IsBlanks gap) (apart : gap ≠ [])
      (behind : AreWrittenAs others rest) :
      AreWrittenAs (term :: others)
        (term.mark.toList ++ (blanks ++ term.descriptor.chars) ++ (gap ++ rest))

/-- A clause with any blanks around it. The dash of a hyphen range stands between blanks. -/
inductive Clause.IsWrittenAs : Clause → List Char → Prop
  | blank {blanks : List Char} (blank : Text.IsBlanks blanks) : IsWrittenAs .blank blanks
  | between {low high : DescriptorWord} {text before behind : List Char}
      (around : Text.Surrounds text (low.chars ++ (before ++ '-' :: (behind ++ high.chars))))
      (blankBefore : Text.IsBlanks before) (apartBefore : before ≠ [])
      (blankBehind : Text.IsBlanks behind) (apartBehind : behind ≠ []) :
      IsWrittenAs (.between low high) text
  | terms {first : Term} {others : List Term} {text inner : List Char}
      (around : Text.Surrounds text inner) (written : AreWrittenAs (first :: others) inner) :
      IsWrittenAs (.terms first others) text

/-- Clauses one after the other, with a double bar between each two of them, or with a single bar
where neither of the two is blank. -/
inductive Clause.AreWrittenAs : List Clause → List Char → Prop
  | one {clause : Clause} {text : List Char} (written : clause.IsWrittenAs text) :
      AreWrittenAs [clause] text
  | doubleBar {clause : Clause} {others : List Clause} {text rest : List Char}
      (written : clause.IsWrittenAs text) (behind : AreWrittenAs others rest) :
      AreWrittenAs (clause :: others) (text ++ '|' :: '|' :: rest)
  | bar {clause next : Clause} {others : List Clause} {text rest : List Char}
      (written : clause.IsWrittenAs text) (some : clause ≠ .blank) (someNext : next ≠ .blank)
      (behind : AreWrittenAs (next :: others) rest) :
      AreWrittenAs (clause :: next :: others) (text ++ '|' :: rest)

/-! ### Words -/

theorem DescriptorWord.ne_nil (word : DescriptorWord) : word.chars ≠ [] := by
  obtain ⟨_, _, described⟩ := word.accepted
  obtain ⟨front, first, rest, same, -⟩ := Descriptor.exists_first_of_ofChars described
  rw [same]
  exact List.append_ne_nil_of_right_ne_nil front (List.cons_ne_nil first rest)

theorem DescriptorWord.bar_not_mem (word : DescriptorWord) : '|' ∉ word.chars := by
  obtain ⟨_, _, described⟩ := word.accepted
  exact Descriptor.bar_not_mem_of_ofChars described

private theorem DescriptorWord.words_chars (word : DescriptorWord) :
    Text.words word.chars = [word.chars] :=
  Text.words_eq_singleton word.ne_nil word.solid

theorem DescriptorWord.standsAlone_append (word : DescriptorWord) (front : List Char) :
    Sigil.standsAlone (front ++ word.chars) = false := by
  obtain ⟨_, _, described⟩ := word.accepted
  exact standsAlone_append_of_ofChars described front

theorem DescriptorWord.append_ne_dash (word : DescriptorWord) (front : List Char) :
    front ++ word.chars ≠ ['-'] := by
  intro dash
  obtain ⟨_, _, described⟩ := word.accepted
  obtain ⟨marks, first, rest, same, -, kind⟩ := Descriptor.exists_first_of_ofChars described
  have member : first ∈ ['-'] := by
    rw [← dash, same]
    simp
  cases List.mem_singleton.mp member
  exact absurd kind (by decide)

theorem readBranch_of_ne_nil {options : Options} {source : String} {words : List Word}
    (some : words ≠ []) :
    readBranch options source words = readTokens options source (glue [] words) := by
  cases words with
  | nil => contradiction
  | cons word rest => rfl

namespace Term

variable {term : Term} {blanks : List Char}

theorem isTermText (term : Term) (blank : Text.IsBlanks blanks) : ∃ options sigil descriptor,
    IsTermText options term.mark sigil blanks term.descriptor.chars descriptor := by
  obtain ⟨sigil, spelled⟩ := term.spelled
  obtain ⟨options, descriptor, described⟩ := term.descriptor.accepted
  exact ⟨options, sigil, descriptor, spelled, blank, term.descriptor.solid, term.apart, described⟩

private theorem glue_words_append (blank : Text.IsBlanks blanks) (rest : List Word) :
    glue [] (Text.words (term.mark.toList ++ (blanks ++ term.descriptor.chars)) ++ rest) =
      term.token :: glue [] rest := by
  obtain ⟨_, _, _, isTerm⟩ := term.isTermText blank
  exact isTerm.glue_words_append rest

private theorem bar_not_mem (blank : Text.IsBlanks blanks) :
    '|' ∉ term.mark.toList ++ (blanks ++ term.descriptor.chars) := by
  obtain ⟨_, _, _, isTerm⟩ := term.isTermText blank
  exact isTerm.bar_not_mem

end Term

namespace AreWrittenAs

variable {terms : List Term} {text : List Char}

private theorem glue_words (written : AreWrittenAs terms text) :
    glue [] (Text.words text) = terms.map Term.token := by
  induction written with
  | @one term blanks blank => simpa [glue] using term.glue_words_append blank []
  | @cons term others blanks gap rest blank blankGap apart behind ih =>
      rw [Text.words_append_gap _ _ apart blankGap, term.glue_words_append blank, ih,
        List.map_cons]

private theorem bar_not_mem (written : AreWrittenAs terms text) : '|' ∉ text := by
  induction written with
  | @one term blanks blank => exact term.bar_not_mem blank
  | @cons term others blanks gap rest blank blankGap apart behind ih =>
      have noBar : '|' ∉ gap := Text.not_mem_of_isBlanks (by decide) blankGap
      rw [List.mem_append, List.mem_append (s := gap), not_or, not_or]
      exact ⟨term.bar_not_mem blank, noBar, ih⟩

theorem intercalate_tokens (first : Term) (others : List Term) :
    AreWrittenAs (first :: others) ([' '].intercalate ((first :: others).map Term.token)) := by
  induction others generalizing first with
  | nil =>
      rw [List.map_singleton, List.intercalate_singleton]
      exact .one Text.isBlanks_nil
  | cons next others ih =>
      rw [List.map_cons, List.map_cons, List.intercalate_cons_cons, List.append_assoc]
      exact .cons Text.isBlanks_nil (List.all_eq_true.mp rfl) (List.cons_ne_nil _ _) (ih next)

end AreWrittenAs

namespace Clause

variable {clause : Clause} {text : List Char}

theorem standsAlone_of_mem_tokens : ∀ token ∈ clause.tokens, Sigil.standsAlone token = false := by
  cases clause with
  | blank => exact List.forall_mem_nil _
  | between low high =>
      refine List.forall_mem_cons.mpr ⟨low.standsAlone_append [], ?_⟩
      refine List.forall_mem_cons.mpr ⟨rfl, ?_⟩
      exact List.forall_mem_singleton.mpr (high.standsAlone_append [])
  | terms first others =>
      exact List.forall_mem_map.mpr fun term _ => term.descriptor.standsAlone_append _

theorem tokens_eq_nil_iff : clause.tokens = [] ↔ clause = .blank := by
  cases clause <;> simp [tokens]

namespace IsWrittenAs

theorem glue_words (written : clause.IsWrittenAs text) :
    glue [] (Text.words text) = clause.tokens := by
  cases written with
  | blank blank =>
      rw [← List.nil_append text, Text.words_append_blanks [] blank]
      rfl
  | @between low high _ before behind around blankBefore apartBefore blankBehind apartBehind =>
      have dash : Text.words ['-'] = [['-']] :=
        Text.words_eq_singleton (List.cons_ne_nil _ _) (List.forall_mem_singleton.mpr rfl)
      have split : before ++ '-' :: (behind ++ high.chars) =
          before ++ (['-'] ++ (behind ++ high.chars)) := rfl
      rw [around.words_eq, split, Text.words_append_gap _ _ apartBefore blankBefore,
        Text.words_append_gap _ _ apartBehind blankBehind, low.words_chars, dash,
        high.words_chars]
      change glue [] (tokens (.between low high)) = _
      exact glue_eq standsAlone_of_mem_tokens
  | terms around written =>
      rw [around.words_eq]
      exact written.glue_words

theorem words_eq_nil_iff (written : clause.IsWrittenAs text) :
    Text.words text = [] ↔ clause = .blank := by
  rw [← tokens_eq_nil_iff, ← written.glue_words]
  constructor
  · intro none
    rw [none]
    rfl
  · intro none
    by_contra some
    exact glue_ne_nil (fun word => Text.ne_nil_of_mem_words) (.inr some) none

theorem bar_not_mem (written : clause.IsWrittenAs text) : '|' ∉ text := by
  have beside {inner : List Char} (around : Text.Surrounds text inner) (noBar : '|' ∉ inner) :
      '|' ∉ text := by
    have same := contains_bar_eq_of_surrounds around
    rw [List.contains_eq_mem, List.contains_eq_mem, decide_eq_decide] at same
    exact mt same.mp noBar
  cases written with
  | blank blank => exact Text.not_mem_of_isBlanks (by decide) blank
  | @between low high _ before behind around blankBefore apartBefore blankBehind apartBehind =>
      apply beside around
      have noBarBefore : '|' ∉ before := Text.not_mem_of_isBlanks (by decide) blankBefore
      have noBarBehind : '|' ∉ behind := Text.not_mem_of_isBlanks (by decide) blankBehind
      simp [low.bar_not_mem, high.bar_not_mem, noBarBefore, noBarBehind]
  | terms around written => exact beside around written.bar_not_mem

/-- A clause is read by its tokens, whatever blanks are in it. -/
theorem readBranch_words {options : Options} {source : String}
    (written : clause.IsWrittenAs text) : readBranch options source (Text.words text) =
      readBranch options source clause.tokens := by
  have glued : glue [] (Text.words text) = glue [] clause.tokens := by
    rw [written.glue_words, glue_eq standsAlone_of_mem_tokens]
  by_cases none : clause = .blank
  · rw [written.words_eq_nil_iff.mpr none, tokens_eq_nil_iff.mpr none]
  · have words : Text.words text ≠ [] := mt written.words_eq_nil_iff.mp none
    have tokens : clause.tokens ≠ [] := mt tokens_eq_nil_iff.mp none
    rw [readBranch_of_ne_nil words, readBranch_of_ne_nil tokens, glued]

end IsWrittenAs

private theorem isWrittenAs_tight (clause : Clause) : clause.IsWrittenAs clause.tight.toList := by
  rw [tight, String.toList_ofList]
  cases clause with
  | blank => exact .blank Text.isBlanks_nil
  | between low high =>
      have blank : Text.IsBlanks [' '] := List.all_eq_true.mp rfl
      have same : [' '].intercalate (tokens (.between low high)) =
          low.chars ++ ([' '] ++ '-' :: ([' '] ++ high.chars)) := by
        simp [tokens, List.intercalate_cons_cons]
      rw [same]
      exact .between (.refl _) blank (List.cons_ne_nil _ _) blank (List.cons_ne_nil _ _)
  | terms first others => exact .terms (.refl _) (.intercalate_tokens first others)

/-! ### Bars -/

variable {clauses : List Clause}

private theorem AreWrittenAs.head?_ne_bar {others : List Clause} (some : clause ≠ .blank)
    (written : AreWrittenAs (clause :: others) text) : text.head? ≠ Option.some '|' := by
  have start {first : List Char} (rest : List Char) (first_written : clause.IsWrittenAs first) :
      (first ++ rest).head? ≠ Option.some '|' := by
    have noBar := first_written.bar_not_mem
    cases first with
    | nil => exact absurd (first_written.words_eq_nil_iff.mp rfl) some
    | cons c later =>
        rw [List.mem_cons, not_or] at noBar
        rw [List.cons_append, List.head?_cons, ne_eq, Option.some.injEq]
        exact Ne.symm noBar.1
  cases written with
  | one written => simpa using start [] written
  | doubleBar written _ => exact start _ written
  | bar written _ _ _ => exact start _ written

def HasWords (clause : Clause) (words : List Word) : Prop :=
  ∃ text, clause.IsWrittenAs text ∧ words = Text.words text

theorem AreWrittenAs.exists_alternativesOfPiece (written : AreWrittenAs clauses text)
    (source : String) :
    ∃ piece pieces first lists, Text.cutAtDoubleBars text = piece :: pieces ∧
      alternativesOfPiece source piece = .ok first ∧ first ≠ [] ∧
      pieces.mapM (alternativesOfPiece source) = .ok lists ∧
      List.Forall₂ HasWords clauses (first ++ lists.flatten) := by
  induction written with
  | @one clause text written =>
      refine ⟨text, [], [Text.words text], [], ?_, ?_, List.cons_ne_nil _ _, rfl, ?_⟩
      · exact Text.cutAtDoubleBars_eq_singleton written.bar_not_mem
      · exact alternativesOfPiece_of_no_bar written.bar_not_mem
      · exact .cons ⟨text, written, rfl⟩ .nil
  | @doubleBar clause others text rest written behind ih =>
      obtain ⟨piece, pieces, first, lists, cut, readFirst, -, readLater, words⟩ := ih
      refine ⟨text, piece :: pieces, [Text.words text], first :: lists, ?_, ?_,
        List.cons_ne_nil _ _, ?_, .cons ⟨text, written, rfl⟩ words⟩
      · rw [Text.cutAtDoubleBars_append_bars written.bar_not_mem, cut]
      · exact alternativesOfPiece_of_no_bar written.bar_not_mem
      · exact Outcome.mapM_eq_ok_iff.mpr (.cons readFirst (Outcome.mapM_eq_ok_iff.mp readLater))
  | @bar clause next others text rest written some someNext behind ih =>
      obtain ⟨piece, pieces, first, lists, cut, readFirst, nonempty, readLater, words⟩ := ih
      obtain ⟨head, tail, rfl⟩ := List.exists_cons_of_ne_nil nonempty
      have someHead : head ≠ [] := by
        rw [List.cons_append] at words
        cases words with
        | cons ofNext _ =>
            obtain ⟨_, writtenNext, rfl⟩ := ofNext
            exact mt writtenNext.words_eq_nil_iff.mp someNext
      refine ⟨text ++ '|' :: piece, pieces, Text.words text :: head :: tail, lists, ?_, ?_,
        List.cons_ne_nil _ _, readLater, .cons ⟨text, written, rfl⟩ words⟩
      · rw [Text.cutAtDoubleBars_append_bar written.bar_not_mem (behind.head?_ne_bar someNext),
          cut, List.modifyHead_cons]
      · exact alternativesOfPiece_append_bar written.bar_not_mem
          (mt written.words_eq_nil_iff.mp some) readFirst someHead

private theorem AreWrittenAs.exists_alternatives {source : String}
    (written : AreWrittenAs clauses source.toList) :
    ∃ lists, alternatives source = .ok lists ∧ List.Forall₂ HasWords clauses lists := by
  obtain ⟨piece, pieces, first, lists, cut, readFirst, -, readLater, words⟩ :=
    written.exists_alternativesOfPiece source
  refine ⟨first ++ lists.flatten, Outcome.map_eq_ok_iff.mpr ⟨first :: lists, ?_, rfl⟩, words⟩
  rw [cut]
  exact Outcome.mapM_eq_ok_iff.mpr (.cons readFirst (Outcome.mapM_eq_ok_iff.mp readLater))

theorem AreWrittenAs.read_eq {options : Options} {source : String}
    (written : AreWrittenAs clauses source.toList) :
    read options source = clauses.mapM fun clause => readBranch options source clause.tokens := by
  obtain ⟨lists, cut, words⟩ := written.exists_alternatives
  rw [read, cut]
  change lists.mapM (readBranch options source) = _
  clear written cut
  induction words with
  | nil => rfl
  | cons ofClause _ ih =>
      obtain ⟨_, written, rfl⟩ := ofClause
      rw [List.mapM_cons, List.mapM_cons, written.readBranch_words, ih]

/-! ### Clauses that stand alone -/

variable {options : Options} {reading : Reading}

theorem AreWrittenAs.read_eq_ok_iff_of_singleton {source : String} {branches : List Branch}
    (written : AreWrittenAs [clause] source.toList) : read options source = .ok branches ↔
      ∃ branch, branches = [branch] ∧ readBranch options source clause.tokens = .ok branch := by
  rw [written.read_eq, Outcome.mapM_eq_ok_iff]
  simp [List.forall₂_cons_left_iff, and_comm]

theorem read_tight_eq_ok_iff {clause : Clause} (source : String) :
    (Grammar.npm options).read clause.tight = .ok reading ↔
      ∃ branch, reading = ⟨[branch], none⟩ ∧
        readBranch options source clause.tokens = .ok branch := by
  have alone : AreWrittenAs [clause] clause.tight.toList := .one clause.isWrittenAs_tight
  rw [Grammar.read_npm_eq_ok_iff, alone.read_eq_ok_iff_of_singleton]
  obtain ⟨branches, preferred⟩ := reading
  constructor
  · rintro ⟨rfl, branch, rfl, found⟩
    exact ⟨branch, rfl, readBranch_eq_ok found⟩
  · rintro ⟨branch, ⟨⟩, found⟩
    exact ⟨rfl, branch, rfl, readBranch_eq_ok found⟩

theorem readBranch_between_eq_ok_iff {source : String} {low high : DescriptorWord}
    {branch : Branch} : readBranch options source (tokens (.between low high)) = .ok branch ↔
      ∃ first last, Descriptor.ofChars options.dialect low.chars = .ok first ∧
        Descriptor.ofChars options.dialect high.chars = .ok last ∧
        hyphen options first last = .ok branch := by
  have some : tokens (.between low high) ≠ [] := List.cons_ne_nil _ _
  rw [readBranch_of_ne_nil some, glue_eq standsAlone_of_mem_tokens, tokens, readTokens]
  simp only [Outcome.bind_eq_ok_iff, exists_and_left]

theorem readBranch_terms_eq_ok_iff {source : String} {first : Term} {others : List Term}
    {branch : Branch} : readBranch options source (tokens (.terms first others)) = .ok branch ↔
      ∃ branches, List.Forall₂ (fun (term : Term) branch =>
        readTerm options source term.token = .ok branch) (first :: others) branches ∧
          branches.flatten = branch := by
  have noDash (low high : Word) : tokens (.terms first others) ≠ [low, ['-'], high] := by
    intro same
    have member : ['-'] ∈ (first :: others).map Term.token := by
      rw [← tokens, same]
      exact List.mem_cons_of_mem _ List.mem_cons_self
    obtain ⟨term, -, dash⟩ := List.mem_map.mp member
    exact term.descriptor.append_ne_dash _ dash
  have some : tokens (.terms first others) ≠ [] := List.cons_ne_nil _ _
  rw [readBranch_of_ne_nil some, glue_eq standsAlone_of_mem_tokens]
  unfold readTokens
  split
  · next low high same => exact absurd same (noDash low high)
  · rw [Outcome.map_eq_ok_iff, tokens]
    simp only [Outcome.mapM_eq_ok_iff, List.forall₂_map_left_iff]

theorem readBranch_term_eq_ok_iff {source : String} {term : Term} {branch : Branch} :
    readBranch options source (tokens (.terms term [])) = .ok branch ↔
      readTerm options source term.token = .ok branch := by
  rw [readBranch_terms_eq_ok_iff]
  constructor
  · rintro ⟨branches, each, rfl⟩
    cases each with
    | cons found none =>
        cases none
        simpa using found
  · intro found
    exact ⟨[branch], .cons found .nil, List.flatten_singleton⟩

end Clause

end Npm

namespace Grammar

open Npm (Clause)

/-- What a text of npm clauses is read as does not depend on its layout. It is read exactly if each
clause is that stands alone and is written as tightly as can be, and as the same branches in the
same order. A clause of terms is read as its terms are one after the other, a blank one as `*`. -/
theorem read_npm_layout {clauses : List Clause} {source : String}
    (written : Clause.AreWrittenAs clauses source.toList) (options : Npm.Options) :
    ((∃ reading, (npm options).read source = .ok reading) ↔
      ∀ clause ∈ clauses, ∃ reading, (npm options).read clause.tight = .ok reading) ∧
    (∀ reading, (npm options).read source = .ok reading ↔ reading.preferred = none ∧
      List.Forall₂ (fun (clause : Clause) branch =>
        (npm options).read clause.tight = .ok ⟨[branch], none⟩) clauses reading.branches) ∧
    (∀ (first : Npm.Term) (others : List Npm.Term) (branch : Branch),
      (npm options).read (Clause.terms first others).tight = .ok ⟨[branch], none⟩ ↔
        ∃ branches, List.Forall₂ (fun (term : Npm.Term) branch =>
          (npm options).read (Clause.terms term []).tight = .ok ⟨[branch], none⟩)
            (first :: others) branches ∧ branches.flatten = branch) ∧
    (npm options).read Clause.blank.tight = .ok ⟨[[.any]], none⟩ := by
  have tight (clause : Clause) (branch : Branch) :
      (npm options).read clause.tight = .ok ⟨[branch], none⟩ ↔
        Npm.readBranch options source clause.tokens = .ok branch := by
    rw [Clause.read_tight_eq_ok_iff source]
    simp
  have whole (reading : Reading) : (npm options).read source = .ok reading ↔
      reading.preferred = none ∧ List.Forall₂ (fun (clause : Clause) branch =>
        (npm options).read clause.tight = .ok ⟨[branch], none⟩) clauses reading.branches := by
    rw [read_npm_eq_ok_iff, written.read_eq, Outcome.mapM_eq_ok_iff]
    simp only [tight]
  refine ⟨?_, whole, fun first others branch => ?_, ?_⟩
  · have reads : (∃ reading, (npm options).read source = .ok reading) ↔
        ∃ branches, clauses.mapM (fun clause => Npm.readBranch options source clause.tokens) =
          .ok branches := by
      simp only [read_npm_eq_ok_iff, written.read_eq]
      exact ⟨fun ⟨reading, _, found⟩ => ⟨reading.branches, found⟩,
        fun ⟨branches, found⟩ => ⟨⟨branches, none⟩, rfl, found⟩⟩
    rw [reads, Outcome.exists_mapM_eq_ok_iff]
    simp [Clause.read_tight_eq_ok_iff source]
  · rw [tight, Clause.readBranch_terms_eq_ok_iff]
    simp only [tight, Clause.readBranch_term_eq_ok_iff]
  · rw [tight]
    rfl

theorem read_npm_layout_bars : ∃ clauses : List Clause,
    Clause.AreWrittenAs clauses "~>\t1.2|\u00A0<2||".toList ∧
      ∃ reading, (npm .standard).read "~>\t1.2|\u00A0<2||" = .ok reading ∧
        reading.branches[2]? = some [.any] := by
  have solid : ∀ c ∈ ['1', '.', '2'], Text.isBlank c = false :=
    fun c member => Bool.eq_false_iff.mpr (List.any_eq_false.mp rfl c member)
  let tilde : Npm.Term :=
    { mark := "~>"
      descriptor := ⟨['1', '.', '2'], solid, .standard, _, rfl⟩
      spelled := ⟨.tilde, by decide⟩
      apart := by simp }
  let less : Npm.Term :=
    { mark := "<"
      descriptor := ⟨['2'], List.forall_mem_singleton.mpr rfl, .standard, _, rfl⟩
      spelled := ⟨.less, by decide⟩
      apart := by simp }
  let clauses : List Clause := [.terms tilde [], .terms less [], .blank]
  have written : Clause.AreWrittenAs clauses "~>\t1.2|\u00A0<2||".toList := by
    have first : Npm.AreWrittenAs [tilde] ("~>".toList ++ (['\t'] ++ ['1', '.', '2'])) :=
      @Npm.AreWrittenAs.one tilde ['\t'] (List.all_eq_true.mp rfl)
    have second : Npm.AreWrittenAs [less] ("<".toList ++ ([] ++ ['2'])) :=
      @Npm.AreWrittenAs.one less [] Text.isBlanks_nil
    have around : Text.Surrounds ['\u00A0', '<', '2'] ['<', '2'] :=
      (Text.Surrounds.refl _).cons rfl
    exact .bar (.terms (.refl _) first) nofun nofun
      (.doubleBar (.terms around second) (.one (.blank Text.isBlanks_nil)))
  obtain ⟨first, readFirst⟩ : ∃ branch,
      Npm.readBranch .standard "" ["~>".toList ++ ['1', '.', '2']] = .ok branch := ⟨_, rfl⟩
  obtain ⟨second, readSecond⟩ : ∃ branch,
      Npm.readBranch .standard "" ["<".toList ++ ['2']] = .ok branch := ⟨_, rfl⟩
  have each : List.Forall₂ (fun (clause : Clause) branch =>
      (npm .standard).read clause.tight = .ok ⟨[branch], none⟩) clauses
        [first, second, [.any]] := by
    simp only [Clause.read_tight_eq_ok_iff ""]
    exact .cons ⟨_, rfl, readFirst⟩ (.cons ⟨_, rfl, readSecond⟩ (.cons ⟨_, rfl, rfl⟩ .nil))
  exact ⟨clauses, written, ⟨[first, second, [.any]], none⟩,
    ((read_npm_layout written .standard).2.1 _).mpr ⟨rfl, each⟩, rfl⟩

end Grammar

end Versioning
