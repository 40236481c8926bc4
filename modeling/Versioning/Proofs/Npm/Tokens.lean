import Versioning.Proofs.Npm.Layout

/-!
Tokens of npm texts. Each alternative of a text that is not blank is cut into tokens, and these are
the ends of a hyphen range or terms. No blank stands in a token, and each one begins with a spelling
of its sigil; in front of an ordered comparison this is a spelling of an operator as well.
-/

namespace Versioning

namespace Npm

variable {options : Options} {source : String} {alternatives : List (List Word)}
  {tokens : List Word} {token : Word} {branch : Branch} {branches : List Branch}
  {error : ConstraintError}

/-! ### Sigils -/

namespace Sigil

theorem exists_spelling (token : Word) : ∃ mark, (mark, (read token).1) ∈ spellings ∧
    token = mark.toList ++ (read token).2 := by
  unfold read
  split
  · exact ⟨"<=", by simp [spellings], rfl⟩
  · exact ⟨">=", by simp [spellings], rfl⟩
  · exact ⟨"=<", by simp [spellings], rfl⟩
  · exact ⟨"=>", by simp [spellings], rfl⟩
  · exact ⟨"!=", by simp [spellings], rfl⟩
  · exact ⟨"~>", by simp [spellings], rfl⟩
  · exact ⟨"~", by simp [spellings], rfl⟩
  · exact ⟨"^", by simp [spellings], rfl⟩
  · exact ⟨"<", by simp [spellings], rfl⟩
  · exact ⟨">", by simp [spellings], rfl⟩
  · exact ⟨"=", by simp [spellings], rfl⟩
  · exact ⟨"", by simp [spellings], rfl⟩

theorem exists_operator {mark : String} {sigil : Sigil} (spelled : (mark, sigil) ∈ spellings)
    (ordered : sigil ∉ [.plain, .tilde, .caret, .notEqual]) : ∃ operator,
      Operator.parse mark = .ok operator ∧ sigilOf operator = sigil ∧
        operator ≠ .equal ∧ operator ≠ .notEqual := by
  have each : ∀ spelling ∈ spellings, spelling.2 ∉ [.plain, .tilde, .caret, .notEqual] →
      (Operator.spellings.lookup spelling.1).any
        (fun operator => sigilOf operator = spelling.2) = true := by decide
  obtain ⟨operator, found, same⟩ := (Option.any_eq_true _ _).mp (each _ spelled ordered)
  obtain rfl := of_decide_eq_true same
  refine ⟨operator, ?_, rfl, ?_, ?_⟩
  · rw [Operator.parse, found]
  · intro equal
    subst equal
    exact ordered (by decide)
  · intro notEqual
    subst notEqual
    exact ordered (by decide)

end Sigil

/-! ### Tokens -/

/-- Whether an alternative of a text, other than a blank one, has these tokens. -/
def HasTokens (source : String) (tokens : List Word) : Prop :=
  ∃ alternatives, Npm.alternatives source = .ok alternatives ∧
    ∃ words ∈ alternatives, words ≠ [] ∧ glue [] words = tokens

private theorem solid_of_mem_glue {pending : Word} {words : List Word}
    (solid : ∀ c ∈ pending, Text.isBlank c = false)
    (solidWords : ∀ word ∈ words, ∀ c ∈ word, Text.isBlank c = false) :
    ∀ token ∈ glue pending words, ∀ c ∈ token, Text.isBlank c = false := by
  induction words generalizing pending with
  | nil =>
      intro token member
      rw [glue] at member
      split at member
      · cases member
      · cases List.mem_singleton.mp member
        exact solid
  | cons word rest ih =>
      obtain ⟨solidWord, solidRest⟩ := List.forall_mem_cons.mp solidWords
      have joined : ∀ c ∈ pending ++ word, Text.isBlank c = false :=
        List.forall_mem_append.mpr ⟨solid, solidWord⟩
      rw [glue]
      split
      · exact ih joined solidRest
      · exact List.forall_mem_cons.mpr ⟨joined, ih (List.forall_mem_nil _) solidRest⟩

private theorem HasTokens.solid (has : HasTokens source tokens) :
    ∀ token ∈ tokens, ∀ c ∈ token, Text.isBlank c = false := by
  obtain ⟨alternatives, cut, words, member, -, same⟩ := has
  obtain ⟨text, ofText⟩ := exists_words_of_alternatives cut words member
  rw [← same, ← ofText]
  apply solid_of_mem_glue (List.forall_mem_nil _)
  intro word among c inside
  exact Text.solid_of_mem_words among inside

/-- How a token begins. Its sigil is written as some mark, and what follows stands on one line. In
front of an ordered comparison the mark is that of an operator, which is neither `=` nor `!=`. -/
structure IsMarked (token : Word) (mark : String) : Prop where
  spelled : (mark, (Sigil.read token).1) ∈ Sigil.spellings
  split : token = mark.toList ++ (Sigil.read token).2
  oneLine : '\n' ∉ (Sigil.read token).2
  ordered : (Sigil.read token).1 ∉ [.plain, .tilde, .caret, .notEqual] → ∃ operator,
    Operator.parse mark = .ok operator ∧ sigilOf operator = (Sigil.read token).1 ∧
      operator ≠ .equal ∧ operator ≠ .notEqual

theorem HasTokens.exists_isMarked (has : HasTokens source tokens) :
    ∀ token ∈ tokens, ∃ mark, IsMarked token mark := by
  intro token member
  obtain ⟨mark, spelled, split⟩ := Sigil.exists_spelling token
  refine ⟨mark, spelled, split, ?_, Sigil.exists_operator spelled⟩
  intro newline
  have inside : '\n' ∈ token := by
    rw [split]
    exact List.mem_append_right _ newline
  have solid := has.solid token member '\n' inside
  contradiction

def HasRange (source : String) (low high : Word) : Prop := HasTokens source [low, ['-'], high]

def HasTerm (source : String) (sigil : Sigil) (word : Word) : Prop :=
  ∃ tokens, HasTokens source tokens ∧ (∀ low high, tokens ≠ [low, ['-'], high]) ∧
    ∃ token ∈ tokens, Sigil.read token = (sigil, word)

/-- Whether a word of a text has to be a descriptor, as a term or as an end of a hyphen range. -/
inductive NamesDescriptor (source : String) : Word → Prop
  | term {sigil : Sigil} {word : Word} (has : HasTerm source sigil word) :
      NamesDescriptor source word
  | low {low high : Word} (has : HasRange source low high) : NamesDescriptor source low
  | high {low high : Word} (has : HasRange source low high) : NamesDescriptor source high

/-! ### Reading -/

theorem readTokens_of_apart (apart : ∀ low high, tokens ≠ [low, ['-'], high]) :
    readTokens options source tokens =
      (tokens.mapM (readTerm options source)).map List.flatten := by
  unfold readTokens
  split
  · next low high => exact absurd rfl (apart low high)
  · rfl

theorem exists_readTokens_of_read (found : read options source = .ok branches)
    (has : HasTokens source tokens) :
    ∃ branch, readTokens options source tokens = .ok branch := by
  obtain ⟨alternatives, cut, words, member, some, same⟩ := has
  obtain ⟨others, again, each⟩ := Outcome.bind_eq_ok_iff.mp found
  cases cut.symm.trans again
  obtain ⟨branch, readWords⟩ := Outcome.exists_mapM_eq_ok_iff.mp ⟨branches, each⟩ words member
  rw [readBranch_of_ne_nil some, same] at readWords
  exact ⟨branch, readWords⟩

theorem exists_term_of_read {sigil : Sigil} {word : Word}
    (found : read options source = .ok branches) (has : HasTerm source sigil word) :
    ∃ descriptor, Descriptor.ofChars options.dialect word = .ok descriptor ∧
      ∃ branch, term options source sigil descriptor = .ok branch := by
  obtain ⟨tokens, hasTokens, apart, token, member, split⟩ := has
  obtain ⟨whole, readWhole⟩ := exists_readTokens_of_read found hasTokens
  rw [readTokens_of_apart apart] at readWhole
  obtain ⟨parts, readParts, -⟩ := Outcome.map_eq_ok_iff.mp readWhole
  obtain ⟨branch, readToken⟩ := Outcome.exists_mapM_eq_ok_iff.mp ⟨parts, readParts⟩ token member
  obtain ⟨descriptor, described, ofTerm⟩ := readTerm_eq_ok_iff.mp readToken
  rw [split] at described ofTerm
  exact ⟨descriptor, described, branch, ofTerm⟩

theorem exists_hyphen_of_read {low high : Word} (found : read options source = .ok branches)
    (has : HasRange source low high) :
    ∃ first last, Descriptor.ofChars options.dialect low = .ok first ∧
      Descriptor.ofChars options.dialect high = .ok last ∧
      ∃ branch, hyphen options first last = .ok branch := by
  obtain ⟨branch, readRange⟩ := exists_readTokens_of_read found has
  obtain ⟨first, describedFirst, readRest⟩ := Outcome.bind_eq_ok_iff.mp readRange
  obtain ⟨last, describedLast, ofRange⟩ := Outcome.bind_eq_ok_iff.mp readRest
  exact ⟨first, last, describedFirst, describedLast, branch, ofRange⟩

theorem exists_of_read_eq_error (failed : read options source = .error error) :
    Npm.alternatives source = .error error ∨
      ∃ tokens, HasTokens source tokens ∧ readTokens options source tokens = .error error := by
  apply (Outcome.bind_eq_error_iff.mp failed).imp_right
  intro ofBranch
  obtain ⟨alternatives, cut, each⟩ := ofBranch
  obtain ⟨front, words, back, same, -, readWords⟩ := Outcome.mapM_eq_error_iff.mp each
  have member : words ∈ alternatives := by simp [same]
  have some : words ≠ [] := by
    intro none
    rw [none] at readWords
    cases readWords
  rw [readBranch_of_ne_nil some] at readWords
  exact ⟨glue [] words, ⟨alternatives, cut, words, member, some, rfl⟩, readWords⟩

theorem exists_readTerm_of_readTokens (apart : ∀ low high, tokens ≠ [low, ['-'], high])
    (failed : readTokens options source tokens = .error error) :
    ∃ token ∈ tokens, readTerm options source token = .error error := by
  rw [readTokens_of_apart apart] at failed
  obtain ⟨front, token, back, same, -, readToken⟩ :=
    Outcome.mapM_eq_error_iff.mp (Outcome.map_eq_error_iff.mp failed)
  exact ⟨token, by simp [same], readToken⟩

/-! ### Branches -/

private theorem ne_nil_of_alternativesOfPiece {piece : List Char}
    (cut : alternativesOfPiece source piece = .ok alternatives) : alternatives ≠ [] := by
  intro none
  rw [none] at cut
  unfold alternativesOfPiece at cut
  split at cut
  · have pairs := Outcome.mapM_eq_ok_iff.mp cut
    exact List.splitOn_ne_nil _ _ (List.forall₂_nil_right_iff.mp pairs)
  · cases cut

theorem alternatives_ne_nil (cut : Npm.alternatives source = .ok alternatives) :
    alternatives ≠ [] := by
  obtain ⟨lists, pieces, same⟩ := Outcome.map_eq_ok_iff.mp cut
  intro none
  rw [← same, List.flatten_eq_nil_iff] at none
  cases lists with
  | nil =>
      have pairs := Outcome.mapM_eq_ok_iff.mp pieces
      exact Text.cutAtDoubleBars_ne_nil _ (List.forall₂_nil_right_iff.mp pairs)
  | cons list rest =>
      obtain ⟨piece, -, ofPiece⟩ := Outcome.exists_of_mem_mapM pieces List.mem_cons_self
      exact ne_nil_of_alternativesOfPiece ofPiece (none list List.mem_cons_self)

theorem branches_ne_nil (found : read options source = .ok branches) : branches ≠ [] := by
  obtain ⟨alternatives, cut, each⟩ := Outcome.bind_eq_ok_iff.mp found
  intro none
  rw [none] at each
  have pairs := Outcome.mapM_eq_ok_iff.mp each
  exact alternatives_ne_nil cut (List.forall₂_nil_right_iff.mp pairs)

theorem branch_ne_nil (found : read options source = .ok branches) :
    ∀ branch ∈ branches, branch ≠ [] := by
  intro branch member
  obtain ⟨alternatives, cut, -⟩ := Outcome.bind_eq_ok_iff.mp found
  obtain ⟨words, -, made⟩ := isMadeOf_read cut found branch member
  exact made.ne_nil

end Npm

end Versioning
