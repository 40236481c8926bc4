import Mathlib.Data.List.TakeWhile
import Versioning.Proofs.Outcome
import Versioning.Text.Blank
import Versioning.Text.Cut

/-!
Words and cuts of texts that are put together from smaller ones. Blanks at the ends of a text change
none of its words, and a blank anywhere separates the words before it from those after it.
-/

namespace Versioning

namespace Text

theorem isBlank_eq_false {c : Char} (above : 0x20 < c.toNat) (below : c.toNat < 0x7F) :
    isBlank c = false := by
  simp only [isBlank, blankRuns, List.any_cons, List.any_nil, Bool.or_false, Bool.or_eq_false_iff,
    Bool.and_eq_false_iff, decide_eq_false_iff_not]
  omega

theorem ne_of_class {p : Char → Bool} {c other : Char} (inside : p c = true)
    (outside : p other = false) : c ≠ other := by
  rintro rfl
  rw [inside] at outside
  contradiction

/-! ### Words -/

theorem words_append_cons {c : Char} (front back : List Char) (blank : isBlank c = true) :
    words (front ++ c :: back) = words front ++ words back := by
  unfold words
  rw [List.splitOnP_append_cons front back blank, List.filter_append]

theorem words_nil : words [] = [] := rfl

private theorem words_cons {c : Char} (text : List Char) (blank : isBlank c = true) :
    words (c :: text) = words text := words_append_cons [] text blank

theorem words_eq_singleton {word : List Char} (nonempty : word ≠ [])
    (solid : ∀ c ∈ word, isBlank c = false) : words word = [word] := by
  unfold words
  rw [List.splitOnP_eq_singleton solid]
  simp [nonempty]

private theorem exists_mem_splitOnP {p : Char → Bool} {c : Char} {text : List Char}
    (member : c ∈ text) (other : p c = false) : ∃ part ∈ text.splitOnP p, c ∈ part := by
  induction text with
  | nil => cases member
  | cons first rest ih =>
      rw [List.splitOnP_cons_eq_if_modifyHead]
      split
      · next mark =>
        have later : c ∈ rest := by
          rcases List.mem_cons.mp member with rfl | later
          · rw [other] at mark
            contradiction
          · exact later
        obtain ⟨part, among, inside⟩ := ih later
        exact ⟨part, List.mem_cons_of_mem _ among, inside⟩
      · cases cut : rest.splitOnP p with
        | nil => exact absurd cut (List.splitOnP_ne_nil _ _)
        | cons head parts =>
            rw [cut] at ih
            rw [List.modifyHead_cons]
            rcases List.mem_cons.mp member with rfl | later
            · exact ⟨c :: head, List.mem_cons_self, List.mem_cons_self⟩
            · obtain ⟨part, among, inside⟩ := ih later
              rcases List.mem_cons.mp among with rfl | behind
              · exact ⟨first :: part, List.mem_cons_self, List.mem_cons_of_mem _ inside⟩
              · exact ⟨part, List.mem_cons_of_mem _ behind, inside⟩

theorem exists_mem_words {c : Char} {text : List Char} (member : c ∈ text)
    (solid : isBlank c = false) : ∃ word ∈ words text, c ∈ word := by
  obtain ⟨part, among, inside⟩ := exists_mem_splitOnP member solid
  refine ⟨part, List.mem_filter.mpr ⟨among, ?_⟩, inside⟩
  simpa using List.ne_nil_of_mem inside

/-- Words with a blank between each two of them are the words of the text that they make. -/
theorem words_intercalate {list : List (List Char)} (nonempty : ∀ word ∈ list, word ≠ [])
    (solid : ∀ word ∈ list, ∀ c ∈ word, isBlank c = false) :
    words ([' '].intercalate list) = list := by
  induction list with
  | nil => rfl
  | cons word rest ih =>
      obtain ⟨first, later⟩ := List.forall_mem_cons.mp nonempty
      obtain ⟨solidFirst, solidLater⟩ := List.forall_mem_cons.mp solid
      have alone : words word = [word] := words_eq_singleton first solidFirst
      cases rest with
      | nil => rw [List.intercalate_singleton, alone]
      | cons next others =>
          rw [List.intercalate_cons_cons, List.append_assoc, List.singleton_append,
            words_append_cons _ _ (by decide), alone, ih later solidLater, List.singleton_append]

theorem mem_intercalate {mark c : Char} {parts : List (List Char)}
    (member : c ∈ [mark].intercalate parts) : c = mark ∨ ∃ part ∈ parts, c ∈ part := by
  induction parts with
  | nil => cases member
  | cons part rest ih =>
      cases rest with
      | nil =>
          rw [List.intercalate_singleton] at member
          exact .inr ⟨part, List.mem_cons_self, member⟩
      | cons next others =>
          rw [List.intercalate_cons_cons, List.append_assoc, List.mem_append, List.mem_append,
            List.mem_singleton] at member
          rcases member with first | dot | later
          · exact .inr ⟨part, List.mem_cons_self, first⟩
          · exact .inl dot
          · rcases ih later with dot | ⟨found, among, inside⟩
            · exact .inl dot
            · exact .inr ⟨found, List.mem_cons_of_mem _ among, inside⟩

private theorem intercalate_append {mark : List Char} {front back : List (List Char)}
    (someFront : front ≠ []) (someBack : back ≠ []) :
    mark.intercalate (front ++ back) = mark.intercalate front ++ mark ++ mark.intercalate back := by
  induction front with
  | nil => contradiction
  | cons part rest ih =>
      cases rest with
      | nil =>
          obtain ⟨next, others, rfl⟩ := List.exists_cons_of_ne_nil someBack
          rw [List.singleton_append, List.intercalate_cons_cons, List.intercalate_singleton]
      | cons next others =>
          rw [List.cons_append, List.cons_append, List.intercalate_cons_cons,
            List.intercalate_cons_cons, ← List.cons_append, ih (List.cons_ne_nil _ _)]
          simp only [List.append_assoc]

theorem intercalate_flatMap {α : Type} {mark : List Char} {parts : α → List (List Char)}
    {items : List α} (some : ∀ item ∈ items, parts item ≠ []) :
    mark.intercalate (items.flatMap parts) =
      mark.intercalate (items.map fun item => mark.intercalate (parts item)) := by
  induction items with
  | nil => rfl
  | cons item rest ih =>
      obtain ⟨first, later⟩ := List.forall_mem_cons.mp some
      cases rest with
      | nil => simp
      | cons next others =>
          have someLater : (next :: others).flatMap parts ≠ [] := by
            rw [List.flatMap_cons]
            exact List.append_ne_nil_of_left_ne_nil (later next List.mem_cons_self) _
          rw [List.flatMap_cons, intercalate_append first someLater, ih later, List.map_cons,
            List.map_cons, List.map_cons, List.intercalate_cons_cons]

/-! ### Blanks around a text -/

theorem not_isBlankText {c : Char} {text : List Char} (member : c ∈ text)
    (solid : isBlank c = false) : ¬isBlankText text = true := by
  intro blank
  have first := List.all_eq_true.mp blank c member
  rw [solid] at first
  contradiction

abbrev IsBlanks (text : List Char) : Prop := ∀ c ∈ text, isBlank c = true

theorem isBlanks_nil : IsBlanks [] := List.forall_mem_nil _

theorem words_append_blanks (text : List Char) {blanks : List Char} (blank : IsBlanks blanks) :
    words (text ++ blanks) = words text := by
  induction blanks generalizing text with
  | nil => rw [List.append_nil]
  | cons c rest ih =>
      obtain ⟨first, later⟩ := List.forall_mem_cons.mp blank
      rw [words_append_cons text rest first, ← List.nil_append rest, ih [] later, words_nil,
        List.append_nil]

theorem words_blanks_append (text : List Char) {blanks : List Char} (blank : IsBlanks blanks) :
    words (blanks ++ text) = words text := by
  induction blanks with
  | nil => rw [List.nil_append]
  | cons c rest ih =>
      obtain ⟨first, later⟩ := List.forall_mem_cons.mp blank
      rw [List.cons_append, words_cons _ first, ih later]

theorem words_append_gap (front back : List Char) {gap : List Char} (some : gap ≠ [])
    (blank : IsBlanks gap) : words (front ++ (gap ++ back)) = words front ++ words back := by
  obtain ⟨c, rest, rfl⟩ := List.exists_cons_of_ne_nil some
  obtain ⟨first, later⟩ := List.forall_mem_cons.mp blank
  rw [List.cons_append, words_append_cons _ _ first, words_blanks_append back later]

theorem not_mem_of_isBlanks {mark : Char} {blanks : List Char} (solid : isBlank mark = false)
    (blank : IsBlanks blanks) : mark ∉ blanks := by
  intro member
  rw [blank mark member] at solid
  contradiction

def Trails (outer inner : List Char) : Prop := ∃ back, IsBlanks back ∧ outer = inner ++ back

/-- Whether a text is another one with blanks in front of it and behind it. -/
def Surrounds (outer inner : List Char) : Prop :=
  ∃ front back, IsBlanks front ∧ IsBlanks back ∧ outer = front ++ inner ++ back

theorem Surrounds.words_eq {outer inner : List Char} (around : Surrounds outer inner) :
    words outer = words inner := by
  obtain ⟨front, back, blankFront, blankBack, rfl⟩ := around
  rw [words_append_blanks _ blankBack, words_blanks_append _ blankFront]

theorem Surrounds.refl (text : List Char) : Surrounds text text :=
  ⟨[], [], isBlanks_nil, isBlanks_nil, by simp⟩

theorem Trails.surrounds {outer inner : List Char} (behind : Trails outer inner) :
    Surrounds outer inner := by
  obtain ⟨back, blank, rfl⟩ := behind
  exact ⟨[], back, isBlanks_nil, blank, by simp⟩

theorem Surrounds.cons {c : Char} {outer inner : List Char} (blank : isBlank c = true)
    (around : Surrounds outer inner) : Surrounds (c :: outer) inner := by
  obtain ⟨front, back, blankFront, blankBack, rfl⟩ := around
  exact ⟨c :: front, back, List.forall_mem_cons.mpr ⟨blank, blankFront⟩, blankBack, rfl⟩

theorem dropWhile_isBlank_eq {text : List Char} (solid : ∀ c ∈ text.head?, isBlank c = false) :
    text.dropWhile isBlank = text := by
  cases text with
  | nil => rfl
  | cons c rest => rw [List.dropWhile_cons, solid c rfl, if_neg Bool.false_ne_true]

theorem Surrounds.trim_eq {outer inner : List Char} (around : Surrounds outer inner)
    (solid : ∀ c ∈ inner, isBlank c = false) : trim outer = inner := by
  obtain ⟨front, back, blankFront, blankBack, rfl⟩ := around
  have ofHead {text : List Char} (each : ∀ c ∈ text, isBlank c = false) :
      ∀ c ∈ text.head?, isBlank c = false :=
    fun c first => each c (List.mem_of_mem_head? first)
  rw [trim, List.append_assoc, List.dropWhile_append_of_pos blankFront]
  cases inner with
  | nil =>
      have gone : back.dropWhile isBlank = [] := List.dropWhile_eq_nil_iff.mpr blankBack
      rw [List.nil_append, gone]
      rfl
  | cons c rest =>
      have first : ∀ d ∈ (c :: rest ++ back).head?, isBlank d = false := by
        rintro d ⟨⟩
        exact solid c List.mem_cons_self
      rw [dropWhile_isBlank_eq first, List.reverse_append,
        List.dropWhile_append_of_pos fun d member => blankBack d (List.mem_reverse.mp member),
        dropWhile_isBlank_eq (ofHead fun d member => solid d (List.mem_reverse.mp member)),
        List.reverse_reverse]

theorem trim_eq {text : List Char} (solid : ∀ c ∈ text, isBlank c = false) : trim text = text :=
  (Surrounds.refl text).trim_eq solid

theorem trim_append_append {front core blanks : List Char} (nonempty : core ≠ [])
    (solid : ∀ c ∈ core, isBlank c = false) (blank : IsBlanks blanks) :
    trim (front ++ core ++ blanks) = front.dropWhile isBlank ++ core := by
  have ahead : (front ++ core ++ blanks).dropWhile isBlank =
      front.dropWhile isBlank ++ core ++ blanks := by
    obtain ⟨c, rest, rfl⟩ := List.exists_cons_of_ne_nil nonempty
    have stops : (c :: rest ++ blanks).dropWhile isBlank = c :: rest ++ blanks := by
      refine dropWhile_isBlank_eq ?_
      rintro d ⟨⟩
      exact solid c List.mem_cons_self
    rw [List.append_assoc, List.dropWhile_append, List.append_assoc, stops]
    split
    · next gone => rw [List.isEmpty_iff.mp gone, List.nil_append]
    · rfl
  obtain ⟨c, rest, reversed⟩ := List.exists_cons_of_ne_nil (List.reverse_ne_nil_iff.mpr nonempty)
  have last : c ∈ core := List.mem_reverse.mp (reversed ▸ List.mem_cons_self)
  rw [trim, ahead, List.reverse_append,
    List.dropWhile_append_of_pos fun d member => blank d (List.mem_reverse.mp member),
    dropWhile_isBlank_eq ?_, List.reverse_reverse]
  rw [List.reverse_append, reversed]
  rintro d ⟨⟩
  exact solid c last

theorem surrounds_trim (text : List Char) : Surrounds text (trim text) := by
  have split (list : List Char) : list.takeWhile isBlank ++ list.dropWhile isBlank = list :=
    List.takeWhile_append_dropWhile
  have blank (list : List Char) : IsBlanks (list.takeWhile isBlank) :=
    fun c member => List.mem_takeWhile_imp member
  let rest := text.dropWhile isBlank
  refine ⟨text.takeWhile isBlank, (rest.reverse.takeWhile isBlank).reverse, blank text,
    fun c member => blank rest.reverse c (List.mem_reverse.mp member), ?_⟩
  rw [trim, List.append_assoc, ← List.reverse_append, split, List.reverse_reverse, split]

/-! ### Cuts at a mark -/

theorem splitOn_append_cons {mark : Char} {front : List Char} (other : mark ∉ front)
    (back : List Char) : (front ++ mark :: back).splitOn mark = front :: back.splitOn mark := by
  have cut : (front ++ mark :: back).splitOn mark = front.splitOn mark ++ back.splitOn mark :=
    List.splitOnP_append_cons front back (beq_self_eq_true mark)
  rw [cut, List.splitOn_eq_singleton other, List.singleton_append]

theorem mem_of_mem_splitOnP {p : Char → Bool} {c : Char} {text part : List Char}
    (among : part ∈ text.splitOnP p) (inside : c ∈ part) : c ∈ text ∧ p c = false := by
  induction text generalizing part with
  | nil =>
      rw [List.splitOnP_nil, List.mem_singleton] at among
      rw [among] at inside
      cases inside
  | cons first rest ih =>
      rw [List.splitOnP_cons_eq_if_modifyHead] at among
      split at among
      · rcases List.mem_cons.mp among with rfl | later
        · cases inside
        · obtain ⟨member, other⟩ := ih later inside
          exact ⟨List.mem_cons_of_mem _ member, other⟩
      · next other =>
        cases cut : rest.splitOnP p with
        | nil => exact absurd cut (List.splitOnP_ne_nil _ _)
        | cons head parts =>
            rw [cut] at ih
            rw [cut, List.modifyHead_cons] at among
            rcases List.mem_cons.mp among with rfl | later
            · rcases List.mem_cons.mp inside with rfl | behind
              · exact ⟨List.mem_cons_self, Bool.eq_false_iff.mpr other⟩
              · obtain ⟨member, apart⟩ := ih List.mem_cons_self behind
                exact ⟨List.mem_cons_of_mem _ member, apart⟩
            · obtain ⟨member, apart⟩ := ih (List.mem_cons_of_mem _ later) inside
              exact ⟨List.mem_cons_of_mem _ member, apart⟩

theorem mem_of_mem_splitOn {mark c : Char} {text part : List Char}
    (among : part ∈ text.splitOn mark) (inside : c ∈ part) : c ∈ text ∧ c ≠ mark := by
  obtain ⟨member, other⟩ := mem_of_mem_splitOnP among inside
  exact ⟨member, beq_eq_false_iff_ne.mp other⟩

theorem solid_of_mem_words {c : Char} {text word : List Char} (member : word ∈ words text)
    (inside : c ∈ word) : isBlank c = false :=
  (mem_of_mem_splitOnP (List.mem_filter.mp member).1 inside).2

theorem words_eq_nil_iff {text : List Char} : words text = [] ↔ IsBlanks text := by
  constructor
  · intro none c member
    by_contra solid
    obtain ⟨word, among, -⟩ := exists_mem_words member (Bool.eq_false_iff.mpr solid)
    rw [none] at among
    cases among
  · intro blank
    have none := words_append_blanks [] blank
    rwa [List.nil_append, words_nil] at none

/-! ### Cuts at bars -/

theorem forall₂_trails_modifyHead (c : Char) {outers inners : List (List Char)}
    (behind : List.Forall₂ Trails outers inners) :
    List.Forall₂ Trails (outers.modifyHead (c :: ·)) (inners.modifyHead (c :: ·)) := by
  cases behind with
  | nil => exact .nil
  | cons first later =>
      obtain ⟨back, blank, rfl⟩ := first
      exact .cons ⟨back, blank, rfl⟩ later

theorem forall₂_surrounds_modifyHead {c : Char} (blank : isBlank c = true)
    {outers inners : List (List Char)} (around : List.Forall₂ Surrounds outers inners) :
    List.Forall₂ Surrounds (outers.modifyHead (c :: ·)) inners := by
  cases around with
  | nil => exact .nil
  | cons first later => exact .cons (first.cons blank) later

private theorem forall₂_trails_splitOn (text : List Char) {blanks : List Char}
    (blank : IsBlanks blanks) :
    List.Forall₂ Trails ((text ++ blanks).splitOn '|') (text.splitOn '|') := by
  induction text with
  | nil =>
      rw [List.nil_append, List.splitOn_eq_singleton (not_mem_of_isBlanks (by decide) blank)]
      exact .cons ⟨blanks, blank, rfl⟩ .nil
  | cons c rest ih =>
      rw [List.cons_append, List.splitOn_cons_eq_if_modifyHead, List.splitOn_cons_eq_if_modifyHead]
      split
      · exact .cons ⟨[], isBlanks_nil, by simp⟩ ih
      · exact forall₂_trails_modifyHead c ih

/-- Blanks around a text stay around the pieces that it is cut into. -/
theorem Surrounds.forall₂_splitOn {outer inner : List Char} (around : Surrounds outer inner) :
    List.Forall₂ Surrounds (outer.splitOn '|') (inner.splitOn '|') := by
  obtain ⟨front, back, blankFront, blankBack, rfl⟩ := around
  rw [List.append_assoc]
  induction front with
  | nil => exact (forall₂_trails_splitOn inner blankBack).imp fun _ _ => Trails.surrounds
  | cons c rest ih =>
      obtain ⟨first, later⟩ := List.forall_mem_cons.mp blankFront
      have other : ¬(c == '|') = true := by
        rintro same
        rw [beq_iff_eq.mp same] at first
        exact absurd first (by decide)
      rw [List.cons_append, List.splitOn_cons_eq_if_modifyHead, if_neg other]
      exact forall₂_surrounds_modifyHead first (ih later)

theorem cutAtDoubleBars_cons {c : Char} (other : c ≠ '|') (text : List Char) :
    cutAtDoubleBars (c :: text) = (cutAtDoubleBars text).modifyHead (c :: ·) := by
  rw [cutAtDoubleBars]
  rintro rest rfl
  contradiction

private theorem exists_cutAtDoubleBars_append (text rest : List Char) :
    ∃ front, cutAtDoubleBars (text ++ ' ' :: '|' :: '|' :: rest) = front ++ cutAtDoubleBars rest ∧
      List.Forall₂ Trails front (cutAtDoubleBars text) := by
  fun_induction cutAtDoubleBars text with
  | case1 => exact ⟨[[' ']], rfl, .cons ⟨[' '], List.all_eq_true.mp rfl, rfl⟩ .nil⟩
  | case2 text ih =>
      obtain ⟨front, same, behind⟩ := ih
      refine ⟨[] :: front, ?_, .cons ⟨[], isBlanks_nil, rfl⟩ behind⟩
      rw [List.cons_append, List.cons_append, cutAtDoubleBars, same, List.cons_append]
  | case3 c text apart ih =>
      obtain ⟨front, same, behind⟩ := ih
      refine ⟨front.modifyHead (c :: ·), ?_, forall₂_trails_modifyHead c behind⟩
      have nonempty : front ≠ [] := by
        rintro rfl
        exact cutAtDoubleBars_ne_nil text (List.forall₂_nil_left_iff.mp behind)
      rw [List.cons_append, cutAtDoubleBars, same]
      · cases front with
        | nil => contradiction
        | cons first others => rfl
      · intro others bar follows
        cases text with
        | nil => cases follows
        | cons d later =>
            cases follows
            exact apart later bar rfl

private theorem forall₂_surrounds_cutAtDoubleBars (text other : List Char) :
    List.Forall₂ Surrounds (cutAtDoubleBars (text ++ [' ', '|', '|', ' '] ++ other))
      (cutAtDoubleBars text ++ cutAtDoubleBars other) := by
  obtain ⟨front, same, behind⟩ := exists_cutAtDoubleBars_append text (' ' :: other)
  have joined :
      text ++ [' ', '|', '|', ' '] ++ other = text ++ ' ' :: '|' :: '|' :: ' ' :: other := by simp
  rw [joined, same, cutAtDoubleBars_cons (by decide)]
  apply List.rel_append (behind.imp fun _ _ => Trails.surrounds)
  exact forall₂_surrounds_modifyHead (by decide) (List.forall₂_same.mpr fun piece _ => .refl piece)

private theorem toList_or {a b : String} :
    (a ++ " || " ++ b).toList = a.toList ++ [' ', '|', '|', ' '] ++ b.toList := by
  rw [String.toList_append, String.toList_append]
  rfl

/-- Two texts with a double bar between them are read piece by piece as each of them is, as long as
blanks around a piece do not matter and the text that is named in errors does not either. -/
theorem mapM_cutAtDoubleBars_or {ε α : Type} (read : String → List Char → Except ε α)
    (around : ∀ {source other : String} {outer inner : List Char} {result : α},
      Surrounds outer inner → read source inner = .ok result → read other outer = .ok result)
    {a b : String} {first second : List α}
    (readFirst : (cutAtDoubleBars a.toList).mapM (read a) = .ok first)
    (readSecond : (cutAtDoubleBars b.toList).mapM (read b) = .ok second) :
    (cutAtDoubleBars (a ++ " || " ++ b).toList).mapM (read (a ++ " || " ++ b)) =
      .ok (first ++ second) := by
  have named (source : String) {pieces : List (List Char)} {results : List α}
      (found : pieces.mapM (read source) = .ok results) :
      pieces.mapM (read (a ++ " || " ++ b)) = .ok results :=
    Outcome.mapM_eq_ok_of_forall₂
      (List.forall₂_same.mpr fun piece _ _ => around (.refl piece)) found
  have joined := Outcome.mapM_append_eq_ok (named a readFirst) (named b readSecond)
  rw [toList_or]
  exact Outcome.mapM_eq_ok_of_forall₂ (List.Forall₂.imp (fun _ _ surrounds _ => around surrounds)
    (forall₂_surrounds_cutAtDoubleBars a.toList b.toList)) joined

theorem cutAtDoubleBars_eq_singleton {text : List Char} (noBar : '|' ∉ text) :
    cutAtDoubleBars text = [text] := by
  induction text with
  | nil => rfl
  | cons c rest ih =>
      rw [List.mem_cons, not_or] at noBar
      rw [cutAtDoubleBars_cons (Ne.symm noBar.1), ih noBar.2]
      rfl

theorem cutAtDoubleBars_append_bars {text : List Char} (noBar : '|' ∉ text) (rest : List Char) :
    cutAtDoubleBars (text ++ '|' :: '|' :: rest) = text :: cutAtDoubleBars rest := by
  induction text with
  | nil => rw [List.nil_append, cutAtDoubleBars]
  | cons c later ih =>
      rw [List.mem_cons, not_or] at noBar
      rw [List.cons_append, cutAtDoubleBars_cons (Ne.symm noBar.1), ih noBar.2]
      rfl

theorem cutAtDoubleBars_append_bar {text rest : List Char} (noBar : '|' ∉ text)
    (apart : rest.head? ≠ some '|') : cutAtDoubleBars (text ++ '|' :: rest) =
      (cutAtDoubleBars rest).modifyHead (text ++ '|' :: ·) := by
  induction text with
  | nil =>
      rw [List.nil_append, cutAtDoubleBars]
      · rfl
      · rintro others - rfl
        exact apart rfl
  | cons c later ih =>
      rw [List.mem_cons, not_or] at noBar
      rw [List.cons_append, cutAtDoubleBars_cons (Ne.symm noBar.1), ih noBar.2,
        List.modifyHead_modifyHead]
      rfl

/-! ### Cuts at one mark -/

theorem cutOnce?_append {mark : Char} {front : List Char} (other : mark ∉ front)
    (back : List Char) : cutOnce? mark (front ++ mark :: back) = some (front, back) := by
  induction front with
  | nil => rw [List.nil_append, cutOnce?, if_pos rfl]
  | cons c rest ih =>
      rw [List.mem_cons, not_or] at other
      rw [List.cons_append, cutOnce?, if_neg (Ne.symm other.1), ih other.2]
      rfl

theorem cutOnce?_eq_none {mark : Char} {text : List Char} (other : mark ∉ text) :
    cutOnce? mark text = none := by
  induction text with
  | nil => rfl
  | cons c rest ih =>
      rw [List.mem_cons, not_or] at other
      rw [cutOnce?, if_neg (Ne.symm other.1), ih other.2]
      rfl

end Text

end Versioning
