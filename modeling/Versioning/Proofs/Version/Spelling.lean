import Mathlib.Data.Option.Basic
import Versioning.Version.Spelling
import Versioning.Proofs.Text.Words

/-!
Texts that are put together from fields. The reader of a spelling is exact: it accepts what may be
written in the spelling and cuts it into the fields that are written there. Numbers have no leading
zeros unless that is permitted, and each field ends where the mark of the next one stands.
-/

namespace Versioning

/-! ### Digits of numbers -/

theorem isDigit_of_mem_toDigits {value : Nat} {c : Char} (member : c ∈ Nat.toDigits 10 value) :
    c.isDigit = true :=
  Nat.isDigit_of_mem_toDigits (by decide) (by decide) member

theorem exists_toDigits_eq_cons {value : Nat} (positive : 0 < value) :
    ∃ c rest, Nat.toDigits 10 value = c :: rest ∧ c ≠ '0' := by
  induction value using Nat.strongRecOn with
  | ind value ih =>
      by_cases small : value < 10
      · refine ⟨value.digitChar, [], Nat.toDigits_of_lt_base small, ?_⟩
        rw [ne_eq, Nat.digitChar_eq_zero]
        omega
      · obtain ⟨c, rest, same, other⟩ := ih (value / 10) (by omega) (by omega)
        refine ⟨c, rest ++ [(value % 10).digitChar], ?_, other⟩
        rw [Nat.toDigits_of_base_le (by decide) (by omega), same, List.cons_append]

theorem toDigits_of_leadingZero {value : Nat} (zero : (Nat.toDigits 10 value).head? = some '0') :
    Nat.toDigits 10 value = ['0'] := by
  rcases Nat.eq_zero_or_pos value with rfl | positive
  · rfl
  · obtain ⟨c, rest, same, other⟩ := exists_toDigits_eq_cons positive
    rw [same] at zero
    exact absurd (Option.some.inj zero) other

theorem not_padded_iff {text : List Char} :
    ¬(1 < text.length ∧ text.head? = some '0') ↔ (text.head? = some '0' → text = ['0']) := by
  constructor
  · intro short zero
    obtain ⟨rest, rfl⟩ := List.head?_eq_some_iff.mp zero
    cases rest with
    | nil => rfl
    | cons c rest => exact absurd ⟨by simp, rfl⟩ short
  · rintro alone ⟨long, zero⟩
    rw [alone zero] at long
    exact absurd long (by decide)

/-! ### Characters of fields -/

theorem isIdentifierChar_of_isDigit {c : Char} (digit : c.isDigit = true) :
    isIdentifierChar c = true := by
  simp [isIdentifierChar, Char.isAlphanum, digit]

theorem isBlank_of_isIdentifierChar {c : Char} (identifier : isIdentifierChar c = true) :
    Text.isBlank c = false := by
  have bounds : 0x2D ≤ c.toNat ∧ c.toNat ≤ 0x7A := by
    change (((decide ('A'.val ≤ c.val ∧ c.val ≤ 'Z'.val) ||
      decide ('a'.val ≤ c.val) && decide (c.val ≤ 'z'.val)) ||
      decide ('0'.val ≤ c.val) && decide (c.val ≤ '9'.val)) || c == '-') = true at identifier
    simp only [Bool.or_eq_true, Bool.and_eq_true, decide_eq_true_eq, beq_iff_eq,
      UInt32.le_iff_toNat_le] at identifier
    change (((65 ≤ c.toNat ∧ c.toNat ≤ 90) ∨ 97 ≤ c.toNat ∧ c.toNat ≤ 122) ∨
      48 ≤ c.toNat ∧ c.toNat ≤ 57) ∨ c = '-' at identifier
    rcases identifier with ((upper | lower) | digit) | rfl
    · omega
    · omega
    · omega
    · decide
  exact Text.isBlank_eq_false (by omega) (by omega)

def isFieldChar (c : Char) : Bool := Spelling.isSuffixChar c || c == '+' || c == '*'

theorem isBlank_of_isFieldChar {c : Char} (field : isFieldChar c = true) :
    Text.isBlank c = false := by
  simp only [isFieldChar, Spelling.isSuffixChar, Bool.or_eq_true, beq_iff_eq] at field
  rcases field with ((identifier | rfl) | rfl) | rfl
  · exact isBlank_of_isIdentifierChar identifier
  all_goals decide

theorem isFieldChar_of_isSuffixChar {c : Char} (suffix : Spelling.isSuffixChar c = true) :
    isFieldChar c = true := by
  rw [isFieldChar, suffix, Bool.true_or, Bool.true_or]

namespace Fields

def led (mark : Char) : Option (List Char) → List Char
  | none => []
  | some text => mark :: text

def text (fields : Fields) : List Char :=
  fields.major ++ (led '.' fields.minor ++ (led '.' fields.patch ++
    (led '-' fields.preRelease ++ led '+' fields.build)))

def textWith (fields : Fields) (preRelease : List Char) : List Char :=
  fields.major ++ (led '.' fields.minor ++ (led '.' fields.patch ++
    (preRelease ++ led '+' fields.build)))

theorem mem_led {mark c : Char} {field : Option (List Char)} (member : c ∈ led mark field) :
    c = mark ∨ ∃ text ∈ field, c ∈ text := by
  cases field with
  | none => cases member
  | some text =>
      rcases List.mem_cons.mp member with same | inside
      · exact .inl same
      · exact .inr ⟨text, rfl, inside⟩

theorem forall_mem_text {p : Char → Prop} {fields : Fields} (marks : ∀ c ∈ ['.', '-', '+'], p c)
    (major : ∀ c ∈ fields.major, p c) (minor : ∀ text ∈ fields.minor, ∀ c ∈ text, p c)
    (patch : ∀ text ∈ fields.patch, ∀ c ∈ text, p c)
    (preRelease : ∀ text ∈ fields.preRelease, ∀ c ∈ text, p c)
    (build : ∀ text ∈ fields.build, ∀ c ∈ text, p c) : ∀ c ∈ fields.text, p c := by
  have ofField {mark : Char} (among : mark ∈ ['.', '-', '+']) {field : Option (List Char)}
      (each : ∀ text ∈ field, ∀ c ∈ text, p c) {c : Char} (member : c ∈ led mark field) : p c := by
    rcases mem_led member with rfl | ⟨text, found, inside⟩
    · exact marks _ among
    · exact each text found c inside
  intro c member
  simp only [text, List.mem_append] at member
  rcases member with atMajor | atMinor | atPatch | atPreRelease | atBuild
  · exact major c atMajor
  · exact ofField (by decide) minor atMinor
  · exact ofField (by decide) patch atPatch
  · exact ofField (by decide) preRelease atPreRelease
  · exact ofField (by decide) build atBuild

end Fields

namespace Spelling

open Fields (led)

variable {spelling : Spelling} {rest : List Char}

/-! ### Numbers -/

inductive IsNumber (spelling : Spelling) : List Char → Prop
  | digits (value : Nat) : IsNumber spelling (Nat.toDigits 10 value)
  | wildcard {c : Char} (allowed : spelling.wildcards = true) (mark : isWildcard c = true) :
      IsNumber spelling [c]

theorem IsNumber.ne_nil {number : List Char} (isNumber : spelling.IsNumber number) :
    number ≠ [] := by
  cases isNumber with
  | digits value => exact Nat.toDigits_ne_nil
  | wildcard => exact List.cons_ne_nil _ _

private theorem IsNumber.isFieldChar {number : List Char} (isNumber : spelling.IsNumber number) :
    ∀ c ∈ number, isFieldChar c = true := by
  intro c member
  cases isNumber with
  | digits value =>
      apply isFieldChar_of_isSuffixChar
      rw [isSuffixChar, isIdentifierChar_of_isDigit (isDigit_of_mem_toDigits member), Bool.true_or]
  | wildcard allowed mark =>
      cases List.mem_singleton.mp member
      simp only [isWildcard, Bool.or_eq_true, beq_iff_eq] at mark
      rcases mark with (rfl | rfl) | rfl <;> decide

/-- Whether a text may stand in the place of a number, whether or not it has a value. -/
inductive IsNumeral (spelling : Spelling) : List Char → Prop
  | wildcard {c : Char} (allowed : spelling.wildcards = true) (mark : isWildcard c = true) :
      IsNumeral spelling [c]
  | zero : IsNumeral spelling ['0']
  | digits {c : Char} {others : List Char}
      (first : c.isDigit = true ∧ c ≠ '0' ∨
        spelling.leadingZeros = true ∧ Text.isDecimalDigit c = true)
      (each : ∀ d ∈ others, Text.isDecimalDigit d = true) : IsNumeral spelling (c :: others)

private theorem IsNumber.isNumeral {number : List Char} (isNumber : spelling.IsNumber number) :
    spelling.IsNumeral number := by
  cases isNumber with
  | wildcard allowed mark => exact .wildcard allowed mark
  | digits value =>
      have digits (c : Char) : c ∈ Nat.toDigits 10 value → c.isDigit = true :=
        isDigit_of_mem_toDigits
      rcases Nat.eq_zero_or_pos value with rfl | positive
      · exact .zero
      · obtain ⟨c, others, same, other⟩ := exists_toDigits_eq_cons positive
        rw [same] at digits ⊢
        obtain ⟨digit, digitsOthers⟩ := List.forall_mem_cons.mp digits
        exact .digits (.inl ⟨digit, other⟩) fun d member =>
          Text.isDecimalDigit_of_isDigit (digitsOthers d member)

private theorem isWildcard_of_isDecimalDigit {c : Char} (digit : Text.isDecimalDigit c = true) :
    isWildcard c = false := by
  simp only [isWildcard, Bool.or_eq_false_iff, beq_eq_false_iff_ne]
  exact ⟨⟨Text.ne_of_class digit rfl, Text.ne_of_class digit rfl⟩, Text.ne_of_class digit rfl⟩

theorem isDecimalDigit_of_first {c : Char} (first : c.isDigit = true ∧ c ≠ '0' ∨
    spelling.leadingZeros = true ∧ Text.isDecimalDigit c = true) :
    Text.isDecimalDigit c = true :=
  first.elim (fun digit => Text.isDecimalDigit_of_isDigit digit.1) And.right

theorem takeWhile_append_apart {p : Char → Bool} {run : List Char} (each : ∀ c ∈ run, p c = true)
    (apart : ∀ c ∈ rest.head?, p c = false) :
    (run ++ rest).takeWhile p = run ∧ (run ++ rest).dropWhile p = rest := by
  rw [List.takeWhile_append_of_pos each, List.dropWhile_append_of_pos each]
  cases rest with
  | nil => simp
  | cons c others =>
      have stops : p c = false := apart c rfl
      simp [stops]

theorem number?_append {number : List Char} (isNumeral : spelling.IsNumeral number)
    (apart : ∀ c ∈ rest.head?, Text.isDecimalDigit c = false) :
    spelling.number? (number ++ rest) = some (number, rest) := by
  cases isNumeral with
  | wildcard allowed mark => simp [number?, allowed, mark]
  | zero =>
      obtain ⟨taken, dropped⟩ := takeWhile_append_apart (List.forall_mem_nil _) apart
      rw [List.nil_append] at taken dropped
      cases permitted : spelling.leadingZeros with
      | false => simp [number?, permitted, isWildcard]
      | true => simp [number?, permitted, isWildcard, taken, dropped]
  | @digits c others first each =>
      have noWildcard := isWildcard_of_isDecimalDigit (isDecimalDigit_of_first first)
      obtain ⟨taken, dropped⟩ := takeWhile_append_apart each apart
      rw [List.cons_append, number?, noWildcard, Bool.and_false, if_neg Bool.false_ne_true]
      rcases first with ⟨digit, positive⟩ | ⟨permitted, digit⟩
      · simp [positive, digit, taken, dropped]
      · simp [permitted, digit, taken, dropped]

theorem isNumeral_of_number? {text number : List Char}
    (found : spelling.number? text = some (number, rest)) :
    spelling.IsNumeral number ∧ text = number ++ rest := by
  cases text with
  | nil => cases found
  | cons c others =>
      rw [number?] at found
      split at found
      · next wildcard =>
        cases found
        rw [Bool.and_eq_true] at wildcard
        exact ⟨.wildcard wildcard.1 wildcard.2, rfl⟩
      · split at found
        · next zero =>
          cases found
          rw [Bool.and_eq_true, beq_iff_eq] at zero
          rw [zero.1]
          exact ⟨.zero, rfl⟩
        · next notZero =>
          split at found
          · next digit =>
            cases found
            rw [Bool.or_eq_true, Bool.and_eq_true] at digit
            simp only [Bool.and_eq_true, beq_iff_eq, Bool.not_eq_true', not_and,
              Bool.not_eq_false] at notZero
            refine ⟨.digits ?_ (List.all_eq_true.mp List.all_takeWhile), ?_⟩
            · rcases digit with ascii | ⟨permitted, any⟩
              · by_cases zero : c = '0'
                · exact .inr ⟨notZero zero, Text.isDecimalDigit_of_isDigit ascii⟩
                · exact .inl ⟨ascii, zero⟩
              · exact .inr ⟨permitted, any⟩
            · rw [List.cons_append, List.takeWhile_append_dropWhile]
          · cases found

theorem IsNumeral.isDecimalDigit {number : List Char} (isNumeral : spelling.IsNumeral number)
    (noWildcards : spelling.wildcards = false) : ∀ c ∈ number, Text.isDecimalDigit c = true := by
  cases isNumeral with
  | wildcard allowed => simp [noWildcards] at allowed
  | zero => exact List.all_eq_true.mp rfl
  | digits first each => exact List.forall_mem_cons.mpr ⟨isDecimalDigit_of_first first, each⟩

theorem isNumeral_of_position? {text : List Char} {number : Option (List Char)}
    (found : spelling.position? text = some (number, rest)) :
    (∀ digits ∈ number, spelling.IsNumeral digits) ∧ text = led '.' number ++ rest ∧
      (number = none → rest.head? ≠ some '.') := by
  unfold position? at found
  split at found
  · obtain ⟨⟨digits, others⟩, numbered, same⟩ := Option.map_eq_some_iff.mp found
    cases same
    obtain ⟨isNumeral, written⟩ := isNumeral_of_number? numbered
    refine ⟨fun _ same => ?_, by rw [written]; rfl, by simp⟩
    cases same
    exact isNumeral
  · next noDot =>
    cases found
    refine ⟨by simp, rfl, fun _ dot => ?_⟩
    obtain ⟨others, same⟩ := List.head?_eq_some_iff.mp dot
    exact noDot others same

private theorem position?_led {number : Option (List Char)}
    (isNumeral : ∀ text ∈ number, spelling.IsNumeral text)
    (apart : ∀ c ∈ rest.head?, Text.isDecimalDigit c = false)
    (noDot : number = none → rest.head? ≠ some '.') :
    spelling.position? (led '.' number ++ rest) = some (number, rest) := by
  cases number with
  | none =>
      rw [led, List.nil_append, position?]
      rintro others rfl
      exact noDot rfl rfl
  | some text =>
      rw [led, List.cons_append, position?, number?_append (isNumeral text rfl) apart]
      rfl

/-! ### Suffixes -/

def IsSuffix (text : List Char) : Prop := text ≠ [] ∧ ∀ c ∈ text, isSuffixChar c = true

theorem IsSuffix.isFieldChar {text : List Char} (isSuffix : IsSuffix text) :
    ∀ c ∈ text, isFieldChar c = true :=
  fun c member => isFieldChar_of_isSuffixChar (isSuffix.2 c member)

theorem suffix?_append {text : List Char} (isSuffix : IsSuffix text)
    (apart : ∀ c ∈ rest.head?, isSuffixChar c = false) :
    suffix? (text ++ rest) = some (some text, rest) := by
  obtain ⟨taken, dropped⟩ := takeWhile_append_apart isSuffix.2 apart
  rw [suffix?, taken, dropped]
  simp [isSuffix.1]

theorem isSuffix_of_suffix? {text : List Char} {run : Option (List Char)}
    (found : suffix? text = some (run, rest)) :
    ∃ suffix, run = some suffix ∧ IsSuffix suffix ∧ text = suffix ++ rest := by
  simp only [suffix?] at found
  split at found
  · cases found
  · next nonempty =>
    cases found
    rw [List.isEmpty_iff] at nonempty
    exact ⟨_, rfl, ⟨nonempty, List.all_eq_true.mp List.all_takeWhile⟩,
      List.takeWhile_append_dropWhile.symm⟩

private theorem isDecimalDigit_of_isAlpha {c : Char} (letter : c.isAlpha = true) :
    Text.isDecimalDigit c = false := by
  have bounds : 65 ≤ c.toNat ∧ c.toNat ≤ 122 := by
    change ((decide ('A'.val ≤ c.val ∧ c.val ≤ 'Z'.val)) ||
      decide ('a'.val ≤ c.val) && decide (c.val ≤ 'z'.val)) = true at letter
    simp only [Bool.or_eq_true, Bool.and_eq_true, decide_eq_true_eq,
      UInt32.le_iff_toNat_le] at letter
    change (65 ≤ c.toNat ∧ c.toNat ≤ 90) ∨ 97 ≤ c.toNat ∧ c.toNat ≤ 122 at letter
    omega
  have apart : Text.digitZeros.all (fun start => start + 10 ≤ 65 || 122 < start) = true := rfl
  rw [Text.isDecimalDigit, List.any_eq_false]
  intro start isStart within
  have outside := List.all_eq_true.mp apart start isStart
  simp only [Bool.and_eq_true, Bool.or_eq_true, decide_eq_true_eq] at within outside
  omega

def isNumberChar (c : Char) : Bool := Text.isDecimalDigit c || c == '.'

theorem isNumberChar_eq_false_iff {c : Char} :
    isNumberChar c = false ↔ Text.isDecimalDigit c = false ∧ c ≠ '.' := by
  rw [isNumberChar, Bool.or_eq_false_iff, beq_eq_false_iff_ne]

theorem isNumberChar_of_isAlpha {c : Char} (letter : c.isAlpha = true) : isNumberChar c = false :=
  isNumberChar_eq_false_iff.mpr ⟨isDecimalDigit_of_isAlpha letter, Text.ne_of_class letter rfl⟩

def BeginsWith (marks : List Char) (text : List Char) : Prop := ∀ c ∈ text.head?, c ∈ marks

/-- How a pre-release may be written: behind a hyphen, or behind none where it begins with a letter
and the spelling permits that. -/
inductive WritesPreRelease (spelling : Spelling) : Option (List Char) → List Char → Prop
  | hyphened (field : Option (List Char)) : WritesPreRelease spelling field (led '-' field)
  | bare {c : Char} {others : List Char} (permitted : spelling.bareSuffix = true)
      (letter : c.isAlpha = true) : WritesPreRelease spelling (some (c :: others)) (c :: others)

private theorem WritesPreRelease.preRelease?_append {preRelease : Option (List Char)}
    {front : List Char} (writes : spelling.WritesPreRelease preRelease front)
    (isSuffix : ∀ text ∈ preRelease, IsSuffix text) (plus : BeginsWith ['+'] rest) :
    spelling.preRelease? (front ++ rest) = some (preRelease, rest) := by
  have apart : ∀ c ∈ rest.head?, isSuffixChar c = false := by
    intro c first
    cases List.mem_singleton.mp (plus c first)
    decide
  cases writes with
  | hyphened =>
      cases preRelease with
      | none =>
          cases rest with
          | nil => rfl
          | cons c others =>
              cases List.mem_singleton.mp (plus c rfl)
              simp [led, preRelease?]
      | some text =>
          rw [led, List.cons_append, preRelease?, if_pos (beq_self_eq_true _),
            suffix?_append (isSuffix text rfl) apart]
  | @bare c others permitted letter =>
      have noHyphen : c ≠ '-' := Text.ne_of_class letter rfl
      rw [List.cons_append, preRelease?, beq_eq_false_iff_ne.mpr noHyphen, permitted, letter]
      exact suffix?_append (isSuffix _ rfl) apart

theorem WritesPreRelease.apart {preRelease : Option (List Char)} {front : List Char}
    (writes : spelling.WritesPreRelease preRelease front)
    (behind : ∀ c ∈ rest.head?, isNumberChar c = false) :
    ∀ c ∈ (front ++ rest).head?, isNumberChar c = false := by
  cases writes with
  | hyphened =>
      cases preRelease with
      | none => exact behind
      | some text =>
          intro c first
          cases first
          rfl
  | bare permitted letter =>
      intro c first
      cases first
      exact isNumberChar_of_isAlpha letter

private theorem WritesPreRelease.mem_led {preRelease : Option (List Char)} {front : List Char}
    (writes : spelling.WritesPreRelease preRelease front) :
    ∀ c ∈ front, c ∈ led '-' preRelease := by
  cases writes with
  | hyphened => exact fun _ => id
  | bare => exact fun _ => List.mem_cons_of_mem _

theorem WritesPreRelease.eq_led {preRelease : Option (List Char)} {front : List Char}
    (writes : spelling.WritesPreRelease preRelease front) (noBare : spelling.bareSuffix = false) :
    front = led '-' preRelease := by
  cases writes with
  | hyphened => rfl
  | bare permitted => simp [noBare] at permitted

theorem writesPreRelease_of_preRelease? {text : List Char} {preRelease : Option (List Char)}
    (found : spelling.preRelease? text = some (preRelease, rest)) :
    (∀ suffix ∈ preRelease, IsSuffix suffix) ∧
      ∃ front, text = front ++ rest ∧ spelling.WritesPreRelease preRelease front := by
  cases text with
  | nil =>
      cases found
      exact ⟨by simp, [], rfl, .hyphened none⟩
  | cons c others =>
      rw [preRelease?] at found
      split at found
      · next hyphen =>
        obtain ⟨suffix, rfl, isSuffix, written⟩ := isSuffix_of_suffix? found
        rw [beq_iff_eq] at hyphen
        refine ⟨by simpa using isSuffix, led '-' (some suffix), ?_, .hyphened _⟩
        rw [hyphen, written, led, List.cons_append]
      · split at found
        · next bare =>
          obtain ⟨suffix, rfl, isSuffix, written⟩ := isSuffix_of_suffix? found
          rw [Bool.and_eq_true] at bare
          obtain ⟨d, others, rfl⟩ := List.exists_cons_of_ne_nil isSuffix.1
          obtain ⟨rfl, -⟩ := List.cons.inj written
          exact ⟨by simpa using isSuffix, _, written, .bare bare.1 bare.2⟩
        · cases found
          exact ⟨by simp, [], rfl, .hyphened none⟩

private theorem isSuffix_of_build? {text : List Char} {build : Option (List Char)}
    (found : spelling.build? text = some (build, rest)) :
    (∀ suffix ∈ build, IsSuffix suffix) ∧ text = led '+' build ++ rest ∧
      (build = none ∨ spelling.build = true) := by
  cases text with
  | nil =>
      cases found
      exact ⟨by simp, rfl, .inl rfl⟩
  | cons c others =>
      rw [build?] at found
      split at found
      · next plus =>
        obtain ⟨suffix, rfl, isSuffix, written⟩ := isSuffix_of_suffix? found
        rw [Bool.and_eq_true, beq_iff_eq] at plus
        refine ⟨by simpa using isSuffix, ?_, .inr plus.1⟩
        rw [plus.2, written, led, List.cons_append]
      · cases found
        exact ⟨by simp, rfl, .inl rfl⟩

private theorem build?_led {build : Option (List Char)} (isSuffix : ∀ text ∈ build, IsSuffix text)
    (allowed : build = none ∨ spelling.build = true) :
    spelling.build? (led '+' build) = some (build, []) := by
  cases build with
  | none => rfl
  | some text =>
      have permitted : spelling.build = true := allowed.resolve_left (Option.some_ne_none text)
      have found : suffix? (text ++ []) = some (some text, []) :=
        suffix?_append (isSuffix text rfl) (by simp)
      rw [List.append_nil] at found
      rw [led, build?, permitted, if_pos (by decide), found]

/-! ### Fields -/

/-- Whether fields may be written in a spelling. -/
structure Permits (spelling : Spelling) (fields : Fields) : Prop where
  major : spelling.IsNumber fields.major
  minor : ∀ text ∈ fields.minor, spelling.IsNumber text
  patch : ∀ text ∈ fields.patch, spelling.IsNumber text
  preRelease : ∀ text ∈ fields.preRelease, IsSuffix text
  build : ∀ text ∈ fields.build, IsSuffix text
  inOrder : fields.minor = none → fields.patch = none
  complete : fields.patch.isSome = true ∨ spelling.incomplete = true
  suffixed : fields.patch.isSome = true ∨ spelling.suffixesOnIncomplete = true ∨
    fields.preRelease = none ∧ fields.build = none
  buildAllowed : fields.build = none ∨ spelling.build = true

/-- Whether fields may stand in a spelling, whether or not their numbers have values. -/
structure Fits (spelling : Spelling) (fields : Fields) : Prop where
  major : spelling.IsNumeral fields.major
  minor : ∀ text ∈ fields.minor, spelling.IsNumeral text
  patch : ∀ text ∈ fields.patch, spelling.IsNumeral text
  preRelease : ∀ text ∈ fields.preRelease, IsSuffix text
  build : ∀ text ∈ fields.build, IsSuffix text
  inOrder : fields.minor = none → fields.patch = none
  complete : fields.patch.isSome = true ∨ spelling.incomplete = true
  suffixed : fields.patch.isSome = true ∨ spelling.suffixesOnIncomplete = true ∨
    fields.preRelease = none ∧ fields.build = none
  buildAllowed : fields.build = none ∨ spelling.build = true

private theorem Permits.fits {fields : Fields} (permits : spelling.Permits fields) :
    spelling.Fits fields :=
  { permits with
    major := permits.major.isNumeral
    minor := fun text found => (permits.minor text found).isNumeral
    patch := fun text found => (permits.patch text found).isNumeral }

theorem Permits.isFieldChar {fields : Fields} (permits : spelling.Permits fields) :
    ∀ c ∈ fields.text, isFieldChar c = true :=
  Fields.forall_mem_text (List.all_eq_true.mp rfl) permits.major.isFieldChar
    (fun text found => (permits.minor text found).isFieldChar)
    (fun text found => (permits.patch text found).isFieldChar)
    (fun text found => (permits.preRelease text found).isFieldChar)
    (fun text found => (permits.build text found).isFieldChar)

/-! ### Cuts into fields -/

theorem read?_eq_some_iff {text : List Char} {fields : Fields} :
    spelling.read? text = some fields ↔ ∃ first second third last,
      spelling.number? (if spelling.marks then text.dropWhile isMark else text) =
        some (fields.major, first) ∧
      spelling.position? first = some (fields.minor, second) ∧
      spelling.position? second = some (fields.patch, third) ∧
      (fields.patch.isSome || spelling.incomplete) = true ∧
      (third.isEmpty || fields.patch.isSome || spelling.suffixesOnIncomplete) = true ∧
      spelling.preRelease? third = some (fields.preRelease, last) ∧
      spelling.build? last = some (fields.build, []) := by
  unfold read?
  simp only [Option.bind_eq_bind, Option.bind_eq_some_iff, Prod.exists, Option.guard_eq_some',
    exists_const, Option.pure_def, Option.some.injEq, List.isEmpty_iff]
  constructor
  · rintro ⟨major, first, isMajor, minor, second, isMinor, patch, third, isPatch, complete,
      suffixed, preRelease, last, isPreRelease, build, rest, isBuild, rfl, rfl⟩
    exact ⟨first, second, third, last, isMajor, isMinor, isPatch, complete, suffixed, isPreRelease,
      isBuild⟩
  · rintro ⟨first, second, third, last, isMajor, isMinor, isPatch, complete, suffixed, isPreRelease,
      isBuild⟩
    exact ⟨_, first, isMajor, _, second, isMinor, _, third, isPatch, complete, suffixed, _, last,
      isPreRelease, _, [], isBuild, rfl, rfl⟩

theorem isBlank_of_isDecimalDigit {c : Char} (digit : Text.isDecimalDigit c = true) :
    Text.isBlank c = false := by
  have apart : Text.blankRuns.all (fun run =>
      Text.digitZeros.all fun start => run.2 < start || start + 10 ≤ run.1) = true := by
    decide +kernel
  obtain ⟨start, isStart, within⟩ := List.any_eq_true.mp digit
  rw [Text.isBlank, List.any_eq_false]
  intro run isRun inside
  have disjoint := List.all_eq_true.mp (List.all_eq_true.mp apart run isRun) start isStart
  simp only [Bool.and_eq_true, Bool.or_eq_true, decide_eq_true_eq] at within inside disjoint
  omega

theorem isMark_eq_false_of_isDecimalDigit {c : Char} (digit : Text.isDecimalDigit c = true) :
    isMark c = false := by
  simp only [isMark, isBlank_of_isDecimalDigit digit, Bool.or_false, Bool.or_eq_false_iff,
    beq_eq_false_iff_ne]
  exact ⟨Text.ne_of_class digit rfl, Text.ne_of_class digit rfl⟩

private theorem isMark_eq_false_of_isWildcard {c : Char} (wildcard : isWildcard c = true) :
    isMark c = false := by
  simp only [isWildcard, Bool.or_eq_true, beq_iff_eq] at wildcard
  rcases wildcard with (rfl | rfl) | rfl <;> decide

theorem IsNumeral.exists_eq_cons {number : List Char} (isNumeral : spelling.IsNumeral number) :
    ∃ c others, number = c :: others ∧
      (isWildcard c = true ∨ Text.isDecimalDigit c = true) := by
  cases isNumeral with
  | wildcard allowed mark => exact ⟨_, [], rfl, .inl mark⟩
  | zero => exact ⟨_, [], rfl, .inr rfl⟩
  | digits first each => exact ⟨_, _, rfl, .inr (isDecimalDigit_of_first first)⟩

private theorem IsNumeral.dropWhile_isMark {number front : List Char}
    (isNumeral : spelling.IsNumeral number) (marks : ∀ c ∈ front, isMark c = true) :
    (front ++ (number ++ rest)).dropWhile isMark = number ++ rest := by
  obtain ⟨c, others, rfl, kind⟩ := isNumeral.exists_eq_cons
  have noMark : isMark c = false :=
    kind.elim isMark_eq_false_of_isWildcard isMark_eq_false_of_isDecimalDigit
  rw [List.dropWhile_append_of_pos marks, List.cons_append, List.dropWhile_cons, noMark,
    if_neg Bool.false_ne_true]

/-- How fields may be written in a spelling: in order, each behind its own mark. Marks may stand in
front of them, and the hyphen of the pre-release may be missing, where the spelling permits that. -/
structure Writes (spelling : Spelling) (fields : Fields) (text : List Char) : Prop where
  fits : spelling.Fits fields
  layout : ∃ front preRelease, text = front ++ fields.textWith preRelease ∧
    (∀ c ∈ front, isMark c = true) ∧ (spelling.marks = false → front = []) ∧
    spelling.WritesPreRelease fields.preRelease preRelease

private theorem Fits.writes_text {fields : Fields} (fits : spelling.Fits fields) :
    spelling.Writes fields fields.text where
  fits := fits
  layout := ⟨[], _, rfl, List.forall_mem_nil _, fun _ => rfl, .hyphened fields.preRelease⟩

private theorem noDigit_led_append (field : Option (List Char))
    (apart : ∀ c ∈ rest.head?, Text.isDecimalDigit c = false) :
    ∀ c ∈ (led '.' field ++ rest).head?, Text.isDecimalDigit c = false := by
  cases field with
  | none => exact apart
  | some text =>
      intro c first
      cases first
      rfl

theorem Writes.read?_eq {fields : Fields} {text : List Char}
    (writes : spelling.Writes fields text) : spelling.read? text = some fields := by
  obtain ⟨major, minor, patch, preRelease, build⟩ := fields
  obtain ⟨fits, front, suffix, rfl, marks, noMarks, writesPreRelease⟩ := writes
  -- behind each field stands the mark of a later one, a letter or nothing, and that ends the field
  have atBuild : BeginsWith ['+'] (led '+' build) := by
    cases build <;> simp [BeginsWith, led]
  have behindNumbers : ∀ c ∈ (suffix ++ led '+' build).head?, isNumberChar c = false := by
    refine writesPreRelease.apart fun c first => ?_
    cases List.mem_singleton.mp (atBuild c first)
    rfl
  have behindPatch := fun c first => (isNumberChar_eq_false_iff.mp (behindNumbers c first)).1
  have noDot : (suffix ++ led '+' build).head? ≠ some '.' := fun dot =>
    absurd (behindNumbers '.' dot) (by decide)
  have behindMinor := noDigit_led_append patch behindPatch
  have behindMajor := noDigit_led_append minor behindMinor
  refine read?_eq_some_iff.mpr ⟨_, _, _, led '+' build, ?_,
    position?_led fits.minor behindMinor ?_, position?_led fits.patch behindPatch fun _ => noDot,
    ?_, ?_, writesPreRelease.preRelease?_append fits.preRelease atBuild,
    build?_led fits.build fits.buildAllowed⟩
  · cases permitted : spelling.marks with
    | true =>
        rw [if_pos rfl, Fields.textWith, fits.major.dropWhile_isMark marks]
        exact number?_append fits.major behindMajor
    | false =>
        rw [if_neg Bool.false_ne_true, noMarks permitted, List.nil_append]
        exact number?_append fits.major behindMajor
  · intro absent
    obtain rfl : patch = none := fits.inOrder absent
    exact noDot
  · exact (Bool.or_eq_true _ _).mpr fits.complete
  · rcases fits.suffixed with present | allowed | missing
    · simp only [present, Bool.or_true, Bool.true_or]
    · simp only [allowed, Bool.or_true]
    · obtain ⟨rfl, rfl⟩ : preRelease = none ∧ build = none := missing
      cases writesPreRelease
      rfl

theorem Fits.read?_text {fields : Fields} (fits : spelling.Fits fields) :
    spelling.read? fields.text = some fields :=
  fits.writes_text.read?_eq

/-- The text of fields that a spelling permits is cut into these fields. -/
theorem read?_text {fields : Fields} (permits : spelling.Permits fields) :
    spelling.read? fields.text = some fields :=
  permits.fits.read?_text

theorem writes_of_read? {text : List Char} {fields : Fields}
    (found : spelling.read? text = some fields) : spelling.Writes fields text := by
  obtain ⟨first, second, third, last, isMajor, isMinor, isPatch, complete, suffixed, isPreRelease,
    isBuild⟩ := read?_eq_some_iff.mp found
  obtain ⟨major, writtenMajor⟩ := isNumeral_of_number? isMajor
  obtain ⟨minor, writtenMinor, noMinor⟩ := isNumeral_of_position? isMinor
  obtain ⟨patch, writtenPatch, -⟩ := isNumeral_of_position? isPatch
  obtain ⟨preRelease, front, writtenPreRelease, writesPreRelease⟩ :=
    writesPreRelease_of_preRelease? isPreRelease
  obtain ⟨build, writtenBuild, buildAllowed⟩ := isSuffix_of_build? isBuild
  rw [List.append_nil] at writtenBuild
  refine ⟨⟨major, minor, patch, preRelease, build, fun missing => ?_,
    (Bool.or_eq_true _ _).mp complete, ?_, buildAllowed⟩, ?_⟩
  · -- no dot stands where the minor is missing, so that none stands before a patch
    rw [writtenPatch] at noMinor
    cases present : fields.patch with
    | none => rfl
    | some digits =>
        rw [present] at noMinor
        exact absurd rfl (noMinor missing)
  · simp only [Bool.or_eq_true, List.isEmpty_iff] at suffixed
    rcases suffixed with (nothing | present) | allowed
    · subst nothing
      obtain ⟨noPreRelease, rfl⟩ := Prod.mk.inj (Option.some.inj isPreRelease)
      obtain ⟨noBuild, -⟩ := Prod.mk.inj (Option.some.inj isBuild)
      exact .inr (.inr ⟨noPreRelease.symm, noBuild.symm⟩)
    · exact .inl present
    · exact .inr (.inl allowed)
  · rw [writtenMinor, writtenPatch, writtenPreRelease, writtenBuild] at writtenMajor
    cases marked : spelling.marks with
    | true =>
        rw [marked, if_pos rfl] at writtenMajor
        refine ⟨text.takeWhile isMark, front, ?_, List.all_eq_true.mp List.all_takeWhile,
          by simp, writesPreRelease⟩
        rw [Fields.textWith, ← writtenMajor, List.takeWhile_append_dropWhile]
    | false =>
        rw [marked, if_neg Bool.false_ne_true] at writtenMajor
        exact ⟨[], front, writtenMajor, List.forall_mem_nil _, fun _ => rfl, writesPreRelease⟩

/-- The reader of a spelling is exact: it accepts what is written in the spelling. -/
theorem read?_eq_some_iff_writes {text : List Char} {fields : Fields} :
    spelling.read? text = some fields ↔ spelling.Writes fields text :=
  ⟨writes_of_read?, Writes.read?_eq⟩

private theorem IsNumeral.isFieldChar_or_isDecimalDigit {number : List Char}
    (isNumeral : spelling.IsNumeral number) :
    ∀ c ∈ number, isFieldChar c = true ∨ Text.isDecimalDigit c = true := by
  cases isNumeral with
  | wildcard allowed mark =>
      refine List.forall_mem_singleton.mpr (.inl ?_)
      simp only [isWildcard, Bool.or_eq_true, beq_iff_eq] at mark
      rcases mark with (rfl | rfl) | rfl <;> decide
  | zero => exact List.forall_mem_singleton.mpr (.inr rfl)
  | digits first each =>
      exact List.forall_mem_cons.mpr ⟨.inr (isDecimalDigit_of_first first), fun c member =>
        .inr (each c member)⟩

private theorem Fits.mem_text {fields : Fields} (fits : spelling.Fits fields) :
    ∀ c ∈ fields.text, isFieldChar c = true ∨ Text.isDecimalDigit c = true := by
  refine Fields.forall_mem_text (fun c mark => .inl ?_)
    fits.major.isFieldChar_or_isDecimalDigit
    (fun text found => (fits.minor text found).isFieldChar_or_isDecimalDigit)
    (fun text found => (fits.patch text found).isFieldChar_or_isDecimalDigit)
    (fun text found c inside => .inl ((fits.preRelease text found).isFieldChar c inside))
    (fun text found c inside => .inl ((fits.build text found).isFieldChar c inside))
  exact List.all_eq_true.mp rfl c mark

theorem Fits.mem_textWith {fields : Fields} {preRelease : List Char} (fits : spelling.Fits fields)
    (writes : spelling.WritesPreRelease fields.preRelease preRelease) :
    ∀ c ∈ fields.textWith preRelease, isFieldChar c = true ∨ Text.isDecimalDigit c = true := by
  intro c member
  apply fits.mem_text
  simp only [Fields.textWith, List.mem_append] at member
  simp only [Fields.text, List.mem_append]
  exact member.imp_right (Or.imp_right (Or.imp_right (Or.imp_left (writes.mem_led c))))

theorem mem_of_read? {text : List Char} {fields : Fields}
    (found : spelling.read? text = some fields) :
    ∀ c ∈ text, (spelling.marks = true ∧ isMark c = true) ∨ isFieldChar c = true ∨
      Text.isDecimalDigit c = true := by
  obtain ⟨fits, front, preRelease, written, marks, noMarks, writesPreRelease⟩ :=
    writes_of_read? found
  intro c member
  rw [written, List.mem_append] at member
  rcases member with atFront | behind
  · refine .inl ⟨eq_true_of_ne_false fun bare => ?_, marks c atFront⟩
    rw [noMarks bare] at atFront
    cases atFront
  · exact .inr (fits.mem_textWith writesPreRelease c behind)

theorem exists_first_of_read? {text : List Char} {fields : Fields}
    (found : spelling.read? text = some fields) :
    ∃ front first rest, text = front ++ first :: rest ∧ (∀ c ∈ front, isMark c = true) ∧
      (isWildcard first = true ∨ Text.isDecimalDigit first = true) := by
  obtain ⟨fits, front, preRelease, written, marks, -, -⟩ := writes_of_read? found
  obtain ⟨first, others, major, kind⟩ := fits.major.exists_eq_cons
  rw [Fields.textWith, major, List.cons_append] at written
  exact ⟨front, first, _, written, marks, kind⟩

end Spelling

end Versioning
