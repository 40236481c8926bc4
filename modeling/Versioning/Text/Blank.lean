/-!
Blanks. The class is the Unicode property `White_Space`, so it holds the no-break and ideographic
spaces beside the ASCII ones. Trimming and cutting into words are defined over it.
-/

namespace Versioning.Text

/-- First and last code point of each run of `White_Space` characters. -/
def blankRuns : List (Nat × Nat) :=
  [(0x0009, 0x000D), (0x0020, 0x0020), (0x0085, 0x0085), (0x00A0, 0x00A0), (0x1680, 0x1680),
    (0x2000, 0x200A), (0x2028, 0x2029), (0x202F, 0x202F), (0x205F, 0x205F), (0x3000, 0x3000)]

def isBlank (c : Char) : Bool :=
  blankRuns.any fun run => run.1 ≤ c.toNat && c.toNat ≤ run.2

def trim (text : List Char) : List Char :=
  ((text.dropWhile isBlank).reverse.dropWhile isBlank).reverse

def isBlankText (text : List Char) : Bool := text.all isBlank

def words (text : List Char) : List (List Char) :=
  (text.splitOnP isBlank).filter fun word => !word.isEmpty

theorem ne_nil_of_mem_words {text word : List Char} (member : word ∈ words text) :
    word ≠ [] := by
  simp only [words, List.mem_filter, Bool.not_eq_true', List.isEmpty_eq_false_iff] at member
  exact member.2

end Versioning.Text
