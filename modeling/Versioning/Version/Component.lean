import Versioning.Version.Error

/-!
Version components: the numbers major, minor and patch. They fit in 64 bits, and the greatest of
them has no successor.
-/

namespace Versioning

def Component.limit : Nat := 18446744073709551615

@[ext]
structure Component where
  value : Nat
  value_le : value ≤ Component.limit
deriving DecidableEq

namespace Component

instance : Ord Component := ⟨compareOn value⟩

instance : Std.TransOrd Component := inferInstanceAs (Std.TransCmp (compareOn value))

instance : Std.LawfulEqOrd Component where
  eq_of_compare same := Component.ext (Std.LawfulEqOrd.eq_of_compare (α := Nat) same)

instance : OfNat Component 0 := ⟨⟨0, by decide⟩⟩

instance : OfNat Component 1 := ⟨⟨1, by decide⟩⟩

def text (component : Component) : String := toString component.value

instance : ToString Component := ⟨text⟩

def ofDigits? (digits : List Char) : Option Component :=
  if digits.isEmpty || !digits.all Char.isDigit then none
  else
    let value := Nat.ofDigitChars 10 digits 0
    if fits : value ≤ limit then some ⟨value, fits⟩ else none

def next (component : Component) : Except VersionError Component :=
  if below : component.value < limit then .ok ⟨component.value + 1, below⟩
  else .error (.componentOverflow s!"{component} + 1")

end Component

end Versioning
