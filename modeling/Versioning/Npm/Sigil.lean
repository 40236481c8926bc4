/-!
Sigils: what may stand in front of a descriptor in the npm grammar. Where two of them begin alike
the longer is read.
-/

namespace Versioning

namespace Npm

inductive Sigil
  | plain
  | tilde
  | caret
  | notEqual
  | less
  | atMost
  | greater
  | atLeast
deriving DecidableEq

namespace Sigil

def read : List Char → Sigil × List Char
  | '<' :: '=' :: rest => (.atMost, rest)
  | '>' :: '=' :: rest => (.atLeast, rest)
  | '=' :: '<' :: rest => (.atMost, rest)
  | '=' :: '>' :: rest => (.atLeast, rest)
  | '!' :: '=' :: rest => (.notEqual, rest)
  | '~' :: '>' :: rest => (.tilde, rest)
  | '~' :: rest => (.tilde, rest)
  | '^' :: rest => (.caret, rest)
  | '<' :: rest => (.less, rest)
  | '>' :: rest => (.greater, rest)
  | '=' :: rest => (.plain, rest)
  | text => (.plain, text)

/-- Whether a text is a sigil and marks `v` and `=` alone, so that a descriptor has to follow. -/
def standsAlone (text : List Char) : Bool :=
  (read text).2.all fun c => c == 'v' || c == '='

end Sigil

end Npm

end Versioning
