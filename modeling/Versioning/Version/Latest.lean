import Versioning.Version.Order

/-!
The latest of several versions. Versions may compare equal and yet differ, so among the greatest the
last one counts.
-/

namespace Versioning

namespace Version

/-- The last of the items whose versions are greatest. -/
def latestBy? {α : Type} (version : α → Version) : List α → Option α
  | [] => none
  | first :: rest =>
      some (rest.foldl
        (fun best next => if compare (version best) (version next) = .gt then best else next)
        first)

def latest? (versions : List Version) : Option Version := latestBy? id versions

end Version

end Versioning
