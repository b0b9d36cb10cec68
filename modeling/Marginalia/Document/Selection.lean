import Marginalia.Document.Disk

/-!
# Selection by patterns

What the parts of a pattern stand for below a directory.  A part with wildcards stands for all that
has a fitting name, the part `**` for the directory itself and all directories below it, and any other
part for what it names, be it the directory around under the name `..`.  Parts that others follow
stand for directories only.
-/

namespace Marginalia.Disk

/-- Whether a part of a pattern has wildcards. -/
def hasWildcard (part : String) : Bool :=
  part.toList.any fun c => c = '*' || c = '?' || c = '['

/-- What a part of a pattern stands for in a directory, as the names that lead there from it. -/
def selectPart (disk : Disk) (directory : Path) (part : String) (isLast : Bool) :
    Except FileFlaw (List (List String)) := do
  if part = "**" then disk.directoriesFrom directory
  else if hasWildcard part then
    let names ← disk.namesIn directory
    let fits := fun name => Text.Wildcard.matchesName part name &&
      (isLast || disk.at? (disk.placeOf (directory.child name)) = some .directory)
    return (names.filter fits).map ([·])
  else
    let path := directory.child part
    let isThere ← if isLast then disk.contains path else disk.isDirectory path
    return if isThere then [[part]] else []

/-- What the parts of a pattern stand for in a directory, as the names that lead there from it. -/
def selectParts (disk : Disk) : (directory : Path) → List String → Except FileFlaw (List (List String))
  | _, [] => .ok [[]]
  | directory, part :: parts => do
    let heads ← disk.selectPart directory part parts.isEmpty
    let found ← heads.mapM fun head => do
      return (← disk.selectParts (directory.below head) parts).map (head ++ ·)
    return found.flatten.eraseDups

/-- What the parts of a pattern stand for below a directory; nothing if there is no such
    directory. -/
def select (disk : Disk) (directory : Path) (parts : List String) :
    Except FileFlaw (List (List String)) := do
  if ← disk.isDirectory directory then disk.selectParts directory parts else return []

/-- The names that lead from a directory to all that lies below it. -/
def allBelow (disk : Disk) (directory : Path) : Except FileFlaw (List (List String)) :=
  disk.select directory ["**", "*"]

end Marginalia.Disk
