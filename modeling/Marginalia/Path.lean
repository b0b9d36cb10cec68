/-!
# Paths

Paths of files as the names on the way to them.  A path is absolute when slashes stand in front; two
slashes are kept apart from one, more count as one.  Empty names and the name `.` say nothing and are
left out, so paths that differ only in them are equal.  The name `..` is kept, because what it leads
to depends on the disk.
-/

namespace Marginalia

/-- Where a path starts. -/
inductive PathRoot where
  /-- At the working directory. -/
  | relative
  /-- At the top of the disk. -/
  | slash
  /-- At the top of the disk, written with two slashes. -/
  | twoSlashes
deriving Repr, DecidableEq

/-- The slashes that a path starts with. -/
def PathRoot.text : PathRoot → String
  | .relative => ""
  | .slash => "/"
  | .twoSlashes => "//"

/-- The root of a path as it is written. -/
def PathRoot.ofText (text : List Char) : PathRoot :=
  match (text.takeWhile (· = '/')).length with
  | 0 => .relative
  | 2 => .twoSlashes
  | _ => .slash

/-- A path: its root and the names on the way. -/
structure Path where
  root : PathRoot
  names : List String
deriving Repr, DecidableEq

/-- The part of a name from its last point on, unless the point is the first or last character of the
    name; empty if there is none. -/
def endingOf (name : String) : String :=
  let behind := (name.toList.reverse.takeWhile (· ≠ '.')).reverse
  if behind.isEmpty || name.length ≤ behind.length + 1 then "" else String.ofList ('.' :: behind)

namespace Path

/-- The working directory. -/
def here : Path := ⟨.relative, []⟩

/-- Whether a name leads somewhere. -/
def isStep (name : List Char) : Bool :=
  !name.isEmpty && name != ['.']

/-- The path that a text spells. -/
def ofText (text : String) : Path :=
  ⟨.ofText text.toList, ((text.toList.splitOn '/').filter isStep).map String.ofList⟩

def text (path : Path) : String :=
  if path = here then "." else path.root.text ++ "/".intercalate path.names

/-- The last name of a path; empty if there is none. -/
def name (path : Path) : String :=
  path.names.getLast?.getD ""

/-- The ending of the last name. -/
def ending (path : Path) : String :=
  endingOf path.name

/-- The path of something that lies in a directory. -/
def child (path : Path) (name : String) : Path :=
  ⟨path.root, path.names ++ [name]⟩

/-- The path of something that lies below a directory. -/
def below (path : Path) (names : List String) : Path :=
  ⟨path.root, path.names ++ names⟩

/-- The directory that a path lies in, as far as its names tell. -/
def parent (path : Path) : Path :=
  ⟨path.root, path.names.dropLast⟩

/-- The directories that a path lies in, nearest first, as far as its names tell. -/
def ancestors (path : Path) : List Path :=
  (List.range path.names.length).reverse.map fun count => ⟨path.root, path.names.take count⟩

example : (ofText "./src/./a.ts").text = "src/a.ts" := by decide
example : (ofText "//a///b/").text = "//a/b" ∧ (ofText "///a").text = "/a" := by decide
example : (ofText "a/b").ancestors.map text = ["a", "."] := by decide
example : (ofText ".ts").ending = "" ∧ (ofText "a.").ending = "" ∧ (ofText "..ts/").ending = ".ts" := by
  decide

end Path

end Marginalia
