import Marginalia.Path
import Marginalia.Stack
import Marginalia.Text.Newline
import Marginalia.Text.Quoted
import Marginalia.Text.Utf8
import Marginalia.Text.Wildcard

/-!
# The disk

Files and directories as a value: what stands where, and the working directory.  A place is the list
of names that lead to it from the top.  Names are texts; what has bytes of no text for its name is not
told of here.  There are no links, so a name `..` leads back to the directory that the names before it
lead through.  Names and paths of more than a certain length lead nowhere, and other than missing files
they are a flaw even where it is only asked whether something is there.  A walk through all directories
goes into them one inside of the other, and so only to a certain depth.
-/

namespace Marginalia

/-- What stands at a place of the disk. -/
inductive DiskNode where
  | directory
  | file (bytes : List UInt8)
deriving Repr, DecidableEq

/-- Why a file cannot be read. -/
inductive FileFlaw where
  | missing (path : Path)
  | isDirectory (path : Path)
  /-- A name on the way leads to a file. -/
  | notDirectory (path : Path)
  /-- The path, or a name that is looked for on the way, is too long. -/
  | tooLong (path : Path)
  /-- A directory lies below too many others for a walk to go into it. -/
  | tooDeep
  | undecodable (malformed : Text.Utf8.Malformed)
deriving Repr, DecidableEq

def FileFlaw.message : FileFlaw → String
  | .missing path => s!"[Errno 2] No such file or directory: {Text.display path.text}"
  | .isDirectory path => s!"[Errno 21] Is a directory: {Text.display path.text}"
  | .notDirectory path => s!"[Errno 20] Not a directory: {Text.display path.text}"
  | .tooLong path => s!"[Errno 36] File name too long: {Text.display path.text}"
  | .tooDeep => Stack.fullText
  | .undecodable malformed => malformed.message

/-- The files and directories below the top, by their places, the working directory, and the depth to
    which a walk goes. -/
structure Disk where
  nodes : List (List String × DiskNode) := []
  workingDirectory : List String := []
  /-- How many directories a walk can be in below the one where it starts.  Each of them takes a call, and
      about thirty calls are open around a walk. -/
  walkDepth : Nat := Stack.size - 30

/-- The order of places: name by name, and a directory before what lies in it. -/
def placeBefore : List String → List String → Bool
  | [], _ => true
  | _ :: _, [] => false
  | name :: rest, other :: others =>
    if name = other then placeBefore rest others else name < other

namespace Disk

/-- What stands at a place.  The top is a directory, and so is each place that leads to another. -/
def at? (disk : Disk) (place : List String) : Option DiskNode :=
  if place = [] then some .directory else disk.nodes.lookup place

/-- The disk with a file or directory at a place, and with the directories that lead there. -/
def put (place : List String) (node : DiskNode) (disk : Disk) : Disk :=
  let ways := (List.range place.length).map place.take
  let missing := ways.filter fun way => (disk.at? way).isNone
  let others := disk.nodes.filter fun entry => entry.1 ≠ place
  { disk with nodes := others ++ missing.map (·, .directory) ++ [(place, node)] }

/-! ## Paths -/

/-- The place that names lead to from another place, without a look at the disk. -/
def follow : (place : List String) → List String → List String
  | place, [] => place
  | place, name :: names =>
    if name = ".." then follow place.dropLast names else follow (place ++ [name]) names

/-- The place where a path starts. -/
def startOf (disk : Disk) (path : Path) : List String :=
  match path.root with
  | .relative => disk.workingDirectory
  | _ => []

/-- The place that a path stands for, whether or not something stands there. -/
def placeOf (disk : Disk) (path : Path) : List String :=
  follow (disk.startOf path) path.names

/-- The path with one slash in front that leads to the same place. -/
def resolve (disk : Disk) (path : Path) : Path :=
  ⟨.slash, disk.placeOf path⟩

/-- The largest number of bytes of a name. -/
def nameLimit : Nat := 255

/-- The largest number of bytes of a path. -/
def pathLimit : Nat := 4095

/-- What stands where names lead from a place; the flaw of the first place on the way that is no
    directory or holds nothing of a name's length. -/
def walk (disk : Disk) (path : Path) : (place : List String) → List String → Except FileFlaw DiskNode
  | place, names =>
    match disk.at? place, names with
    | none, _ => .error (.missing path)
    | some (.file _), _ :: _ => .error (.notDirectory path)
    | some node, [] => .ok node
    | some .directory, name :: rest =>
      if nameLimit < name.utf8ByteSize then .error (.tooLong path)
      else disk.walk path (if name = ".." then place.dropLast else place ++ [name]) rest

/-- What stands where a path leads. -/
def find (disk : Disk) (path : Path) : Except FileFlaw DiskNode :=
  if pathLimit < path.text.utf8ByteSize then .error (.tooLong path)
  else disk.walk path (disk.startOf path) path.names

/-- What stands where a path leads, if anything does.  No path holds the character with code zero. -/
def find? (disk : Disk) (path : Path) : Except FileFlaw (Option DiskNode) :=
  if path.text.toList.contains '\x00' then .ok none
  else
    match disk.find path with
    | .ok node => .ok (some node)
    | .error (.tooLong path) => .error (.tooLong path)
    | .error _ => .ok none

/-- Whether a path leads to something. -/
def contains (disk : Disk) (path : Path) : Except FileFlaw Bool :=
  (disk.find? path).map Option.isSome

/-- Whether a path leads to a directory. -/
def isDirectory (disk : Disk) (path : Path) : Except FileFlaw Bool :=
  (disk.find? path).map fun node => node = some .directory

/-- Whether a path leads to a file. -/
def isFile (disk : Disk) (path : Path) : Except FileFlaw Bool :=
  (disk.find? path).map fun node => node.isSome && node != some .directory

/-! ## Files -/

/-- The bytes of the file that a path leads to. -/
def bytes (disk : Disk) (path : Path) : Except FileFlaw (List UInt8) := do
  match ← disk.find path with
  | .file bytes => return bytes
  | .directory => throw (.isDirectory path)

/-- The characters of the file that a path leads to. -/
def characters (disk : Disk) (path : Path) : Except FileFlaw (List Char) := do
  (Text.Utf8.decode (← disk.bytes path)).mapError .undecodable

/-- The text of the file that a path leads to, with a newline for each line end. -/
def text (disk : Disk) (path : Path) : Except FileFlaw String :=
  (disk.characters path).map fun characters => String.ofList (Text.unifyNewlines characters)

/-! ## Directories -/

/-- The names that lead from a place to a place below it. -/
def below? : (place : List String) → List String → Option (List String)
  | [], name :: names => some (name :: names)
  | name :: place, other :: others => if name = other then below? place others else none
  | _, [] => none

/-- The disk without what stands at a place and below it. -/
def remove (place : List String) (disk : Disk) : Disk :=
  { disk with
    nodes := disk.nodes.filter fun entry => entry.1 ≠ place && (below? place entry.1).isNone }

/-- Looks into a directory, which takes a path that is not too long. -/
def lookInto (directory : Path) : Except FileFlaw Unit :=
  if pathLimit < directory.text.utf8ByteSize then .error (.tooLong directory) else .ok ()

/-- The names of what lies in a directory. -/
def namesIn (disk : Disk) (directory : Path) : Except FileFlaw (List String) := do
  lookInto directory
  return disk.nodes.filterMap fun entry =>
    match below? (disk.placeOf directory) entry.1 with
    | some [name] => some name
    | _ => none

/-- Goes from a directory into what names lead to from there. -/
def goInto (disk : Disk) (directory : Path) (names : List String) : Except FileFlaw Unit :=
  if disk.walkDepth < names.length then .error .tooDeep else lookInto (directory.below names)

/-- The names that lead from a directory to itself and to all directories below it, into each of which a
    walk goes. -/
def directoriesFrom (disk : Disk) (directory : Path) : Except FileFlaw (List (List String)) := do
  let found := [] :: disk.nodes.filterMap fun (place, node) =>
    match node with
    | .directory => below? (disk.placeOf directory) place
    | .file _ => none
  found.forM fun names => disk.goInto directory names
  return found

/-- The paths of what names lead to from a directory, in order. -/
def pathsTo (directory : Path) (found : List (List String)) : List Path :=
  (found.mergeSort placeBefore).map directory.below

end Disk

end Marginalia
