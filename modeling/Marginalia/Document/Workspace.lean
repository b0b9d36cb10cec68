import Marginalia.Document.Basic
import Marginalia.Document.Selection

/-!
# The documents of a workspace

A workspace is a directory of the disk.  Its documents are the declaration sheets below it and, if
wanted, the source files; what lies in directories that hold no sources of their own is left out.
Every request reads the disk anew.
-/

namespace Marginalia

/-- A directory whose files are documents. -/
structure Workspace where
  root : Path
  patterns : List String := defaultSheetPatterns
  withSources : Bool := true
deriving Repr, DecidableEq

namespace Workspace

/-- The directories that are never walked into. -/
def skippedDirectories : List String :=
  [".git", ".hg", ".svn", "node_modules", "__pycache__", ".venv", "venv", "dist", "build", "target"]

/-- Whether names lead through a directory that is never walked into. -/
def isSkipped (names : List String) : Bool :=
  names.dropLast.any skippedDirectories.contains

/-- Whether a file of the workspace is one of its documents, by its name. -/
def holds (workspace : Workspace) (name : String) : Bool :=
  workspace.patterns.any (fun pattern => Text.Wildcard.matchesName pattern name) ||
    (workspace.withSources && (Uri.languageOfName name).isSome)

/-- The paths of the documents of a workspace, in order. -/
def paths (workspace : Workspace) (disk : Disk) : Except FileFlaw (List Path) := do
  let found ← disk.allBelow workspace.root
  let files ← (Disk.pathsTo workspace.root (found.filter (! isSkipped ·))).filterM disk.isFile
  return files.filter fun path => workspace.holds path.name

/-- Reads the text of a document from the disk; none, with a notice, if that fails. -/
def textOf? (disk : Disk) (uri : String) : Report (Option String) := do
  let written ← Report.ofHost (Uri.path uri)
  if written.toList.contains '\x00' then Report.fail .nulInPath
  else
    let path := Path.ofText written
    match disk.text path with
    | .ok text => return some text
    | .error flaw => do
      Report.notify (.unreadableDocument path flaw)
      return none

/-- Reads the document at a path. -/
def readDocument? (disk : Disk) (path : Path) : Report (Option Document) := do
  let uri := Uri.ofPath (disk.resolve path)
  match ← textOf? disk uri with
  | none => return none
  | some text =>
    let languageName ← Report.ofHost (Uri.languageName? uri)
    return some { uri, text, languageName }

/-- Reads the documents at some paths; those that cannot be read are left out. -/
def readDocuments (disk : Disk) : List Path → Report (List Document)
  | [] => return []
  | path :: rest => do
    let document ← readDocument? disk path
    let others ← readDocuments disk rest
    return document.toList ++ others

/-- Reads the documents of a workspace. -/
def documents (workspace : Workspace) (disk : Disk) : Report (List Document) := do
  readDocuments disk (← Report.ofFile (workspace.paths disk))

end Workspace

end Marginalia
