import Marginalia.Document.Workspace
import Marginalia.Variable.Catalogue

/-!
# Where documents come from

The documents of a library are those that are open in an editor, or those of a workspace on the disk.
A library answers the same questions either way, and its declaration sheets fill a catalogue.
-/

namespace Marginalia

/-- The documents that are at hand. -/
inductive Library where
  | opened (documents : OpenDocuments)
  | onDisk (workspace : Workspace)
deriving Repr, DecidableEq

namespace Library

/-- The file name patterns of declaration sheets. -/
def patterns : Library → List String
  | .opened documents => documents.patterns
  | .onDisk workspace => workspace.patterns

def textOf? (library : Library) (disk : Disk) (uri : String) : Report (Option String) :=
  match library with
  | .opened documents => return (documents.get? uri).map Document.text
  | .onDisk _ => Workspace.textOf? disk uri

/-- The language of a document, as far as the library knows it. -/
def languageName? (library : Library) (uri : String) : Except HostFlaw (Option String) :=
  match library with
  | .opened documents => .ok ((documents.get? uri).bind Document.languageName)
  | .onDisk _ => Uri.languageName? uri

def documents (library : Library) (disk : Disk) : Report (List Document) :=
  match library with
  | .opened documents => return documents.toList
  | .onDisk workspace => workspace.documents disk

/-- Whether a document is a declaration sheet. -/
def isSheet (library : Library) (uri : String) : Except HostFlaw Bool :=
  Marginalia.isSheet library.patterns uri

/-- Reads the sheets among some documents, in order. -/
def readSheets (library : Library) : List Document → Report (List Sheet)
  | [] => return []
  | document :: rest => do
    let wanted ← Report.ofHost (library.isSheet document.uri)
    let sheet ← if wanted then Sheet.read document.uri document.text else pure none
    let others ← library.readSheets rest
    return sheet.toList ++ others

/-- Reads the sheets of the library into a catalogue. -/
def refresh (library : Library) (disk : Disk) (catalogue : Catalogue) : Report Catalogue := do
  let sheets ← library.readSheets (← library.documents disk)
  let filled := catalogue.fill sheets
  Report.notifyAll filled.notices
  return filled

/-- Reads the sheets of the library again if the catalogue is stale. -/
def freshen (library : Library) (disk : Disk) (catalogue : Catalogue) : Report Catalogue :=
  if catalogue.isStale then library.refresh disk catalogue else return catalogue

end Library

end Marginalia
