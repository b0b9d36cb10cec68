import Marginalia.Document.Disk
import Marginalia.Settings

/-!
# Notices

What a request has to say beside its answer.  Warnings tell of documents and entries that are passed
over; the other notices let a reader follow what was done.
-/

namespace Marginalia

/-- A notice beside an answer. -/
inductive Notice where
  | unknownDocument (uri : String)
  | resolved (name sheet : String)
  | refreshed (sheets entries : Nat)
  | loadedSettings (path : Path)
  | workspace (path : Path)
  | settings (settings : Settings)
  | repeated (name : String) (sheets : List String) (precedence : Precedence)
  /-- A declaration document is no JSON. -/
  | brokenSheet (uri complaint : String)
  /-- A declaration document declares nothing. -/
  | emptySheet (uri : String)
  /-- A variable is declared under a name that no variable can have. -/
  | unusableName (name uri : String)
  /-- The declaration of a variable is none. -/
  | unusableEntry (name uri : String) (expected : Expectation)
  | unreadableDocument (path : Path) (flaw : FileFlaw)
  /-- A file that was to be scanned cannot be read. -/
  | unreadableSource (path : Path) (flaw : FileFlaw)
  | unreadableSettings (path : Path)
  /-- Settings are not what is expected. -/
  | unusableSettings (path : Path) (expected : Expectation)
  | unknownLanguage (path : Path)
deriving Repr, DecidableEq

namespace Notice

def level : Notice → Level
  | .unknownDocument _ | .resolved .. | .refreshed .. | .loadedSettings _ | .workspace _
  | .settings _ => .debug
  | .repeated .. => .info
  | _ => .warning

/-- The rule that a variable's name does not keep. -/
def nameRule : String := "^[A-Z][A-Z0-9_]*$"

def message : Notice → String
  | .unknownDocument uri => s!"Document not available: {uri}"
  | .resolved name sheet => s!"Resolved ${name} from {sheet}"
  | .refreshed sheets entries =>
    s!"Variable registry refreshed: {sheets} sources, {entries} entries"
  | .loadedSettings path => s!"Loaded config from {path.text}"
  | .workspace path => s!"Workspace: {path.text}"
  | .settings current => s!"Config: {current.display}"
  | .repeated name sheets precedence =>
    s!"Variable '{name}' declared in " ++ ", ".intercalate sheets ++
      s!"; using the {precedence.word} declaration"
  | .brokenSheet uri complaint => s!"Failed to parse vars file {uri}: {complaint}"
  | .emptySheet uri => s!"Vars file {uri} has no 'variables' object; skipping"
  | .unusableName name uri =>
    s!"Skipping variable '{name}' in {uri}: name does not match {nameRule} " ++
      "and can never be referenced"
  | .unusableEntry name uri expected =>
    s!"Skipping malformed variable '{name}' in {uri}: {expected.message}"
  | .unreadableDocument path flaw => s!"Cannot read {path.text}: {flaw.message}"
  | .unreadableSource path flaw => s!"Skipping unreadable file {path.text}: {flaw.message}"
  | .unreadableSettings path => s!"Ignoring unreadable config {path.text}"
  | .unusableSettings path expected => s!"Ignoring invalid config {path.text}: {expected.message}"
  | .unknownLanguage path => s!"Unsupported file type: {path.text}"

/-- A notice behind the word for its level. -/
def line (notice : Notice) : String :=
  s!"{notice.level.word}: {notice.message}"

end Notice

end Marginalia
