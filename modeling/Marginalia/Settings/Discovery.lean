import Marginalia.Data.Toml.Reader
import Marginalia.Report.Basic

/-!
# Finding the settings of a workspace

Settings are kept in a file of the directory they govern.  The nearest such file counts, of the
directory itself and of three directories around it.  A file that is damaged or does not hold settings
is passed over with a notice, and the defaults apply.
-/

namespace Marginalia.Settings

/-- The name of the files that hold settings. -/
def fileName : String := ".acp.toml"

/-- How many directories around one are searched. -/
def searchHeight : Nat := 3

/-- The directories that are searched for the settings of a path, nearest first.  The search for a
    file starts at its directory. -/
def searched (disk : Disk) (path : Path) : Except FileFlaw (List Path) := do
  let start := if ← disk.isFile path then path.parent else path
  return start :: start.ancestors.take searchHeight

/-- The settings file that governs a path. -/
def discover (disk : Disk) (path : Path) : Except FileFlaw (Option Path) := do
  ((← searched disk path).map (·.child fileName)).findM? disk.isFile

/-- The default settings, with a notice. -/
def fallBack (notice : Notice) : Report Settings := do
  Report.notify notice
  return {}

/-- Reads settings from the text of a settings file. -/
def ofText (path : Path) (text : List Char) : Report Settings :=
  match Toml.read text with
  | .error (.longInteger digits) => Report.fail (.longInteger digits)
  | .error .tooDeep => Report.fail (.tooDeep none)
  | .error .unreadable => fallBack (.unreadableSettings path)
  | .ok value =>
    match ofValue value with
    | .error mismatch => fallBack (.unusableSettings path mismatch.expected)
    | .ok settings => do
      Report.notify (.loadedSettings path)
      return settings

def ofFile (disk : Disk) (path : Path) : Report Settings :=
  if path.text.toList.contains '\x00' then Report.fail .nulInPath
  else
    match disk.bytes path with
    | .error _ => fallBack (.unreadableSettings path)
    | .ok bytes =>
      match Text.Utf8.decode bytes with
      | .error malformed => Report.fail (.file (.undecodable malformed))
      | .ok text => ofText path text

/-- Reads a settings file; the defaults if there is none. -/
def load (disk : Disk) : Option Path → Report Settings
  | none => return {}
  | some path => ofFile disk path

/-- The settings that govern a path. -/
def governing (disk : Disk) (path : Path) : Report Settings := do
  load disk (← Report.ofFile (discover disk path))

end Marginalia.Settings
