import Marginalia.Command.Ending
import Marginalia.Data.Json.Printer
import Marginalia.Document.Scan
import Marginalia.Engine
import Marginalia.Text.Position

/-!
# The scan command

Reads the annotations of a file, or of all source files below a directory, and shows them with their
diagnostics: a line each behind the place it stands at, or all of them as JSON.  On request the
references in annotations are checked against the variables of a workspace.
-/

namespace Marginalia.Command.Scan

/-- The flag that asks for a check of references. -/
def checkFlag : Flag := { names := ["--check-variables"] }

def jsonFlag : Flag := { names := ["--json"] }

def form : Form :=
  { flags := [workspaceFlag, checkFlag, jsonFlag, verboseFlag], needsOperand := true }

/-- What was found in a file, with the diagnostics of the check of references. -/
structure Result where
  path : Path
  findings : Findings
  unresolved : List Diagnostic
deriving Repr, DecidableEq

def Result.diagnostics (result : Result) : List Diagnostic :=
  result.findings.diagnostics ++ result.unresolved

/-! ## Lines -/

/-- A place of a file, counted from one. -/
def showPlace (path : Path) (index : LineIndex) (range : Range) : String :=
  let position := index.positionOf range.start
  s!"{path.text}:{position.line + 1}:{position.character + 1}"

def severityWord (severity : Severity) : String :=
  String.ofList (severity.word.toList.map Char.toLower)

def diagnosticLine (path : Path) (index : LineIndex) (diagnostic : Diagnostic) : String :=
  let flaw := diagnostic.flaw
  showPlace path index diagnostic.range ++
    s!": {severityWord flaw.severity} [{flaw.code}] {flaw.message}"

/-- The lines of a file with the given text. -/
def Result.lines (result : Result) (text : String) : List String :=
  let index := LineIndex.ofText text.toList
  (result.findings.annotations.map fun note =>
      s!"{showPlace result.path index note.range}: {note.raw}") ++
    result.diagnostics.map (diagnosticLine result.path index)

/-- The line that counts what was found. -/
def summary (results : List Result) : String :=
  let annotations := results.flatMap fun result => result.findings.annotations
  let errors := (results.flatMap Result.diagnostics).filter Diagnostic.isError
  s!"{annotations.length} annotations in {results.length} files, {errors.length} errors"

/-! ## JSON -/

/-- A text that may be missing. -/
def optional (text : Option String) : Value :=
  (text.map Value.text).getD .null

def rangeValue (range : Range) : Value :=
  .table [("start", .int range.start), ("end", .int range.stop)]

def diagnosticValue (diagnostic : Diagnostic) : Value :=
  let flaw := diagnostic.flaw
  .table [("severity", .int flaw.severity.rank), ("message", .text flaw.message),
    ("code", .text flaw.code), ("range", rangeValue diagnostic.range)]

def referenceValue (reference : Reference) : Value :=
  .table [("raw", .text reference.raw), ("identifier", .text reference.name),
    ("modifier", optional reference.modifier), ("range", rangeValue reference.range),
    ("is_builtin", .bool reference.isBuiltin),
    ("inferred_type", optional (reference.suggestedKind?.map VariableKind.word))]

def annotationValue (note : Annotation) : Value :=
  .table [("raw", .text note.raw), ("namespace", .text note.space),
    ("category", .text note.category.word), ("value", optional note.value),
    ("description", optional note.description), ("metadata", .list (note.metadata.map .text)),
    ("range", rangeValue note.range),
    ("variable_refs", .list (note.references.map referenceValue)),
    ("diagnostics", .list (note.diagnostics.map diagnosticValue))]

/-- What was found in a file, by its path. -/
def Result.entry (result : Result) : String × Value :=
  (result.path.text, .table
    [("annotations", .list (result.findings.annotations.map annotationValue)),
      ("diagnostics", .list (result.diagnostics.map diagnosticValue))])

/-! ## The command -/

/-- Reads the annotations below a directory or of a single file. -/
def findingsAt (rules : ValueRules) (disk : Disk) (path : Path) : Report ScanResults := do
  if ← Report.ofFile (disk.isDirectory path) then scanDirectory rules disk path
  else
    match ← Report.ofExcept (Findings.ofFile? rules disk path) with
    | some findings => return [(path, findings)]
    | none => do
      Report.notify (.unknownLanguage path)
      return []

/-- Adds the diagnostics of the check of references, if it is wanted. -/
def check (disk : Disk) (isWanted : Bool) : Engine → ScanResults → Report (List Result)
  | _, [] => return []
  | engine, (path, findings) :: rest => do
    let (engine, run) ←
      if isWanted then
        engine.variableDiagnostics Request.stackRoom disk (Uri.ofPath (disk.resolve path))
      else pure (engine, .ok [])
    let unresolved ← Report.ofExcept run
    let others ← check disk isWanted engine rest
    return ⟨path, findings, unresolved⟩ :: others

/-- The lines about all files. -/
def allLines (disk : Disk) (results : List Result) : Report (List String) := do
  let lines ← results.mapM fun result => do
    let text ← Report.ofExcept ((disk.text result.path).mapError .file)
    return result.lines text
  return lines.flatten ++ ["", summary results]

def output (disk : Disk) (asJson : Bool) (results : List Result) : Report (List String) :=
  if asJson then return [Json.write (.table (results.map Result.entry))]
  else allLines disk results

/-- The workspace of a scan: the one that was given, or the directory of what is scanned. -/
def workspaceOf (disk : Disk) (path : Path) (given : Given) : Except FileFlaw Path := do
  match given.value? workspaceFlag.name with
  | some workspace => return Path.ofText workspace
  | none => return if ← disk.isDirectory path then path else path.parent

def scan (disk : Disk) (path workspace : Path) (given : Given) (settings : Settings) :
    Report Ending := do
  let engine ← Engine.ofWorkspace disk workspace (some settings)
  let found ← findingsAt engine.rules disk path
  let results ← check disk (given.has checkFlag.name) engine found
  return .success (← output disk (given.has jsonFlag.name) results)

/-- The paths that the command looks at when it runs with the given arguments. -/
def paths (words : List String) : List Path :=
  match form.read words with
  | .error _ => []
  | .ok given =>
    (given.operand.toList ++ (given.value? workspaceFlag.name).toList).map Path.ofText

/-- Runs the command with arguments that fit it. -/
def runGiven (disk : Disk) (given : Given) : Except Fault Ending := do
  let path := Path.ofText (given.operand.getD "")
  if ← (disk.contains path).mapError .file then
    let workspace ← (workspaceOf disk path given).mapError .file
    withSettings disk workspace (given.has verboseFlag.name) (scan disk path workspace given)
  else return .failure [s!"Error: Path not found: {path.text}"]

/-- Runs the command with its arguments. -/
def run (disk : Disk) (words : List String) : Except Fault Ending :=
  match form.read words with
  | .error refusal => .ok (.refused refusal)
  | .ok given => runGiven disk given

end Marginalia.Command.Scan
