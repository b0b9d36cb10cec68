import Marginalia.Command.Ending
import Marginalia.Data.Display
import Marginalia.Engine

/-!
# The expand command

Expands the references of a text with the variables of a workspace.  Instead it resolves a single
variable or lists all of them, if it is asked to; the list comes first, and an empty name asks for
nothing.
-/

namespace Marginalia.Command.Expand

/-- The flag for the name of a single variable. -/
def resolveFlag : Flag := { names := ["--resolve"], takesValue := true }

/-- The flag for the modifier of a single variable. -/
def modifierFlag : Flag :=
  { names := ["--modifier"], takesValue := true, choices := Modifier.all.map Modifier.word }

def listFlag : Flag := { names := ["--list"] }

def form : Form :=
  { flags := [workspaceFlag, resolveFlag, modifierFlag, listFlag, verboseFlag]
    needsOperand := false }

/-! ## Lines -/

def listedLine (listed : ListedVariable) : String :=
  s!"${listed.name} ({listed.kind.word}, {listed.origin})" ++ listed.remark

/-- The lines about names that are declared more than once. -/
def repeatedLines (repeated : List (String × List String)) : List String :=
  if repeated.isEmpty then []
  else
    ["", "Declared more than once:"] ++
      repeated.map fun (name, sheets) => s!"  ${name}: " ++ ", ".intercalate sheets

/-- The lines about a failure to resolve a variable. -/
def failureLines (failure : Failure) : List String :=
  s!"Error ({failure.word}): {failure.message}" ::
    if failure.chain.isEmpty then [] else ["  Chain: " ++ Failure.arrows failure.chain]

/-! ## The command -/

/-- The word for the kind of what a flag has that is given without a value: an empty list. -/
def missingKind : String := (Value.list []).kindWord

def list (disk : Disk) (engine : Engine) : Report Ending := do
  let (engine, listing) ← engine.listVariables disk
  let (_, repeated) ← engine.repeated disk
  return .success (listing.map listedLine ++ repeatedLines repeated)

/-- Resolves a variable with the modifier that was given.  That a modifier was given without a word is
    found out when it is looked up, behind the name. -/
def resolve (disk : Disk) (engine : Engine) (name : String) (given : Given) : Report Ending := do
  if given.lacksValue modifierFlag.name && isValidName name then
    Report.fail (.misfit .lookup missingKind)
  let (_, run) ← engine.resolveOn Request.stackRoom disk (engine.request none) name
    (given.value? modifierFlag.name)
  match ← Report.ofExcept run with
  | .ok resolved => return .success [resolved.rendered]
  | .error failure => return .failure (failureLines failure)

def expand (disk : Disk) (engine : Engine) (text : String) : Report Ending := do
  let (_, run) ← engine.expandOn Request.stackRoom disk text none
  return .success [← Report.ofExcept run]

/-- Does what was asked for in a workspace. -/
def work (disk : Disk) (workspace : Path) (given : Given) (settings : Settings) :
    Report Ending := do
  if settings.isVast then Report.fail .vastInteger
  Report.notifyAll [.workspace (disk.resolve workspace), .settings settings]
  let engine ← Engine.ofWorkspace disk workspace (some settings)
  if given.has listFlag.name then list disk engine
  else
    match nonempty? (given.value? resolveFlag.name), given.operand with
    | some name, _ => resolve disk engine name given
    | none, some text => expand disk engine text
    | none, none => return .refused .misuse

/-- The workspace that was asked for, or the working directory. -/
def workspaceOf (given : Given) : Path :=
  ((given.value? workspaceFlag.name).map Path.ofText).getD Path.here

/-- The paths that the command looks at when it runs with the given arguments. -/
def paths (words : List String) : List Path :=
  match form.read words with
  | .error _ => []
  | .ok given => [workspaceOf given]

/-- Runs the command with arguments that fit it. -/
def runGiven (disk : Disk) (given : Given) : Except Fault Ending := do
  if given.lacksValue workspaceFlag.name then throw (.misfit .directory missingKind)
  let workspace := workspaceOf given
  if ← (disk.isDirectory workspace).mapError .file then
    withSettings disk workspace (given.has verboseFlag.name) (work disk workspace given)
  else return .failure [s!"Error: Workspace not found: {workspace.text}"]

/-- Runs the command with its arguments. -/
def run (disk : Disk) (words : List String) : Except Fault Ending :=
  match form.read words with
  | .error refusal => .ok (.refused refusal)
  | .ok given => runGiven disk given

end Marginalia.Command.Expand
