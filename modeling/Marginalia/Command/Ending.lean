import Marginalia.Command.Arguments
import Marginalia.Report.Basic
import Marginalia.Settings.Discovery

/-!
# Endings of commands

What a command leaves behind: its status, the lines of its output and the lines of its messages.  The
settings decide which notices are shown as messages; the notices about the settings themselves come
before that, so of them only warnings and errors are shown, as they are.
-/

namespace Marginalia.Command

inductive Ending where
  /-- It did not run. -/
  | refused (refusal : Refusal)
  | finished (status : Nat) (output messages : List String)
deriving Repr, DecidableEq

namespace Ending

/-- A command that did what was asked. -/
def success (output : List String) : Ending :=
  .finished 0 output []

/-- A command that could not do what was asked. -/
def failure (output : List String) : Ending :=
  .finished 1 output []

/-- An ending with messages in front of its own. -/
def behind (messages : List String) : Ending → Ending
  | .refused refusal => .refused refusal
  | .finished status output others => .finished status output (messages ++ others)

end Ending

/-- Lines as a text, each with a newline at its end. -/
def ofLines (lines : List String) : String :=
  String.join (lines.map (· ++ "\n"))

/-- The messages for notices before the settings are known. -/
def earlyMessages (notices : List Notice) : List String :=
  (notices.filter fun notice => Level.warning.isShownFrom notice.level).map Notice.message

/-- The messages for notices of a level and above. -/
def messages (level : Level) (notices : List Notice) : List String :=
  (notices.filter fun notice => level.isShownFrom notice.level).map Notice.line

/-- The level from which on notices are shown. -/
def shownLevel (isVerbose : Bool) (settings : Settings) : Level :=
  if isVerbose then .debug else settings.logLevel

/-- Runs a command with the settings that govern a path. -/
def withSettings (disk : Disk) (path : Path) (isVerbose : Bool) (work : Settings → Report Ending) :
    Except Fault Ending := do
  let found := Settings.governing disk path
  let settings ← found.outcome
  let report := work settings
  let ending ← report.outcome
  return ending.behind (earlyMessages found.notes ++
    messages (shownLevel isVerbose settings) report.notes)

def workspaceFlag : Flag := { names := ["--workspace", "-w"], takesValue := true }

def verboseFlag : Flag := { names := ["--verbose", "-v"] }

end Marginalia.Command
