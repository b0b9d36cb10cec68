import Marginalia.Command.Expand
import Marginalia.Command.Scan

/-!
# The program

The command line: the first word chooses the command, the others are its arguments.  What a command
looks at is read from the disk before it runs.
-/

namespace Marginalia

/-- A command as the program knows it: its name, what follows the name, the paths it looks at and what
    it does. -/
structure Program where
  name : String
  arguments : String
  paths : List String → List Path
  run : Disk → List String → Except Fault Command.Ending

def programs : List Program :=
  [⟨"scan", "[-w WORKSPACE] [--check-variables] [--json] [-v] PATH", Command.Scan.paths,
      Command.Scan.run⟩,
    ⟨"expand", "[-w WORKSPACE] [--resolve NAME] [--modifier MODIFIER] [--list] [-v] [TEXT]",
      Command.Expand.paths, Command.Expand.run⟩]

def Program.usage (program : Program) : String :=
  s!"usage: marginalia {program.name} {program.arguments}"

/-- Adds a file to a disk, if there is one at the place. -/
def addFile (disk : Disk) (place : List String) : IO Disk := do
  try
    let bytes ← IO.FS.readBinFile (Path.text ⟨.slash, place⟩)
    return disk.put place (.file bytes.toList)
  catch _ => return disk

/-- Adds what stands at a place and below it to a disk.  Links to directories are not followed. -/
partial def addBelow (disk : Disk) (place : List String) : IO Disk := do
  let written := Path.text ⟨.slash, place⟩
  try
    let found ← IO.FS.realPath written
    if ← found.isDir then
      let mut disk := disk.put place .directory
      if found.toString = written then
        for entry in ← found.readDir do
          disk ← addBelow disk (place ++ [entry.fileName])
      return disk
    else addFile disk place
  catch _ => return disk

/-- Adds what a command needs of a path: what lies below it, and settings in directories around
    it. -/
def addPath (disk : Disk) (path : Path) : IO Disk := do
  let mut disk ← addBelow disk (disk.placeOf path)
  for around in path.ancestors.take (Settings.searchHeight + 1) do
    disk ← addFile disk (disk.placeOf (around.child Settings.fileName))
  return disk

/-- The disk as far as some paths need it. -/
def readDisk (paths : List Path) : IO Disk := do
  let here := Path.ofText (← IO.currentDir).toString
  paths.foldlM addPath (({ workingDirectory := here.names } : Disk).put here.names .directory)

/-- Shows how a command ended; the result is the status of the program. -/
def showEnding (program : Program) : Except Fault Command.Ending → IO UInt32
  | .error fault => do
    IO.eprintln fault.message
    return 1
  | .ok (.refused .misuse) => do
    IO.eprintln program.usage
    return 2
  | .ok (.refused .help) => do
    IO.println program.usage
    return 0
  | .ok (.finished status output messages) => do
    IO.eprint (Command.ofLines messages)
    IO.print (Command.ofLines output)
    return status.toUInt32

def Program.execute (program : Program) (words : List String) : IO UInt32 := do
  let disk ← readDisk (program.paths words)
  showEnding program (program.run disk words)

/-- Shows how the program is called. -/
def showUsage : IO UInt32 := do
  for program in programs do
    IO.eprintln program.usage
  return 2

end Marginalia

/-- Runs the command that the first word names. -/
def main (words : List String) : IO UInt32 := do
  match words with
  | name :: rest =>
    match Marginalia.programs.find? fun program => program.name = name with
    | some program => program.execute rest
    | none => Marginalia.showUsage
  | [] => Marginalia.showUsage
