import Marginalia.Annotation.Findings
import Marginalia.Data.Ordered
import Marginalia.Document.Selection
import Marginalia.Report.Basic

/-!
# Scanning source files

The annotations of a source file, and those of all source files below a directory.  The language of a
file follows from its ending.
-/

namespace Marginalia

/-- The parts of the pattern for the files with an ending, anywhere below a directory.  An ending with
    a slash behind it is that of directories, so it fits no file. -/
def endingParts (ending : String) : Except Fault (List String) :=
  let parts := (Path.ofText ("*" ++ ending)).names
  let isUnclear := fun part : String =>
    part != "**" && Text.occursIn ['*', '*'] part.toList
  if parts.any isUnclear then .error .starsInName
  else .ok ("**" :: parts ++ if ['/'].isSuffixOf ending.toList then ["**"] else [])

/-- Reads the annotations of a file in a language; none if there is no language. -/
def Findings.ofFileIn? (rules : ValueRules) (disk : Disk) (path : Path) :
    Option Language → Except Fault (Option Findings)
  | none => .ok none
  | some language =>
    if path.text.toList.contains '\x00' then .error .nulInPath
    else
      (disk.text path).mapError .file |>.map fun text =>
        some (Findings.ofText rules language.name text.toList)

/-- Reads the annotations of a file; none if it is in no known language. -/
def Findings.ofFile? (rules : ValueRules) (disk : Disk) (path : Path) :
    Except Fault (Option Findings) :=
  ofFileIn? rules disk path (Uri.languageOfName path.name)

/-- What was found in files, by their paths, in the order in which they were read first. -/
abbrev ScanResults := List (Path × Findings)

/-- The results with those of a file added or replaced. -/
def ScanResults.put (path : Path) (findings : Findings) : ScanResults → ScanResults
  | [] => [(path, findings)]
  | (other, old) :: rest =>
    if path = other then (path, findings) :: rest
    else (other, old) :: ScanResults.put path findings rest

/-- Scans what a path leads to, beside results that are there already.  A file that cannot be read is
    passed over with a notice, and one without annotations is left out. -/
def scanFile (rules : ValueRules) (disk : Disk) (results : ScanResults) (path : Path) :
    Report ScanResults := do
  if ← Report.ofFile (disk.isFile path) then
    match Findings.ofFile? rules disk path with
    | .error (.file flaw) => do
      Report.notify (.unreadableSource path flaw)
      return results
    | .error fault => Report.fail fault
    | .ok none => return results
    | .ok (some findings) =>
      return if findings.isEmpty then results else results.put path findings
  else return results

/-- Scans the files among some paths, one after the other. -/
def scanFiles (rules : ValueRules) (disk : Disk) : ScanResults → List Path → Report ScanResults
  | results, [] => return results
  | results, path :: rest => do
    scanFiles rules disk (← scanFile rules disk results path) rest

/-- Scans the files below a directory with some endings, ending by ending. -/
def scanEndings (rules : ValueRules) (disk : Disk) (directory : Path) :
    ScanResults → List String → Report ScanResults
  | results, [] => return results
  | results, ending :: rest => do
    let parts ← Report.ofExcept (endingParts ending)
    let found ← Report.ofFile (disk.select directory parts)
    let results ← scanFiles rules disk results (Disk.pathsTo directory found)
    scanEndings rules disk directory results rest

/-- Scans the files below a directory. -/
def scanDirectory (rules : ValueRules) (disk : Disk) (directory : Path)
    (endings : List String := Language.allEndings) : Report ScanResults :=
  scanEndings rules disk directory [] endings

end Marginalia
