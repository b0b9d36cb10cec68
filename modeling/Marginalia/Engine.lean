import Marginalia.Document.Library
import Marginalia.Settings.Discovery
import Marginalia.Variable.Resolution
import Marginalia.Variable.Surroundings

/-!
# The engine

Annotations and variables behind one interface: a library of documents, the settings, and the
catalogue of the variables that the library's sheets declare.  The catalogue is read when a request
first needs it, and again when it was marked as stale; changes of documents alone do not touch it.
-/

namespace Marginalia

/-- A library with its settings and the catalogue of its variables. -/
structure Engine where
  settings : Settings
  library : Library
  catalogue : Catalogue
deriving Repr, DecidableEq

/-- A variable as it is listed. -/
structure ListedVariable where
  name : String
  kind : VariableKind
  description : Option String
  /-- The name of the sheet that declares it, or the word for built-in variables. -/
  origin : String
deriving Repr, DecidableEq

/-- What a list says behind a variable: its description, if it has one. -/
def ListedVariable.remark (listed : ListedVariable) : String :=
  match nonempty? listed.description with
  | some description => s!" - {description}"
  | none => ""

/-- A built-in variable as it is listed. -/
def Builtin.listed (builtin : Builtin) : ListedVariable :=
  ⟨builtin.name, .plain, some builtin.description, Origin.builtin.word⟩

namespace Catalogue

/-- A declared variable as it is listed: by the declaration that counts. -/
def listed? (catalogue : Catalogue) (name : String) : Option ListedVariable :=
  (catalogue.lookup name).map fun (entry, sheet) =>
    ⟨name, entry.kindFor name, entry.description, sheet.name⟩

/-- All variables, the built-in ones first. -/
def listing (catalogue : Catalogue) : List ListedVariable :=
  Builtin.all.map Builtin.listed ++
    (catalogue.names.filter fun name => (Builtin.ofName? name).isNone).filterMap catalogue.listed?

end Catalogue

namespace Engine

/-- An engine whose catalogue was not read yet. -/
def start (settings : Settings) (library : Library) : Engine :=
  ⟨settings, library, { precedence := settings.precedence }⟩

/-- An engine without documents. -/
def empty (settings : Settings) : Engine :=
  start settings (.opened { patterns := settings.sheetPatterns })

/-- An engine for the declaration sheets of a workspace; without settings, those that govern the
    workspace apply. -/
def ofWorkspace (disk : Disk) (root : Path) (settings : Option Settings) : Report Engine := do
  let settings ← match settings with
    | some settings => pure settings
    | none => Settings.governing disk root
  return start settings
    (.onDisk { root, patterns := settings.sheetPatterns, withSources := false })

/-- The rules for values that the settings ask for. -/
def rules (engine : Engine) : ValueRules :=
  ⟨engine.settings.alsoOptional⟩

/-! ## The catalogue -/

/-- The engine with its catalogue read again. -/
def refresh (engine : Engine) (disk : Disk) : Report Engine := do
  return { engine with catalogue := ← engine.library.refresh disk engine.catalogue }

/-- The engine with its catalogue read again if it is stale. -/
def freshen (engine : Engine) (disk : Disk) : Report Engine := do
  return { engine with catalogue := ← engine.library.freshen disk engine.catalogue }

/-- The engine with its catalogue marked as stale. -/
def invalidate (engine : Engine) : Engine :=
  { engine with catalogue := engine.catalogue.invalidate }

/-! ## Annotations -/

/-- Reads the annotations of a document; none if the document or its language is not known. -/
def parseDocument (engine : Engine) (disk : Disk) (uri : String) : Report (Option Findings) := do
  match ← engine.library.textOf? disk uri with
  | none => do
    Report.notify (.unknownDocument uri)
    return none
  | some text =>
    let known ← Report.ofHost (engine.library.languageName? uri)
    let languageName ← match nonempty? known with
      | some name => pure (some name)
      | none => Report.ofHost (Uri.languageName? uri)
    return languageName.map fun name => Findings.ofText engine.rules name text.toList

/-- What is known about a place of a document. -/
def surroundings (engine : Engine) (disk : Disk) (uri : String) (offset : Int) :
    Report (Option Surroundings) := do
  match ← engine.library.textOf? disk uri with
  | none => return none
  | some text =>
    let findings ← engine.parseDocument disk uri
    let path ← Report.ofHost (Uri.path uri)
    let annotations := (findings.map Findings.annotations).getD []
    return some (.ofPlace path text.toList offset annotations)

/-! ## Variables -/

/-- A new request at a place. -/
def request (engine : Engine) (place : Option Surroundings) : Request :=
  { limit := engine.settings.depthLimit, place }

/-- The engine with a catalogue that is fresh, if it is needed. -/
def prepare (engine : Engine) (disk : Disk) (isNeeded : Bool) : Report Engine :=
  if isNeeded then engine.freshen disk else return engine

/-- The notices that the steps of a resolution give. -/
def noticesOf (steps : List Resolution.Step) : List Notice :=
  steps.filterMap fun step =>
    match step with
    | .found name sheet => some (.resolved name sheet)
    | _ => none

/-- Resolves a name for a request, where the stack has room for every name. -/
def resolve (engine : Engine) (disk : Disk) (request : Request) (name : String)
    (modifier : Option String) : Report (Engine × Except Failure Resolved) := do
  let engine ← engine.prepare disk (request.needsCatalogue name modifier)
  let resolution := request.resolution engine.catalogue name modifier
  Report.notifyAll (noticesOf resolution.notes)
  return (engine, resolution.outcome)

/-- Resolves a name for a request on a stack.  A catalogue that was read for it remains, also where the
    resolution is broken off. -/
def resolveOn (stack : Nat) (engine : Engine) (disk : Disk) (request : Request) (name : String)
    (modifier : Option String) : Report (Engine × Except Fault (Except Failure Resolved)) := do
  let engine ← engine.prepare disk (request.needsCatalogue name modifier)
  let run := (request.resolution engine.catalogue name modifier).onStack stack
  Report.notifyAll (noticesOf run.notes)
  return (engine, run.outcome)

/-- Expands the references of a text, at a place, where the stack has room for every name. -/
def expand (engine : Engine) (disk : Disk) (text : String) (place : Option Surroundings) :
    Report (Engine × String) := do
  let request := engine.request place
  let references := referencesToExpand text.toList
  let engine ← engine.prepare disk
    (references.any fun reference => request.needsCatalogue reference.name reference.modifier)
  Report.notifyAll (references.flatMap fun reference =>
    noticesOf (request.resolution engine.catalogue reference.name reference.modifier).notes)
  return (engine, request.expand engine.catalogue text)

/-- Expands the references of a text, at a place, on a stack. -/
def expandOn (stack : Nat) (engine : Engine) (disk : Disk) (text : String)
    (place : Option Surroundings) : Report (Engine × Except Fault String) := do
  let request := engine.request place
  let references := referencesToExpand text.toList
  let engine ← engine.prepare disk
    (references.any fun reference => request.needsCatalogue reference.name reference.modifier)
  let runs := references.mapM fun reference =>
    (request.resolution engine.catalogue reference.name reference.modifier).onStack stack
  Report.notifyAll (noticesOf runs.notes)
  return (engine, runs.outcome.map fun _ => request.expand engine.catalogue text)

/-- Whether a name is that of a built-in or a declared variable. -/
def isDefined (engine : Engine) (disk : Disk) (name : String) : Report (Engine × Bool) :=
  if (Builtin.ofName? name).isSome then return (engine, true)
  else do
    let engine ← engine.freshen disk
    return (engine, engine.catalogue.declares name)

def listVariables (engine : Engine) (disk : Disk) : Report (Engine × List ListedVariable) := do
  let engine ← engine.freshen disk
  return (engine, engine.catalogue.listing)

/-- The names that several sheets declare, with the names of those sheets. -/
def repeated (engine : Engine) (disk : Disk) : Report (Engine × List (String × List String)) := do
  let engine ← engine.freshen disk
  return (engine, engine.catalogue.repeated)

/-! ## References in annotations -/

/-- Checks references of a document one after the other, on a stack: a diagnostic for each that cannot
    be resolved at its place. -/
def checkReferences (stack : Nat) (disk : Disk) (placeOf : Int → Surroundings) :
    Engine → List Reference → Report (Engine × Except Fault (List Diagnostic))
  | engine, [] => return (engine, .ok [])
  | engine, reference :: rest => do
    let request := engine.request (some (placeOf reference.range.start))
    let (engine, run) ← engine.resolveOn stack disk request reference.name reference.modifier
    match run with
    | .error fault => return (engine, .error fault)
    | .ok (.ok _) => checkReferences stack disk placeOf engine rest
    | .ok (.error failure) =>
      let (engine, others) ← checkReferences stack disk placeOf engine rest
      return (engine, others.map (⟨.unresolved failure.message, reference.range⟩ :: ·))

/-- The diagnostics of the references in the values of a document's annotations, on a stack. -/
def variableDiagnostics (stack : Nat) (engine : Engine) (disk : Disk) (uri : String) :
    Report (Engine × Except Fault (List Diagnostic)) := do
  match ← engine.parseDocument disk uri with
  | none => return (engine, .ok [])
  | some findings =>
    let text := ((← engine.library.textOf? disk uri).getD "").toList
    let path ← Report.ofHost (Uri.path uri)
    let placeOf := fun offset => Surroundings.ofPlace path text offset findings.annotations
    engine.checkReferences stack disk placeOf (findings.annotations.flatMap Annotation.references)

end Engine

end Marginalia
