import Marginalia.Data.Display
import Marginalia.Engine
import Marginalia.Text.Position

/-!
# Tools for assistants

What an assistant may ask of an engine: to read the annotations of a text, to resolve a variable, to
expand a text, or to list the variables.  Every tool has a schema of its parameters and answers with
Markdown.
-/

namespace Marginalia

inductive Tool where
  | parseAnnotations
  | resolveVariable
  | expandVariables
  | listVariables
deriving Repr, DecidableEq

/-- A parameter of a tool; its values are texts. -/
structure Parameter where
  name : String
  description : String
  isRequired : Bool := true
deriving Repr, DecidableEq

/-- The values that a tool is called with, by parameter. -/
abbrev Arguments := List (String × Value)

/-- The argument for a parameter; an empty one counts as none. -/
def Arguments.get? (arguments : Arguments) (name : String) : Option Value :=
  (arguments.lookup name).filter fun value => !value.isEmpty

namespace Tool

/-- All tools, in the order in which they are offered. -/
def all : List Tool := [.parseAnnotations, .resolveVariable, .expandVariables, .listVariables]

def name : Tool → String
  | .parseAnnotations => "parse_annotations"
  | .resolveVariable => "resolve_variable"
  | .expandVariables => "expand_variables"
  | .listVariables => "list_variables"

def ofName? (name : String) : Option Tool :=
  all.find? fun tool => tool.name = name

def description : Tool → String
  | .parseAnnotations =>
    "Parse @acp: annotations from source code comments. " ++
      "Returns each annotation with its namespace, value, position and any diagnostics."
  | .resolveVariable =>
    "Resolve one $NAME variable declared in .acp.vars.json or built in " ++
      "(FILE, LINE, FUNCTION, CLASS, MODULE)."
  | .expandVariables =>
    "Expand every $NAME reference in text. '$$' is a literal '$'. " ++
      "Unresolvable references become [ERROR: ...] markers."
  | .listVariables => "List built-in and declared variables of the workspace."

def parameters : Tool → List Parameter
  | .parseAnnotations =>
    [⟨"text", "Source code to parse", true⟩,
      ⟨"language_id", "Language id (e.g., 'typescript', 'python', 'rust')", true⟩]
  | .resolveVariable =>
    [⟨"identifier", "Variable name without '$' (e.g., 'SYM_AUTH')", true⟩,
      ⟨"modifier", "Optional rendering: full, ref or signature", false⟩]
  | .expandVariables => [⟨"text", "Text containing variable references", true⟩]
  | .listVariables => []

/-- The parameters that a tool cannot do without, in order. -/
def requiredParameters (tool : Tool) : List String :=
  (tool.parameters.filter Parameter.isRequired).map Parameter.name

def schema (tool : Tool) : Value :=
  let property := fun parameter : Parameter =>
    (parameter.name,
      Value.table [("type", .text "string"), ("description", .text parameter.description)])
  let required := tool.requiredParameters
  .table ([("type", .text "object"), ("properties", .table (tool.parameters.map property))] ++
    if required.isEmpty then [] else [("required", .list (required.map .text))])

/-! ## Answers -/

/-- An answer of several lines. -/
def document (lines : List String) : String :=
  "\n".intercalate lines

/-- A line that gives a property its name. -/
def property (name value : String) : String :=
  s!"**{name}**: {value}"

/-- The line of a property that may be missing. -/
def property? (name : String) (value : Option String) : List String :=
  (value.map (property name)).toList

/-- The line of a property with several values; none without values. -/
def properties (name : String) (values : List String) : List String :=
  if values.isEmpty then [] else [property name (", ".intercalate values)]

/-- The paragraph about an annotation. -/
def annotationLines (index : LineIndex) (note : Annotation) : List String :=
  let line := (index.positionOf note.range.start).line + 1
  [s!"### {sigil}{note.space} (line {line})", property "Category" note.category.word] ++
    property? "Value" note.value ++
    property? "Description" (nonempty? note.description) ++
    properties "Metadata" note.metadata ++
    properties "Variables" (note.references.map Reference.raw) ++ [""]

def diagnosticLine (index : LineIndex) (diagnostic : Diagnostic) : String :=
  let position := index.positionOf diagnostic.range.start
  let flaw := diagnostic.flaw
  s!"- {flaw.severity.word} {flaw.code} at {position.line + 1}:{position.character + 1}: " ++
    flaw.message

/-- What was found in a text. -/
def describeFindings (text : List Char) (findings : Findings) : String :=
  let index := LineIndex.ofText text
  let diagnostics := findings.diagnostics.map (diagnosticLine index)
  document ([s!"## Annotations ({findings.annotations.length})", ""] ++
    findings.annotations.flatMap (annotationLines index) ++
    if diagnostics.isEmpty then [] else "### Diagnostics" :: diagnostics)

def describeResolved (resolved : Resolved) : String :=
  let found := resolved.found
  let line := found.origin.line
  document ([s!"## ${found.name}", "", property "Type" found.kind.word,
      property "Value" resolved.rendered, property "Source" found.origin.word] ++
    (if line = 0 then [] else [property "Line" (toString line)]) ++
    property? "Description" (nonempty? found.description))

/-- A failure to resolve a name. -/
def describeFailure (name : String) (failure : Failure) : String :=
  document ([s!"## Unresolved: ${name}", "", property "Reason" failure.word,
      property "Message" failure.message] ++
    if failure.chain.isEmpty then [] else [property "Chain" (Failure.arrows failure.chain)])

def listedLine (listed : ListedVariable) : String :=
  s!"- **${listed.name}** ({listed.kind.word}, {listed.origin})" ++ listed.remark

def describeListing (listing : List ListedVariable) : String :=
  document ([s!"## Variables ({listing.length})", ""] ++ listing.map listedLine)

/-! ## Calls -/

/-- The answer to a call without a parameter that the tool cannot do without. -/
def missing (parameter : String) : String :=
  s!"Error: {parameter} is required"

/-- An argument that has to be a text for what is done with it. -/
def textFor (use : ValueUse) (argument : Value) : Report String :=
  match argument.text? with
  | some text => return text
  | none => Report.fail (.misfit use argument.kindWord)

/-- An argument that is looked up: any value but one that holds others, by its text. -/
def keyFor (argument : Value) : Report String :=
  if argument.isContainer then Report.fail (.misfit .lookup argument.kindWord)
  else return argument.inline

/-- Reads the annotations of a text.  In an unknown language it has none, whatever it is. -/
def answerFindings (engine : Engine) (language text : Value) : Report String := do
  let languageName ← keyFor language
  let text ← if (Language.ofName? languageName).isSome then textFor .matching text
    else pure (text.text?.getD "")
  let findings := Findings.ofText engine.rules languageName text.toList
  if findings.isEmpty then return s!"No annotations found ({languageName})"
  else return describeFindings text.toList findings

/-- Resolves a variable.  The modifier is looked up once the name is found to be one. -/
def answerResolved (engine : Engine) (disk : Disk) (name : Value) (modifier : Option Value) :
    Report (Engine × Except Fault String) := do
  let name ← textFor .matching name
  let modifier ← if isValidName name then modifier.mapM keyFor else pure none
  let (engine, run) ←
    engine.resolveOn Request.stackRoom disk (engine.request none) name modifier
  return (engine, run.map fun outcome =>
    match outcome with
    | .ok resolved => describeResolved resolved
    | .error failure => describeFailure name failure)

/-- Calls a tool whose required arguments are there.  Where the stack has no room for what it has to do,
    there is an engine but no answer. -/
def answer (tool : Tool) (engine : Engine) (disk : Disk) (arguments : Arguments) :
    Report (Engine × Except Fault String) := do
  let argument := fun name => (arguments.get? name).getD .null
  match tool with
  | .parseAnnotations =>
    return (engine, .ok (← answerFindings engine (argument "language_id") (argument "text")))
  | .resolveVariable =>
    answerResolved engine disk (argument "identifier") (arguments.get? "modifier")
  | .expandVariables =>
    let text ← textFor .replacement (argument "text")
    engine.expandOn Request.stackRoom disk text none
  | .listVariables =>
    let (engine, listing) ← engine.listVariables disk
    return (engine, .ok (describeListing listing))

/-- Calls a tool of an engine, which is asked for only if no required argument is missing: of those
    that are, the first is named in the answer.  The result has the engine if it was asked for. -/
def call (tool : Tool) (engine : Report Engine) (disk : Disk) (arguments : Arguments) :
    Report (Option Engine × Except Fault String) :=
  match tool.requiredParameters.find? fun name => (arguments.get? name).isNone with
  | some parameter => return (none, .ok (missing parameter))
  | none => do
    let (engine, text) ← tool.answer (← engine) disk arguments
    return (some engine, text)

/-- Why a call is turned down before it reaches a tool. -/
inductive Rejection where
  | unknownTool (name : String)
  /-- An argument that the schema asks for is not there at all. -/
  | missingArgument (parameter : String)
  /-- An argument that the schema knows is no text. -/
  | notText (shown : String)
deriving Repr, DecidableEq

def Rejection.message : Rejection → String
  | .unknownTool name => s!"Unknown tool: {name}"
  | .missingArgument parameter =>
    s!"Input validation error: '{parameter}' is a required property"
  | .notText shown => s!"Input validation error: {shown} is not of type 'string'"

/-- The argument that is no text although the schema asks for one, and its parameter.  Of several, it
    is that of the last parameter in the order of their names. -/
def notText? (tool : Tool) (arguments : Arguments) : Option (String × Value) :=
  let isText := fun value : Value => value.text?.isSome
  let found := tool.parameters.filterMap fun parameter =>
    ((arguments.lookup parameter.name).filter (!isText ·)).map (parameter.name, ·)
  found.foldl (fun last entry =>
    match last with
    | some (name, _) => if name < entry.1 then some entry else last
    | none => some entry) none

/-- The tool of a name, if the arguments fit its schema: no required one is missing, and all are
    texts. -/
def accept (name : String) (arguments : Arguments) : Except Rejection Tool :=
  match ofName? name with
  | none => .error (.unknownTool name)
  | some tool =>
    match tool.requiredParameters.find? fun parameter => (arguments.lookup parameter).isNone with
    | some parameter => .error (.missingArgument parameter)
    | none =>
      match tool.notText? arguments with
      | some (_, value) => .error (.notText value.display)
      | none => .ok tool

/-- Answers a call of a tool by its name.  A fault is told in the answer. -/
def dispatch (name : String) (engine : Report Engine) (disk : Disk) (arguments : Arguments) :
    Report (Option Engine × String) :=
  match accept name arguments with
  | .error rejection => return (none, rejection.message)
  | .ok tool => do
    let (engine, text) ← (tool.call engine disk arguments).rescue fun fault => (none, .error fault)
    match text with
    | .ok text => return (engine, text)
    | .error fault => return (engine, fault.message)

theorem ofName?_name (tool : Tool) : ofName? tool.name = some tool := by
  cases tool <;> decide

end Tool

end Marginalia
