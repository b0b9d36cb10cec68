import Marginalia.Report.Basic
import Marginalia.Variable.Entry

/-!
# Declaration sheets

A sheet is the document that declares variables: a JSON object whose member `variables` has an entry
for each of them.  An entry that cannot be used is passed over with a notice and says nothing about
the others; a text that is no such object declares nothing.
-/

namespace Marginalia

/-- The variables that a document declares, in the order of its keys. -/
structure Sheet where
  uri : String
  /-- The last name of the document's path, or its URI where the path has none. -/
  name : String
  text : String
  entries : List (String × Entry)
deriving Repr, DecidableEq

/-- The name of the sheet with a URI. -/
def sheetName (uri : String) : Except HostFlaw String :=
  (Uri.path uri).map fun path =>
    let name := (Path.ofText path).name
    if name.isEmpty then uri else name

/-- Whether a document is a declaration sheet, by the last name of its path. -/
def isSheet (patterns : List String) (uri : String) : Except HostFlaw Bool :=
  (Uri.path uri).map fun path =>
    patterns.any fun pattern => Text.Wildcard.matchesName pattern (Path.ofText path).name

namespace Sheet

/-- Reads one declaration of a sheet, or tells why it cannot be used. -/
def readEntry (uri : String) (declared : String × Value) : Except Notice (String × Entry) :=
  if isValidName declared.1 then
    match Entry.ofValue declared.2 with
    | .ok entry => .ok (declared.1, entry)
    | .error mismatch => .error (.unusableEntry declared.1 uri mismatch.expected)
  else .error (.unusableName declared.1 uri)

/-- The notice that a result is, if it is one. -/
def notice? {α : Type} : Except Notice α → Option Notice
  | .error notice => some notice
  | .ok _ => none

/-- The declarations in a JSON value, if it is an object with a member for them. -/
def declarations? (content : Value) : Option (List (String × Value)) :=
  match content.get? "variables" with
  | some (.table declared) => some declared
  | _ => none

/-- Reads the entries of a sheet from its text. -/
def readEntries (uri text : String) : Report (Option (List (String × Entry))) :=
  match Json.read text.toList with
  | .error (.longInteger digits) => Report.fail (.longInteger digits)
  | .error (.tooDeep container) => Report.fail (.tooDeep (some container))
  | .error (.malformed complaint offset) => do
    Report.notify (.brokenSheet uri (complaint.describe text.toList offset))
    return none
  | .ok content =>
    match declarations? content with
    | none => do
      Report.notify (.emptySheet uri)
      return none
    | some declared => do
      let results := declared.map (readEntry uri)
      Report.notifyAll (results.filterMap notice?)
      return some (results.filterMap Except.toOption)

/-- Reads a sheet; none if its text is no declaration document. -/
def read (uri text : String) : Report (Option Sheet) := do
  match ← readEntries uri text with
  | none => return none
  | some entries =>
    let name ← Report.ofHost (sheetName uri)
    return some { uri, name, text, entries }

/-- The number of the first line that has the name between double quotes, counted from one; zero if
    there is none. -/
def lineOf (sheet : Sheet) (name : String) : Nat :=
  let key := '"' :: name.toList ++ ['"']
  match (Text.lines sheet.text.toList).findIdx? (Text.occursIn key) with
  | some index => index + 1
  | none => 0

end Sheet

end Marginalia
