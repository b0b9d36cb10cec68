import Marginalia.Language
import Marginalia.Path
import Marginalia.Text.Percent
import Marginalia.Text.Search
import Marginalia.Uri.Host

/-!
# Document URIs

Documents are known by URIs.  A `file://` URI stands for a path: the host in front of it, the query
and the fragment behind it are left out and its escapes are decoded.  Any other text stands for
itself.
-/

namespace Marginalia

namespace Uri

/-- The beginning of every URI that stands for a path. -/
def scheme : String := "file://"

/-- Whether a character is dropped from every URI. -/
def isDropped (c : Char) : Bool :=
  c = '\t' || c = '\r' || c = '\n'

/-- Whether the host of a URI ends in front of a character. -/
def endsHost (c : Char) : Bool :=
  c = '/' || c = '?' || c = '#'

/-- The text in front of the first occurrence of a character. -/
def ahead (mark : Char) (text : List Char) : List Char :=
  text.takeWhile (· ≠ mark)

/-- The path that what follows the scheme stands for. -/
def pathBehindScheme (text : List Char) : Except HostFlaw (List Char) :=
  let text := text.filter (! isDropped ·)
  let host := text.takeWhile (! endsHost ·)
  match Host.flaw? host with
  | some flaw => .error flaw
  | none => .ok (Text.Percent.decode (ahead '?' (ahead '#' (text.drop host.length))))

/-- The path that a URI stands for. -/
def path (uri : String) : Except HostFlaw String :=
  if scheme.toList.isPrefixOf uri.toList then
    (pathBehindScheme (uri.toList.drop scheme.length)).map String.ofList
  else .ok uri

/-- The URI of an absolute path. -/
def ofPath (path : Path) : String :=
  scheme ++ String.ofList (Text.Percent.encode path.text.toList)

/-- The language that a name's ending belongs to, in either case. -/
def languageOfName (name : String) : Option Language :=
  Language.ofEnding? (String.ofList ((endingOf name).toList.map Char.toLower))

/-- The language of a document by the ending of its path. -/
def language? (uri : String) : Except HostFlaw (Option Language) :=
  (path uri).map fun text => languageOfName (Path.ofText text).name

/-- The name of the language of declaration documents. -/
def dataLanguage : String := "json"

/-- The name of the language of a document by its URI: declaration documents have a language of
    their own, which has no comments. -/
def languageName? (uri : String) : Except HostFlaw (Option String) := do
  let text ← path uri
  if ".json".toList.isSuffixOf text.toList then return some dataLanguage
  return (languageOfName (Path.ofText text).name).map Language.name

example : (path "file:///a%20b.ts?x#y").toOption = some "/a b.ts" := by decide
example : (path "file://bad]/a.ts").toOption = none := by decide

end Uri

end Marginalia
