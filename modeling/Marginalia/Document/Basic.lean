import Marginalia.Annotation.Findings
import Marginalia.Data.Ordered
import Marginalia.Uri
import Marginalia.Variable.Sheet

/-!
# Documents

A document as an editor holds it: its text with the language and a version, under a URI.
-/

namespace Marginalia

structure Document where
  uri : String
  text : String
  languageName : Option String := none
  version : Int := 0
deriving Repr, DecidableEq

/-- Whether a document has annotations at all, finished or not. -/
def Document.hasAnnotations (document : Document) : Bool :=
  hasSigil document.text.toList

/-- The documents that are open, in the order in which they were opened, and the file name patterns of
    declaration sheets. -/
structure OpenDocuments where
  patterns : List String := defaultSheetPatterns
  documents : List (String × Document) := []
deriving Repr, DecidableEq

namespace OpenDocuments

/-- The open document of a URI. -/
def get? (opened : OpenDocuments) (uri : String) : Option Document :=
  opened.documents.lookup uri

/-- The documents with one put in place of that with its URI, or added as the last. -/
def put (opened : OpenDocuments) (document : Document) : OpenDocuments :=
  { opened with documents := Ordered.put document.uri document opened.documents }

/-- The language that a document is opened in: the given one, or the one that its URI tells. -/
def languageFor (uri : String) : Option String → Except HostFlaw (Option String)
  | some name => if name.isEmpty then Uri.languageName? uri else .ok (some name)
  | none => Uri.languageName? uri

def insert (opened : OpenDocuments) (uri text : String) (languageName : Option String)
    (version : Int) : Except HostFlaw (OpenDocuments × Document) :=
  (languageFor uri languageName).map fun languageName =>
    let document : Document := { uri, text, languageName, version }
    (opened.put document, document)

/-- Replaces the text of a document, which is opened if it is not open.  Without a version the next
    one is taken. -/
def update (opened : OpenDocuments) (uri text : String) (version : Option Int) :
    Except HostFlaw (OpenDocuments × Document) :=
  match opened.get? uri with
  | none => opened.insert uri text none (version.getD 0)
  | some known =>
    let document := { known with text, version := version.getD (known.version + 1) }
    .ok (opened.put document, document)

/-- Closes a document; one that is not open is passed over. -/
def close (opened : OpenDocuments) (uri : String) : OpenDocuments :=
  { opened with documents := Ordered.erase uri opened.documents }

def toList (opened : OpenDocuments) : List Document :=
  opened.documents.map Prod.snd

end OpenDocuments

end Marginalia
