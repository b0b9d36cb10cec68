import Marginalia.Variable.Sheet

/-!
# The catalogue of declared variables

The sheets that were read, in the order of their documents.  Where several declare a name, the
precedence of the catalogue decides which of them counts.  The catalogue is kept until it is marked as
stale; then the next request that needs it reads the sheets again.
-/

namespace Marginalia

/-- The sheets that were read last, and whether they have to be read again. -/
structure Catalogue where
  precedence : Precedence := .first
  sheets : List Sheet := []
  isStale : Bool := true
deriving Repr, DecidableEq

namespace Catalogue

/-- The sheets, those that count more in front. -/
def ranked (catalogue : Catalogue) : List Sheet :=
  match catalogue.precedence with
  | .first => catalogue.sheets
  | .last => catalogue.sheets.reverse

/-- The declaration of a name that counts, and the sheet that it stands in. -/
def lookup (catalogue : Catalogue) (name : String) : Option (Entry × Sheet) :=
  catalogue.ranked.findSome? fun sheet => (sheet.entries.lookup name).map (·, sheet)

/-- Whether a sheet declares the name. -/
def declares (catalogue : Catalogue) (name : String) : Bool :=
  catalogue.sheets.any fun sheet => (sheet.entries.lookup name).isSome

/-- All declarations with the sheets they stand in, repeated ones too. -/
def declarations (catalogue : Catalogue) : List (String × Entry × Sheet) :=
  catalogue.sheets.flatMap fun sheet =>
    sheet.entries.map fun (name, entry) => (name, entry, sheet)

/-- The declared names, each once, in the order of their first declarations. -/
def names (catalogue : Catalogue) : List String :=
  (catalogue.declarations.map (·.1)).eraseDups

/-- The names of the sheets that declare a name, in order. -/
def sheetsDeclaring (catalogue : Catalogue) (name : String) : List String :=
  (catalogue.declarations.filter (·.1 = name)).map (·.2.2.name)

/-- The names that several sheets declare, with the names of those sheets. -/
def repeated (catalogue : Catalogue) : List (String × List String) :=
  (catalogue.names.map fun name => (name, catalogue.sheetsDeclaring name)).filter fun entry =>
    1 < entry.2.length

def invalidate (catalogue : Catalogue) : Catalogue :=
  { catalogue with isStale := true }

/-- The catalogue with sheets that were just read. -/
def fill (catalogue : Catalogue) (sheets : List Sheet) : Catalogue :=
  { catalogue with sheets, isStale := false }

/-- The notices about a catalogue that was just filled. -/
def notices (catalogue : Catalogue) : List Notice :=
  (catalogue.repeated.map fun (name, sheets) => .repeated name sheets catalogue.precedence) ++
    [.refreshed catalogue.sheets.length catalogue.declarations.length]

end Catalogue

end Marginalia
