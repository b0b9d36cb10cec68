import Marginalia.Data.Ordered
import Marginalia.Data.Value

/-!
# Building the tables of a TOML text

Statements of a TOML text fill a tree of tables.  A table may be opened by its own header once; a
table that dotted keys have opened may be filled by dotted keys of the same section only and has no
header of its own; values that were given are closed.  Where a header leads through an array of tables, it leads
to the last of them.
-/

namespace Marginalia.Toml

/-- How a table came to be. -/
inductive Origin where
  /-- A header leads through it. -/
  | implied
  /-- It has its own header. -/
  | header
  /-- Dotted keys of the section lead through it. -/
  | dotted (number : Nat)
deriving Repr, DecidableEq

/-- What stands under a key. -/
inductive Node where
  /-- A value that was given. -/
  | closed (value : Value)
  | table (origin : Origin) (entries : List (String × Node))
  /-- An array of tables: those before the last, and the entries of the last. -/
  | tables (earlier : List Node) (entries : List (String × Node))

/-- The entries of a table. -/
abbrev Entries := List (String × Node)

/-- How a path leads through a table: as part of a header, or of a dotted key in a section. -/
inductive Passage where
  | header
  | dotted (number : Nat)

/-- The origin of a table that a path creates on its way. -/
def Passage.origin : Passage → Origin
  | .header => .implied
  | .dotted number => .dotted number

/-- Enters what stands under a key: the entries there, and what stands there with other entries. -/
def Passage.enter? : Passage → Option Node → Option (Entries × (Entries → Node))
  | passage, none => some ([], .table passage.origin)
  | .header, some (.table origin entries) => some (entries, .table origin)
  | .header, some (.tables earlier entries) => some (entries, .tables earlier)
  | .dotted number, some (.table origin entries) =>
    if origin = .implied ∨ origin = .dotted number then some (entries, .table (.dotted number))
    else none
  | _, some _ => none

/-- The entries with those at the end of a path changed. -/
def Entries.change? (change : Entries → Option Entries) :
    List (Passage × String) → Entries → Option Entries
  | [], entries => change entries
  | (passage, key) :: rest, entries =>
    (passage.enter? (entries.lookup key)).bind fun (inner, rebuild) =>
      (Entries.change? change rest inner).map fun inner => Ordered.put key (rebuild inner) entries

/-- The entries with a value under a key that is new. -/
def Entries.assign? (key : String) (value : Value) (entries : Entries) : Option Entries :=
  match entries.lookup key with
  | none => some (Ordered.put key (.closed value) entries)
  | some _ => none

/-- The entries with a table opened by its own header. -/
def Entries.open? (key : String) (entries : Entries) : Option Entries :=
  match entries.lookup key with
  | none => some (Ordered.put key (.table .header []) entries)
  | some (.table .implied inner) => some (Ordered.put key (.table .header inner) entries)
  | some _ => none

/-- The entries with one more table in an array of tables. -/
def Entries.append? (key : String) (entries : Entries) : Option Entries :=
  match entries.lookup key with
  | none => some (Ordered.put key (.tables [] []) entries)
  | some (.tables earlier last) =>
    some (Ordered.put key (.tables (earlier ++ [.table .header last]) []) entries)
  | some _ => none

/-- The entries behind a header with the value of a dotted key added, in a section. -/
def Entries.assignDotted? (header : List String) (number : Nat) (key : List String) (value : Value)
    (entries : Entries) : Option Entries :=
  match key.getLast? with
  | none => none
  | some stem =>
    entries.change? (Entries.assign? stem value)
      (header.map (.header, ·) ++ key.dropLast.map (.dotted number, ·))

/-- The entries with the last part of a header's key changed. -/
def Entries.changeLast? (change : String → Entries → Option Entries) (key : List String)
    (entries : Entries) : Option Entries :=
  match key.getLast? with
  | none => none
  | some stem => entries.change? (change stem) (key.dropLast.map (.header, ·))

mutual

/-- The value that stands under a key. -/
def Node.value : Node → Value
  | .closed value => value
  | .table _ entries => .table (valuesOfEntries entries)
  | .tables earlier entries => .list (valuesOfNodes earlier ++ [.table (valuesOfEntries entries)])

/-- The values of nodes. -/
def valuesOfNodes : List Node → List Value
  | [] => []
  | node :: rest => node.value :: valuesOfNodes rest

/-- The value of an entry with its key. -/
def valueOfEntry : String × Node → String × Value
  | (key, node) => (key, node.value)

/-- The values of entries with their keys. -/
def valuesOfEntries : List (String × Node) → List (String × Value)
  | [] => []
  | entry :: rest => valueOfEntry entry :: valuesOfEntries rest

end

/-- The table of some entries. -/
def Entries.value (entries : Entries) : Value :=
  .table (valuesOfEntries entries)

end Marginalia.Toml
