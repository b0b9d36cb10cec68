import Marginalia.Document.Workspace
import Marginalia.Proofs.Document.Location
import Marginalia.Proofs.Document.Refresh
import Marginalia.Proofs.Document.Selection
import Marginalia.Proofs.Text.Wildcard
import Mathlib.Data.String.Basic

/-!
# The documents of a workspace

A workspace lists what lies below its root in order, and reads each file that it holds by its URI again.
As the URI stands for the same place whatever the names are, no file gets lost on the way.
-/

namespace Marginalia

/-! ## The order of places -/

section Order

variable {front back other : List String}

end Order

/-! ## The paths of a workspace -/

namespace Workspace

variable {workspace : Workspace} {disk : Disk} {names : List String}

section Paths

variable (tree : disk.IsTree) (isThere : disk.isDirectory workspace.root = .ok true)

include tree isThere

end Paths

/-! ## What is read of a path -/

section Reading

variable (tree : disk.IsTree) {place : List String} {node : DiskNode}
  (found : disk.at? place = some node)

include tree found

end Reading

section Documents

variable (tree : disk.IsTree) (absolute : workspace.root.root ≠ .relative)
  (isThere : disk.isDirectory workspace.root = .ok true) (sheetsOnly : workspace.withSources = false)
  {bytes : List UInt8}

include tree

include absolute

include sheetsOnly

end Documents

/-! ## All documents -/

section All

variable (tree : disk.IsTree) (absolute : workspace.root.root ≠ .relative)
  (isThere : disk.isDirectory workspace.root = .ok true) (sheetsOnly : workspace.withSources = false)

include tree absolute isThere sheetsOnly

end All

section Deep

variable {depth : Nat}

end Deep

end Workspace

end Marginalia
