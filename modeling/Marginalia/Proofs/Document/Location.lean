import Marginalia.Proofs.Document.Tree
import Marginalia.Proofs.Text.Percent
import Marginalia.Proofs.Text.Trim
import Marginalia.Uri

/-!
# Where a document is

The URI of what stands at a place of a tree stands for the path of the place again, whatever characters
are in the names.  The path of a place is not longer than any absolute path that leads there.
-/

namespace Marginalia

namespace Path

/-- The path of a place. -/
def ofPlace (place : List String) : Path := ⟨.slash, place⟩

variable {place : List String}

end Path

/-! ## How long paths are -/

/-- The number of bytes of some names, each with a slash. -/
def weight : List String → Nat
  | [] => 0
  | name :: names => name.utf8ByteSize + 1 + weight names

theorem weight_append (front back : List String) : weight (front ++ back) = weight front + weight back := by
  induction front with
  | nil => exact (Nat.zero_add _).symm
  | cons name front ih => rw [List.cons_append, weight, weight, ih, ← Nat.add_assoc]

theorem weight_singleton (name : String) : weight [name] = name.utf8ByteSize + 1 :=
  rfl

theorem utf8ByteSize_intercalate {names : List String} (somewhere : names ≠ []) :
    ("/".intercalate names).utf8ByteSize + 1 = weight names := by
  induction names with
  | nil => exact absurd rfl somewhere
  | cons name names ih =>
    cases names with
    | nil => simp [weight]
    | cons next names =>
      have slash : "/".utf8ByteSize = 1 := by decide
      have rest := ih (List.cons_ne_nil next names)
      rw [weight, String.intercalate_cons_cons, String.utf8ByteSize_append,
        String.utf8ByteSize_append, slash]
      omega

theorem utf8ByteSize_text_child (path : Path) (name : String) : (path.child name).text.utf8ByteSize =
    path.root.text.utf8ByteSize + (weight path.names + name.utf8ByteSize) := by
  have somewhere : (path.child name).names ≠ [] :=
    List.append_ne_nil_of_right_ne_nil _ (List.cons_ne_nil _ _)
  have elsewhere : path.child name ≠ Path.here := fun same => somewhere (congrArg Path.names same)
  have root : (path.child name).root = path.root := rfl
  have size := utf8ByteSize_intercalate somewhere
  rw [Path.child, weight_append, weight_singleton, ← Path.child] at size
  rw [Path.text, if_neg elsewhere, String.utf8ByteSize_append, root]
  omega

/-- A directory has a shorter path than what lies in it. -/
theorem isShort_of_child {path : Path} {name : String} (proper : 0 < name.utf8ByteSize)
    (short : (path.child name).IsShort) : path.IsShort := by
  rw [Path.IsShort, utf8ByteSize_text_child] at short
  rw [Path.IsShort, Path.text]
  split
  next => decide
  next elsewhere =>
    rw [String.utf8ByteSize_append]
    by_cases atTop : path.names = []
    · rw [atTop]
      have nothing : ("/".intercalate []).utf8ByteSize = 0 := by decide
      omega
    · have size := utf8ByteSize_intercalate atTop
      omega

theorem isShort_child_of_weight {path other : Path} {name : String} (short : (path.child name).IsShort)
    (root : other.root.text.utf8ByteSize ≤ path.root.text.utf8ByteSize)
    (fewer : weight other.names ≤ weight path.names) : (other.child name).IsShort := by
  rw [Path.IsShort, utf8ByteSize_text_child] at short ⊢
  omega

namespace Disk.IsTree

variable {disk : Disk} (tree : disk.IsTree) {place : List String} {path : Path} {name : String}
  {node : DiskNode}

include tree

theorem isFileName_of_at? (found : disk.at? place = some node) : ∀ name ∈ place, IsFileName name := by
  by_cases atTop : place = []
  · simp [atTop]
  · exact tree.named _ ((tree.at?_eq_some_iff atTop).mp found)

theorem isFileName_of_mem_names (found : disk.at? (disk.startOf path ++ path.names) = some node) :
    ∀ name ∈ path.names, IsFileName name :=
  fun name member => tree.isFileName_of_at? found name (List.mem_append_right _ member)

theorem find_of_at? (found : disk.at? (disk.startOf path ++ path.names) = some node)
    (short : path.IsShort) : disk.find path = .ok node := by
  rw [find, if_neg (Nat.not_lt.mpr short)]
  exact tree.walk_of_at? path (tree.isFileName_of_mem_names found) found

theorem find?_of_at? (found : disk.at? (disk.startOf path ++ path.names) = some node) :
    disk.find? path = if path.IsShort then .ok (some node) else .error (.tooLong path) := by
  have free : NulFree path.text := Path.nulFree_text_iff.mpr fun name member =>
    (tree.isFileName_of_mem_names found name member).nulFree
  split
  next short => exact find?_eq_some_iff.mpr ⟨free, tree.find_of_at? found short⟩
  next long => exact find?_of_long free long

theorem find_child_of_missing (around : disk.at? (disk.startOf path ++ path.names) = some .directory)
    (named : IsFileName name) (short : (path.child name).IsShort)
    (missing : disk.at? (disk.startOf path ++ path.names ++ [name]) = none) :
    disk.find (path.child name) = .error (.missing (path.child name)) := by
  have isNamed := tree.isFileName_of_mem_names around
  rw [find, if_neg (Nat.not_lt.mpr short)]
  show disk.walk (path.child name) (disk.startOf path) (path.names ++ [name]) = _
  rw [walk_append (tree.walk_of_at? (path.child name) isNamed around),
    follow_of_forward fun name member => (isNamed name member).forward, walk_cons around named.short,
    if_neg named.forward]
  unfold walk
  rw [missing]

/-- What is looked for in a directory under a name is found at the place that the name has there. -/
theorem find?_child (around : disk.at? (disk.startOf path ++ path.names) = some .directory)
    (named : IsFileName name) : disk.find? (path.child name) =
      if (path.child name).IsShort then .ok (disk.at? (disk.startOf path ++ path.names ++ [name]))
      else .error (.tooLong (path.child name)) := by
  split
  next short =>
    cases found : disk.at? (disk.startOf path ++ path.names ++ [name]) with
    | some node =>
      have below : disk.at? (disk.startOf (path.child name) ++ (path.child name).names) = some node := by
        rwa [List.append_assoc] at found
      rw [tree.find?_of_at? below, if_pos short]
    | none => exact find?_of_missing (tree.find_child_of_missing around named short found)
  next long =>
    have isNamed : ∀ other ∈ (path.child name).names, IsFileName other :=
      List.forall_mem_append.mpr
        ⟨tree.isFileName_of_mem_names around, List.forall_mem_singleton.mpr named⟩
    exact find?_of_long (Path.nulFree_text_iff.mpr fun other member => (isNamed other member).nulFree) long

end Disk.IsTree

/-! ## URIs -/

namespace Uri

theorem exists_languageName? {uri path : String} (hosted : Uri.path uri = .ok path) :
    ∃ languageName, languageName? uri = .ok languageName := by
  rw [languageName?, hosted]
  show ∃ languageName, (if ".json".toList.isSuffixOf path.toList then _ else _) = _
  split <;> exact ⟨_, rfl⟩

-- The URI of a text is meant.  A byte of no text is read as a character that stands for any such byte.
example : Uri.path "file:///r/%FF/.acp.vars.json" = .ok "/r/\uFFFD/.acp.vars.json" := by
  decide +kernel

end Uri

end Marginalia
