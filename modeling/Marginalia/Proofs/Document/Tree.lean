import Marginalia.Document.Disk
import Marginalia.Proofs.Text.NulFree
import Marginalia.Proofs.Text.Utf8
import Mathlib.Data.List.Induction

/-!
# Files and directories as a tree

On a disk whose places make a tree, whatever lies below a directory is found by the path that leads there
from the directory, unless that path is too long.
-/

namespace Marginalia

/-- A name that a file or a directory can have. -/
structure IsFileName (name : String) : Prop where
  leads : Path.isStep name.toList = true
  forward : name ≠ ".."
  slashFree : '/' ∉ name.toList
  nulFree : NulFree name
  short : name.utf8ByteSize ≤ Disk.nameLimit

instance (name : String) : Decidable (IsFileName name) :=
  decidable_of_iff (Path.isStep name.toList = true ∧ name ≠ ".." ∧ '/' ∉ name.toList ∧ NulFree name ∧
      name.utf8ByteSize ≤ Disk.nameLimit)
    ⟨fun ⟨leads, forward, slashFree, nulFree, short⟩ => ⟨leads, forward, slashFree, nulFree, short⟩,
      fun ⟨leads, forward, slashFree, nulFree, short⟩ => ⟨leads, forward, slashFree, nulFree, short⟩⟩

namespace Path

/-- A path that is not too long to be looked for. -/
def IsShort (path : Path) : Prop :=
  path.text.utf8ByteSize ≤ Disk.pathLimit

instance (path : Path) : Decidable path.IsShort :=
  inferInstanceAs (Decidable (_ ≤ _))

theorem nulFree_text_iff {path : Path} : NulFree path.text ↔ ∀ name ∈ path.names, NulFree name := by
  rw [text]
  split
  next isHere =>
    subst isHere
    exact iff_of_true (by decide) (by simp [here])
  next =>
    have rootFree : NulFree path.root.text := by cases path.root <;> decide
    rw [nulFree_append, and_iff_right rootFree]
    refine ⟨fun free name member inName => free ?_, nulFree_intercalate (by decide)⟩
    rw [String.toList_intercalate]
    exact subset_intercalate _ (List.mem_map_of_mem member) inName

end Path

namespace Disk

/-- What stands on a disk makes a tree: places have proper names, nothing stands beside something else,
    and everything lies in a directory. -/
structure IsTree (disk : Disk) : Prop where
  named : ∀ entry ∈ disk.nodes, ∀ name ∈ entry.1, IsFileName name
  distinct : (disk.nodes.map Prod.fst).Nodup
  rooted : ∀ entry ∈ disk.nodes, entry.1 ≠ [] ∧ disk.at? entry.1.dropLast = some .directory

/-- Names lead from a directory to something below it. -/
def LiesBelow (disk : Disk) (directory : Path) (names : List String) (node : DiskNode) : Prop :=
  names ≠ [] ∧ disk.at? (disk.placeOf directory ++ names) = some node

/-- Names lead from a directory to a directory: to itself or to one below it. -/
def LeadsToDirectory (disk : Disk) (directory : Path) (names : List String) : Prop :=
  names = [] ∨ disk.LiesBelow directory names .directory

/-- What names lead to from a directory is neither too deep nor too far away for a walk from there. -/
def IsInReach (disk : Disk) (directory : Path) (names : List String) : Prop :=
  names.length ≤ disk.walkDepth ∧ (directory.below names).IsShort

/-! ## Places -/

theorem below?_eq_some_iff {place other names : List String} :
    below? place other = some names ↔ names ≠ [] ∧ other = place ++ names := by
  induction place generalizing other with
  | nil =>
    cases other with
    | nil => simp [below?]
    | cons name rest =>
      rw [below?, Option.some.injEq, List.nil_append]
      constructor
      · rintro rfl
        exact ⟨List.cons_ne_nil _ _, rfl⟩
      · rintro ⟨-, rfl⟩
        rfl
  | cons name place ih =>
    cases other with
    | nil => simp [below?]
    | cons other others =>
      rw [below?]
      split
      next same => rw [ih, same, List.cons_append, List.cons_inj_right]
      next different =>
        simp only [reduceCtorEq, false_iff, not_and, List.cons_append, List.cons.injEq]
        exact fun _ same _ => absurd same.symm different

theorem follow_append (place front back : List String) :
    follow place (front ++ back) = follow (follow place front) back := by
  induction front generalizing place with
  | nil => rfl
  | cons name front ih =>
    rw [List.cons_append, follow, follow]
    split <;> exact ih _

theorem follow_of_forward {place names : List String} (forward : ∀ name ∈ names, name ≠ "..") :
    follow place names = place ++ names := by
  induction names generalizing place with
  | nil => rw [follow, List.append_nil]
  | cons name names ih =>
    obtain ⟨here, forward⟩ := List.forall_mem_cons.mp forward
    rw [follow, if_neg here, ih forward, List.append_assoc, List.singleton_append]

theorem placeOf_below (disk : Disk) (directory : Path) {names : List String}
    (forward : ∀ name ∈ names, name ≠ "..") :
    disk.placeOf (directory.below names) = disk.placeOf directory ++ names := by
  show follow _ (directory.names ++ names) = _
  rw [follow_append, follow_of_forward forward]
  rfl

namespace IsTree

variable {disk : Disk} (tree : disk.IsTree) {directory : Path} {place names : List String}
  {node : DiskNode}

include tree

theorem at?_eq_some_iff (below : place ≠ []) :
    disk.at? place = some node ↔ (place, node) ∈ disk.nodes := by
  rw [at?, if_neg below]
  constructor
  · intro found
    obtain ⟨front, back, whole, -⟩ := List.lookup_eq_some_iff.mp found
    simp [whole]
  · intro member
    obtain ⟨front, back, whole⟩ := List.append_of_mem member
    refine List.lookup_eq_some_iff.mpr ⟨front, back, whole, fun entry among => ?_⟩
    have distinct := tree.distinct
    rw [whole, List.map_append, List.map_cons, List.nodup_append] at distinct
    have different := distinct.2.2 entry.1 (List.mem_map_of_mem among) place List.mem_cons_self
    simpa using Ne.symm different

theorem liesBelow_iff : disk.LiesBelow directory names node ↔
    ∃ place, (place, node) ∈ disk.nodes ∧ below? (disk.placeOf directory) place = some names := by
  constructor
  · rintro ⟨below, found⟩
    have nonempty := List.append_ne_nil_of_right_ne_nil (disk.placeOf directory) below
    exact ⟨_, (tree.at?_eq_some_iff nonempty).mp found, below?_eq_some_iff.mpr ⟨below, rfl⟩⟩
  · rintro ⟨place, member, leads⟩
    obtain ⟨below, rfl⟩ := below?_eq_some_iff.mp leads
    have nonempty := List.append_ne_nil_of_right_ne_nil (disk.placeOf directory) below
    exact ⟨below, (tree.at?_eq_some_iff nonempty).mpr member⟩

theorem isFileName_of_liesBelow (lies : disk.LiesBelow directory names node) :
    ∀ name ∈ names, IsFileName name := by
  obtain ⟨below, found⟩ := lies
  have member := (tree.at?_eq_some_iff (List.append_ne_nil_of_right_ne_nil _ below)).mp found
  exact fun name inNames => tree.named _ member name (List.mem_append_right _ inNames)

theorem at?_of_append (below : names ≠ []) (found : disk.at? (place ++ names) = some node) :
    disk.at? place = some .directory := by
  -- From the end: the last name stands in a directory, to which the names before it lead.
  induction names using List.reverseRecOn generalizing node with
  | nil => exact absurd rfl below
  | append_singleton names name ih =>
    have nonempty : place ++ (names ++ [name]) ≠ [] := by simp
    have around := (tree.rooted _ ((tree.at?_eq_some_iff nonempty).mp found)).2
    rw [← List.append_assoc, List.dropLast_concat] at around
    by_cases last : names = []
    · rwa [last, List.append_nil] at around
    · exact ih last around

end IsTree

/-! ## Finding what lies below a directory -/

section Walks

variable {disk : Disk} {path other : Path} {place front back : List String} {name : String}
  {node : DiskNode}

theorem walk_nil (found : disk.at? place = some node) : disk.walk path place [] = .ok node := by
  unfold walk
  rw [found]
  cases node <;> rfl

theorem walk_cons (found : disk.at? place = some .directory) (short : name.utf8ByteSize ≤ nameLimit) :
    disk.walk path place (name :: back) =
      disk.walk path (if name = ".." then place.dropLast else place ++ [name]) back := by
  rw [walk.eq_def]
  dsimp only
  rw [found]
  exact if_neg (Nat.not_lt.mpr short)

theorem of_walk_cons (leads : disk.walk path place (name :: back) = .ok node) :
    disk.at? place = some .directory ∧ name.utf8ByteSize ≤ nameLimit := by
  rw [walk.eq_def] at leads
  dsimp only at leads
  split at leads
  next => cases leads
  next => cases leads
  next stops => cases stops
  next found same =>
    cases same
    split at leads
    next => cases leads
    next short => exact ⟨found, Nat.not_lt.mp short⟩

theorem walk_append (leads : disk.walk other place front = .ok .directory) :
    disk.walk path place (front ++ back) = disk.walk path (follow place front) back := by
  -- The path of a walk stands only in its flaws, so a walk for another path tells as much.
  induction front generalizing place with
  | nil => rfl
  | cons name front ih =>
    obtain ⟨found, short⟩ := of_walk_cons leads
    rw [walk_cons found short] at leads
    rw [List.cons_append, walk_cons found short, ih leads, follow]
    split <;> rfl

end Walks

namespace IsTree

variable {disk : Disk} (tree : disk.IsTree) {directory : Path} {place names : List String}
  {node : DiskNode}

include tree

theorem walk_of_at? (path : Path) (named : ∀ name ∈ names, IsFileName name)
    (found : disk.at? (place ++ names) = some node) : disk.walk path place names = .ok node := by
  induction names generalizing place with
  | nil =>
    rw [List.append_nil] at found
    exact walk_nil found
  | cons name names ih =>
    obtain ⟨here, named⟩ := List.forall_mem_cons.mp named
    rw [walk_cons (tree.at?_of_append (List.cons_ne_nil name names) found) here.short, if_neg here.forward]
    rw [List.append_cons] at found
    exact ih named found

end IsTree

section Finding

variable {disk : Disk} {path directory : Path} {names : List String} {node : DiskNode}

theorem find?_eq_some_iff :
    disk.find? path = .ok (some node) ↔ NulFree path.text ∧ disk.find path = .ok node := by
  rw [find?, NulFree]
  split
  next holds => simp_all
  next free =>
    have nulFree : '\x00' ∉ path.text.toList := by simpa using free
    rw [and_iff_right nulFree]
    split <;> simp_all

theorem isDirectory_eq_true_iff :
    disk.isDirectory path = .ok true ↔ NulFree path.text ∧ disk.find path = .ok .directory := by
  rw [← find?_eq_some_iff, isDirectory]
  cases disk.find? path <;> simp [Except.map]

theorem isFile_eq_true_iff :
    disk.isFile path = .ok true ↔ NulFree path.text ∧ ∃ bytes, disk.find path = .ok (.file bytes) := by
  simp only [← exists_and_left, ← find?_eq_some_iff, isFile]
  rcases disk.find? path with flaw | (_ | _ | bytes) <;> simp [Except.map]

theorem find_of_long (long : ¬ path.IsShort) : disk.find path = .error (.tooLong path) := by
  rw [find, if_pos (Nat.not_le.mp long)]

theorem find?_of_long (free : NulFree path.text) (long : ¬ path.IsShort) :
    disk.find? path = .error (.tooLong path) := by
  have clear : (path.text.toList.contains '\x00') = false := by simpa [NulFree] using free
  rw [find?, clear, find_of_long long]
  rfl

theorem find?_of_missing {missing : Path} (fails : disk.find path = .error (.missing missing)) :
    disk.find? path = .ok none := by
  rw [find?, fails]
  split <;> rfl

theorem text_of_file {content : List UInt8} (found : disk.find path = .ok (.file content)) :
    disk.text path = ((Text.Utf8.decode content).mapError .undecodable).map fun characters =>
      String.ofList (Text.unifyNewlines characters) := by
  rw [Disk.text, characters, bytes, found]
  rfl

/-- A path has a text exactly if it leads to a file whose bytes are UTF-8. -/
theorem text_eq_ok_iff {text : String} : disk.text path = .ok text ↔
    ∃ characters, disk.find path = .ok (.file (Text.Utf8.encode characters)) ∧
      String.ofList (Text.unifyNewlines characters) = text := by
  constructor
  · intro ends
    rcases found : disk.find path with flaw | (_ | content)
    case ok.file =>
      rw [text_of_file found] at ends
      cases decoded : Text.Utf8.decode content with
      | error malformed =>
        rw [decoded] at ends
        cases ends
      | ok characters =>
        rw [decoded] at ends
        cases ends
        exact ⟨characters, by rw [Text.Utf8.decode_eq_ok_iff.mp decoded], rfl⟩
    all_goals
      rw [Disk.text, characters, bytes, found] at ends
      cases ends
  · rintro ⟨characters, found, rfl⟩
    rw [text_of_file found, Text.Utf8.decode_eq_ok_iff.mpr rfl]
    rfl

theorem isShort_of_isDirectory (isThere : disk.isDirectory directory = .ok true) : directory.IsShort := by
  by_contra long
  have around := (isDirectory_eq_true_iff.mp isThere).2
  rw [find_of_long long] at around
  cases around

theorem forall_isInReach_iff (isThere : disk.isDirectory directory = .ok true) :
    (∀ names, disk.LeadsToDirectory directory names → disk.IsInReach directory names) ↔
      ∀ names, disk.LiesBelow directory names .directory → disk.IsInReach directory names := by
  refine ⟨fun reached names lies => reached names (.inr lies), fun reached names leads => ?_⟩
  rcases leads with rfl | lies
  · rw [IsInReach, Path.below, List.append_nil]
    exact ⟨Nat.zero_le _, isShort_of_isDirectory isThere⟩
  · exact reached names lies

variable (tree : disk.IsTree) (isThere : disk.isDirectory directory = .ok true)
  (lies : disk.LiesBelow directory names node)

include tree isThere lies

theorem IsTree.nulFree_below : NulFree (directory.below names).text := by
  rw [Path.nulFree_text_iff]
  intro name member
  rcases List.mem_append.mp member with front | back
  · exact Path.nulFree_text_iff.mp (isDirectory_eq_true_iff.mp isThere).1 name front
  · exact (tree.isFileName_of_liesBelow lies name back).nulFree

theorem IsTree.find_below (short : (directory.below names).IsShort) :
    disk.find (directory.below names) = .ok node := by
  have around := (isDirectory_eq_true_iff.mp isThere).2
  rw [find] at around
  split at around
  next => cases around
  next =>
    rw [find, if_neg (Nat.not_lt.mpr short)]
    -- The names of the directory may step back, those below it do not.
    show disk.walk _ (disk.startOf directory) (directory.names ++ names) = _
    rw [walk_append around]
    exact tree.walk_of_at? _ (tree.isFileName_of_liesBelow lies) lies.2

theorem IsTree.find?_below : disk.find? (directory.below names) =
    if (directory.below names).IsShort then .ok (some node)
    else .error (.tooLong (directory.below names)) := by
  have free := tree.nulFree_below isThere lies
  split
  next short => exact find?_eq_some_iff.mpr ⟨free, tree.find_below isThere lies short⟩
  next long => exact find?_of_long free long

theorem IsTree.isFile_below : disk.isFile (directory.below names) =
    if (directory.below names).IsShort then .ok (node != .directory)
    else .error (.tooLong (directory.below names)) := by
  rw [isFile, tree.find?_below isThere lies]
  split <;> rfl

theorem IsTree.exists_isFile_below_iff :
    (∃ isFile, disk.isFile (directory.below names) = .ok isFile) ↔ (directory.below names).IsShort := by
  rw [tree.isFile_below isThere lies]
  split
  next short => exact iff_of_true ⟨_, rfl⟩ short
  next long => exact iff_of_false (by rintro ⟨_, ⟨⟩⟩) long

end Finding

end Disk

end Marginalia
