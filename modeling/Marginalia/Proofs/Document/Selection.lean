import Marginalia.Document.Selection
import Marginalia.Proofs.Data.Along
import Marginalia.Proofs.Document.Tree

/-!
# What patterns stand for in a tree

The parts of a pattern are looked at one after the other: each in every directory that those before it
stand for.  So `**` with a part behind it stands for whatever lies below a directory and has a name that
fits the part.
-/

namespace Marginalia.Disk

variable {disk : Disk} {directory : Path} {names : List String} {node : DiskNode}

theorem lookInto_eq_ok_iff : lookInto directory = .ok () ↔ directory.IsShort := by
  rw [lookInto]
  split
  next long => exact iff_of_false (by rintro ⟨⟩) (Nat.not_le.mpr long)
  next short => exact iff_of_true rfl (Nat.not_lt.mp short)

theorem goInto_eq_ok_iff : disk.goInto directory names = .ok () ↔ disk.IsInReach directory names := by
  rw [goInto, IsInReach]
  split
  next deep => exact iff_of_false (by rintro ⟨⟩) fun reached => Nat.not_le.mpr deep reached.1
  next shallow => rw [lookInto_eq_ok_iff, and_iff_right (Nat.not_lt.mp shallow)]

theorem name_below_concat (directory : Path) (front : List String) (name : String) :
    (directory.below (front ++ [name])).name = name := by
  rw [Path.name, Path.below, ← List.append_assoc, List.getLast?_concat]
  rfl

theorem mem_pathsTo {found : List (List String)} {path : Path} :
    path ∈ pathsTo directory found ↔ ∃ names ∈ found, path = directory.below names := by
  simp [pathsTo, eq_comm]

/-! ## One part after the other -/

section Parts

variable {part : String} {parts : List String} {head : List String}

/-- What further parts stand for behind names that lead to a directory. -/
def selectBehind (disk : Disk) (directory : Path) (parts : List String) (head : List String) :
    Except FileFlaw (List (List String)) :=
  (disk.selectParts (directory.below head) parts).map fun tails => tails.map (head ++ ·)

theorem selectParts_cons : disk.selectParts directory (part :: parts) =
    disk.selectPart directory part parts.isEmpty >>= fun heads =>
      heads.mapM (disk.selectBehind directory parts) >>= fun lists => .ok lists.flatten.eraseDups := by
  rw [selectParts]
  rfl

theorem selectBehind_eq_ok_iff {list : List (List String)} :
    disk.selectBehind directory parts head = .ok list ↔
      ∃ tails, disk.selectParts (directory.below head) parts = .ok tails ∧
        tails.map (head ++ ·) = list := by
  rw [selectBehind]
  cases disk.selectParts (directory.below head) parts <;> simp [Except.map]

theorem exists_selectParts_cons_iff :
    (∃ found, disk.selectParts directory (part :: parts) = .ok found) ↔
      ∃ heads, disk.selectPart directory part parts.isEmpty = .ok heads ∧
        ∀ head ∈ heads, ∃ tails, disk.selectParts (directory.below head) parts = .ok tails := by
  have each (heads : List (List String)) :
      (∃ lists, heads.mapM (disk.selectBehind directory parts) = .ok lists) ↔
        ∀ head ∈ heads, ∃ tails, disk.selectParts (directory.below head) parts = .ok tails := by
    rw [exists_mapM_eq_ok_iff]
    simp [selectBehind_eq_ok_iff]
  rw [selectParts_cons]
  constructor
  · rintro ⟨found, ends⟩
    obtain ⟨heads, first, ends⟩ := exists_of_bind_eq_ok ends
    obtain ⟨lists, later, -⟩ := exists_of_bind_eq_ok ends
    exact ⟨heads, first, (each heads).mp ⟨lists, later⟩⟩
  · rintro ⟨heads, first, later⟩
    obtain ⟨lists, later⟩ := (each heads).mpr later
    refine ⟨lists.flatten.eraseDups, ?_⟩
    rw [first]
    exact congrArg (· >>= fun lists => .ok lists.flatten.eraseDups) later

theorem mem_of_selectParts_cons {heads found : List (List String)}
    (first : disk.selectPart directory part parts.isEmpty = .ok heads)
    (ends : disk.selectParts directory (part :: parts) = .ok found) :
    names ∈ found ↔ ∃ head ∈ heads, ∃ tails,
      disk.selectParts (directory.below head) parts = .ok tails ∧ ∃ tail ∈ tails, names = head ++ tail := by
  rw [selectParts_cons] at ends
  obtain ⟨_, same, ends⟩ := exists_of_bind_eq_ok ends
  cases first.symm.trans same
  obtain ⟨lists, later, ends⟩ := exists_of_bind_eq_ok ends
  cases ends
  rw [List.mem_eraseDups, List.mem_flatten]
  constructor
  · rintro ⟨list, member, inList⟩
    obtain ⟨head, inHeads, behind⟩ := (mem_of_mapM later).mp member
    obtain ⟨tails, ends, rfl⟩ := selectBehind_eq_ok_iff.mp behind
    obtain ⟨tail, inTails, rfl⟩ := List.mem_map.mp inList
    exact ⟨head, inHeads, tails, ends, tail, inTails, rfl⟩
  · rintro ⟨head, inHeads, tails, ends, tail, inTails, rfl⟩
    have behind := selectBehind_eq_ok_iff.mpr ⟨tails, ends, rfl⟩
    exact ⟨tails.map (head ++ ·), (mem_of_mapM later).mpr ⟨head, inHeads, behind⟩,
      List.mem_map_of_mem inTails⟩

theorem select_eq (isThere : disk.isDirectory directory = .ok true) (parts : List String) :
    disk.select directory parts = disk.selectParts directory parts := by
  rw [select, isThere]
  rfl

end Parts

/-! ## What lies in a directory and below it -/

theorem exists_namesIn_iff : (∃ found, disk.namesIn directory = .ok found) ↔ directory.IsShort := by
  rw [namesIn, ← lookInto_eq_ok_iff]
  cases lookInto directory with
  | error flaw => exact iff_of_false (by rintro ⟨_, ⟨⟩⟩) (by rintro ⟨⟩)
  | ok => exact iff_of_true ⟨_, rfl⟩ rfl

namespace IsTree

variable (tree : disk.IsTree)

include tree

theorem mem_of_namesIn {found : List String} (ends : disk.namesIn directory = .ok found)
    {name : String} : name ∈ found ↔ ∃ node, disk.LiesBelow directory [name] node := by
  rw [namesIn] at ends
  obtain ⟨-, -, ends⟩ := exists_of_bind_eq_ok ends
  cases ends
  simp only [tree.liesBelow_iff, List.mem_filterMap, Prod.exists]
  rw [exists_comm]
  refine exists_congr fun node => exists_congr fun place => and_congr_right fun member => ?_
  split
  next below => simp [below]
  next other => simpa using other name

theorem directoriesFrom_eq (directory : Path) : ∃ found : List (List String),
    (∀ names, names ∈ found ↔ disk.LeadsToDirectory directory names) ∧
      disk.directoriesFrom directory =
        (found.forM fun names => disk.goInto directory names) >>= fun _ => .ok found := by
  refine ⟨_, fun names => ?_, rfl⟩
  rw [List.mem_cons, List.mem_filterMap, LeadsToDirectory, tree.liesBelow_iff, Prod.exists]
  refine or_congr_right (exists_congr fun place => ?_)
  constructor
  · rintro ⟨node, member, leads⟩
    cases node with
    | directory => exact ⟨member, leads⟩
    | file bytes => cases leads
  · rintro ⟨member, leads⟩
    exact ⟨.directory, member, leads⟩

theorem exists_directoriesFrom_iff : (∃ found, disk.directoriesFrom directory = .ok found) ↔
    ∀ names, disk.LeadsToDirectory directory names → disk.IsInReach directory names := by
  obtain ⟨found, mem_found, whole⟩ := tree.directoriesFrom_eq directory
  rw [whole]
  constructor
  · rintro ⟨_, ends⟩ names leads
    obtain ⟨⟨⟩, all, -⟩ := exists_of_bind_eq_ok ends
    exact goInto_eq_ok_iff.mp (forM_eq_ok_iff.mp all names ((mem_found names).mpr leads))
  · intro reached
    have all := forM_eq_ok_iff.mpr fun names member =>
      goInto_eq_ok_iff.mpr (reached names ((mem_found names).mp member))
    exact ⟨found, by rw [all]; rfl⟩

theorem mem_of_directoriesFrom {found : List (List String)}
    (ends : disk.directoriesFrom directory = .ok found) :
    names ∈ found ↔ disk.LeadsToDirectory directory names := by
  obtain ⟨others, mem_found, whole⟩ := tree.directoriesFrom_eq directory
  rw [whole] at ends
  obtain ⟨-, -, ends⟩ := exists_of_bind_eq_ok ends
  cases ends
  exact mem_found names

theorem forward_of_leadsToDirectory (leads : disk.LeadsToDirectory directory names) :
    ∀ name ∈ names, name ≠ ".." := by
  rcases leads with rfl | lies
  · simp
  · exact fun name member => (tree.isFileName_of_liesBelow lies name member).forward

theorem liesBelow_below_iff {front back : List String} (leads : disk.LeadsToDirectory directory front)
    (below : back ≠ []) :
    disk.LiesBelow (directory.below front) back node ↔ disk.LiesBelow directory (front ++ back) node := by
  rw [LiesBelow, LiesBelow, and_iff_right below,
    and_iff_right (List.append_ne_nil_of_right_ne_nil front below),
    disk.placeOf_below directory (tree.forward_of_leadsToDirectory leads), List.append_assoc]

theorem leadsToDirectory_of_append {front back : List String}
    (lies : disk.LiesBelow directory (front ++ back) node) (below : back ≠ []) :
    disk.LeadsToDirectory directory front := by
  by_cases here : front = []
  · exact .inl here
  · have found := lies.2
    rw [← List.append_assoc] at found
    exact .inr ⟨here, tree.at?_of_append below found⟩

end IsTree

/-! ## Whatever has a fitting name -/

section Wildcards

variable {part : String} {found : List (List String)}

theorem exists_selectParts_last_iff :
    (∃ found, disk.selectParts directory [part] = .ok found) ↔
      ∃ heads, disk.selectPart directory part true = .ok heads :=
  exists_selectParts_cons_iff.trans
    (exists_congr fun heads => and_iff_left fun _ _ => ⟨[[]], by rw [selectParts]⟩)

theorem mem_of_selectParts_last (ends : disk.selectParts directory [part] = .ok found) :
    ∃ heads, disk.selectPart directory part true = .ok heads ∧ ∀ names, names ∈ found ↔ names ∈ heads := by
  obtain ⟨heads, first, -⟩ := exists_selectParts_cons_iff.mp ⟨found, ends⟩
  refine ⟨heads, first, fun names => ?_⟩
  simp [mem_of_selectParts_cons first ends, selectParts]

variable (wild : hasWildcard part = true) (single : part ≠ "**")

include wild single

theorem selectPart_wild : disk.selectPart directory part true =
    disk.namesIn directory >>= fun names =>
      .ok ((names.filter (Text.Wildcard.matchesName part)).map ([·])) := by
  rw [selectPart, if_neg single, if_pos wild]
  simp only [Bool.true_or, Bool.and_true]
  rfl

theorem exists_selectParts_wild_iff :
    (∃ found, disk.selectParts directory [part] = .ok found) ↔ directory.IsShort := by
  rw [exists_selectParts_last_iff, selectPart_wild wild single]
  constructor
  · rintro ⟨heads, ends⟩
    obtain ⟨inside, listed, -⟩ := exists_of_bind_eq_ok ends
    exact exists_namesIn_iff.mp ⟨inside, listed⟩
  · intro short
    obtain ⟨inside, listed⟩ := exists_namesIn_iff.mpr short
    exact ⟨_, by rw [listed]; rfl⟩

variable (tree : disk.IsTree)

include tree

theorem mem_of_selectParts_wild (ends : disk.selectParts directory [part] = .ok found) :
    names ∈ found ↔ ∃ name node, names = [name] ∧ disk.LiesBelow directory [name] node ∧
      Text.Wildcard.matchesName part name = true := by
  obtain ⟨heads, first, mem_found⟩ := mem_of_selectParts_last ends
  rw [selectPart_wild wild single] at first
  obtain ⟨inside, listed, first⟩ := exists_of_bind_eq_ok first
  cases first
  rw [mem_found, List.mem_map]
  constructor
  · rintro ⟨name, member, rfl⟩
    obtain ⟨inNames, fits⟩ := List.mem_filter.mp member
    obtain ⟨node, lies⟩ := (tree.mem_of_namesIn listed).mp inNames
    exact ⟨name, node, rfl, lies, fits⟩
  · rintro ⟨name, node, rfl, lies, fits⟩
    exact ⟨name, List.mem_filter.mpr ⟨(tree.mem_of_namesIn listed).mpr ⟨node, lies⟩, fits⟩, rfl⟩

variable (isThere : disk.isDirectory directory = .ok true)

include isThere

/-- To select by a name, a walk goes into all directories from the given one on. -/
theorem exists_select_iff : (∃ found, disk.select directory ["**", part] = .ok found) ↔
    ∀ names, disk.LeadsToDirectory directory names → disk.IsInReach directory names := by
  rw [select_eq isThere, exists_selectParts_cons_iff]
  show (∃ heads, disk.directoriesFrom directory = .ok heads ∧ _) ↔ _
  simp only [exists_selectParts_wild_iff wild single]
  constructor
  · rintro ⟨heads, ends, -⟩
    exact tree.exists_directoriesFrom_iff.mp ⟨heads, ends⟩
  · intro reached
    -- The first part has gone into each of the directories that the second looks into.
    obtain ⟨heads, ends⟩ := tree.exists_directoriesFrom_iff.mpr reached
    refine ⟨heads, ends, fun head member => ?_⟩
    exact (reached head ((tree.mem_of_directoriesFrom ends).mp member)).2

/-- Whatever lies below a directory and has a fitting name is selected. -/
theorem mem_of_select (ends : disk.select directory ["**", part] = .ok found) :
    names ∈ found ↔ ∃ node, disk.LiesBelow directory names node ∧
      Text.Wildcard.matchesName part (directory.below names).name = true := by
  rw [select_eq isThere] at ends
  obtain ⟨heads, first, each⟩ := exists_selectParts_cons_iff.mp ⟨found, ends⟩
  rw [mem_of_selectParts_cons first ends]
  constructor
  · rintro ⟨head, member, tails, ends, tail, inTails, rfl⟩
    obtain ⟨name, node, rfl, lies, fits⟩ := (mem_of_selectParts_wild wild single tree ends).mp inTails
    have leads := (tree.mem_of_directoriesFrom first).mp member
    rw [tree.liesBelow_below_iff leads (List.cons_ne_nil name [])] at lies
    exact ⟨node, lies, by rwa [name_below_concat]⟩
  · rintro ⟨node, lies, fits⟩
    -- The last name is what the part stands for, in the directory to which the others lead.
    obtain ⟨head, name, rfl⟩ := (List.eq_nil_or_concat' names).resolve_left lies.1
    rw [name_below_concat] at fits
    have leads := tree.leadsToDirectory_of_append lies (List.cons_ne_nil name [])
    rw [← tree.liesBelow_below_iff leads (List.cons_ne_nil name [])] at lies
    have member := (tree.mem_of_directoriesFrom first).mpr leads
    obtain ⟨tails, ends⟩ := each head member
    have inTails := (mem_of_selectParts_wild wild single tree ends).mpr ⟨name, node, rfl, lies, fits⟩
    exact ⟨head, member, tails, ends, [name], inTails, rfl⟩

end Wildcards

end Marginalia.Disk
