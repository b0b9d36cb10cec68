import Marginalia.Proofs.Data.Along
import Marginalia.Proofs.Document.Location
import Marginalia.Settings.Discovery

/-!
# The nearest settings

Which settings file a search finds from a directory.  The search goes by the names of the path, so it looks
at no directory that the path does not name: from an absolute path the nearest file is found of the
directory and the three around it, from a relative one only of those in or below the working directory.
-/

namespace Marginalia

/-! ## Directories around a directory -/

/-- The names without the last ones, as many as there are levels; none where there are fewer names. -/
def outward (names : List String) (levels : Nat) : List String :=
  names.take (names.length - levels)

theorem outward_append {levels : Nat} {names : List String} (reached : levels ≤ names.length)
    (start : List String) : outward (start ++ names) levels = start ++ outward names levels := by
  have length : (start ++ names).length - levels = start.length + (names.length - levels) := by
    rw [List.length_append]
    omega
  rw [outward, length, List.take_length_add_append, outward]

theorem outward_of_le {levels : Nat} {names : List String} (beyond : names.length ≤ levels) :
    outward names levels = [] := by
  rw [outward, Nat.sub_eq_zero_of_le beyond, List.take_zero]

theorem weight_outward_le (names : List String) (levels : Nat) :
    weight (outward names levels) ≤ weight names := by
  have whole := weight_append (names.take (names.length - levels)) (names.drop (names.length - levels))
  rw [List.take_append_drop] at whole
  rw [outward]
  omega

namespace Path

/-- The path of the directory that lies some levels around a path. -/
def around (path : Path) (levels : Nat) : Path :=
  ⟨path.root, outward path.names levels⟩

theorem cons_take_ancestors (path : Path) (height : Nat) :
    path :: path.ancestors.take height =
      (List.range (min height path.names.length + 1)).map path.around := by
  have first : path = path.around 0 := by
    rw [around, outward, Nat.sub_zero, List.take_length]
  rw [List.range_succ_eq_map, List.map_cons, ← first, List.map_map, ancestors, List.range_eq_range',
    List.reverse_range', List.map_map, ← List.map_take, List.take_range]
  apply congrArg (path :: ·)
  apply List.map_congr_left
  intro level _
  have counted : 0 + path.names.length - 1 - level = path.names.length - (level + 1) := by omega
  exact congrArg (fun count => (⟨path.root, path.names.take count⟩ : Path)) counted

theorem isShort_child_around {path : Path} {name : String} (short : (path.child name).IsShort)
    (levels : Nat) : ((path.around levels).child name).IsShort :=
  isShort_child_of_weight short (Nat.le_refl _) (weight_outward_le path.names levels)

end Path

namespace Settings

/-! ## The nearest file -/

variable {disk : Disk} {place : List String} {height : Nat}

/-- A settings file lies in a directory. -/
def HasSettings (disk : Disk) (place : List String) : Prop :=
  ∃ bytes, disk.at? (place ++ [fileName]) = some (.file bytes)

/-- The settings file that is nearest to a directory, of those in it and in the directories up to some
    levels around it. -/
inductive IsNearest (disk : Disk) (place : List String) (height : Nat) : Option (List String) → Prop where
  | absent (lacks : ∀ levels ≤ height, ¬ HasSettings disk (outward place levels)) :
      IsNearest disk place height none
  | present {levels : Nat} (reached : levels ≤ height) (has : HasSettings disk (outward place levels))
      (nearest : ∀ nearer < levels, ¬ HasSettings disk (outward place nearer)) :
      IsNearest disk place height (some (outward place levels ++ [fileName]))

theorem IsNearest.unique {found other : Option (List String)} (isFound : IsNearest disk place height found)
    (isOther : IsNearest disk place height other) : found = other := by
  cases isFound with
  | absent lacks =>
    cases isOther with
    | absent => rfl
    | present reached has => exact absurd has (lacks _ reached)
  | @present levels reached has nearest =>
    cases isOther with
    | absent lacks => exact absurd has (lacks _ reached)
    | @present others _ hasToo nearestToo =>
      have notLess : ¬ levels < others := fun less => nearestToo levels less has
      have notMore : ¬ others < levels := fun less => nearest others less hasToo
      rw [show levels = others by omega]

namespace IsNearest

variable {start names file : List String} {found : Option (List String)}

/-- There are no more levels around a directory than it has names. -/
theorem of_min (isNearest : IsNearest disk place (min height place.length) found) :
    IsNearest disk place height found := by
  cases isNearest with
  | absent lacks =>
    refine .absent fun levels reached => ?_
    rcases Nat.le_total levels place.length with within | beyond
    · exact lacks levels (Nat.le_min.mpr ⟨reached, within⟩)
    · rw [outward_of_le beyond, ← outward_of_le (Nat.le_refl place.length)]
      exact lacks _ (Nat.le_min.mpr ⟨Nat.le_trans beyond reached, Nat.le_refl _⟩)
  | present reached has nearest => exact .present (Nat.le_trans reached (Nat.min_le_left _ _)) has nearest

theorem inside (isNearest : IsNearest disk (start ++ names) (min height names.length) (some file)) :
    start <+: file.dropLast := by
  cases isNearest with
  | present reached =>
    rw [List.dropLast_concat, outward_append (Nat.le_trans reached (Nat.min_le_right _ _))]
    exact List.prefix_append _ _

/-- A file that does not lie around the start is reached by the names behind it. -/
theorem narrow (isNearest : IsNearest disk (start ++ names) height (some file))
    (inside : start <+: file.dropLast) :
    IsNearest disk (start ++ names) (min height names.length) (some file) := by
  cases isNearest with
  | @present levels reached has nearest =>
    rw [List.dropLast_concat] at inside
    have size := inside.length_le
    rw [outward, List.length_take, List.length_append] at size
    refine .present (Nat.le_min.mpr ⟨reached, ?_⟩) has nearest
    -- Beyond the names only the top could be reached, and then a level before it.
    by_contra beyond
    have atTop : start = [] := List.length_eq_zero_iff.mp (by omega)
    rw [atTop, List.nil_append] at has nearest
    rw [outward_of_le (by omega)] at has
    apply nearest names.length (by omega)
    rwa [outward_of_le (Nat.le_refl _)]

end IsNearest

/-- Searching outward level by level gives the nearest file. -/
theorem isNearest_find? {test : Nat → Bool}
    (tells : ∀ levels ≤ height, test levels = true ↔ HasSettings disk (outward place levels)) :
    IsNearest disk place height (((List.range (height + 1)).find? test).map
      fun levels => outward place levels ++ [fileName]) := by
  cases found : (List.range (height + 1)).find? test with
  | none =>
    have never := List.find?_range_eq_none.mp found
    refine .absent fun levels reached has => ?_
    have fails := never levels (Nat.lt_succ_of_le reached)
    rw [(tells levels reached).mpr has] at fails
    cases fails
  | some levels =>
    obtain ⟨passes, member, before⟩ := List.find?_range_eq_some.mp found
    have reached : levels ≤ height := Nat.le_of_lt_succ (List.mem_range.mp member)
    refine .present reached ((tells levels reached).mp passes) fun nearer less has => ?_
    have fails := before nearer less
    rw [(tells nearer (Nat.le_trans (Nat.le_of_lt less) reached)).mpr has] at fails
    cases fails

/-! ## The search -/

/-- A search from a path that leads to a directory comes to an end exactly if the path is not too long,
    and finds the file that is nearest to the directory up to some levels around it. -/
structure FindsNearest (disk : Disk) (path : Path) (height : Nat) : Prop where
  ends : (∃ file, discover disk path = .ok file) ↔ (path.child fileName).IsShort
  nearest : ∀ file, discover disk path = .ok file →
    IsNearest disk (disk.placeOf path) height (file.map disk.placeOf)

theorem isFileName_fileName : IsFileName fileName := by decide

section Search

variable (tree : disk.IsTree) {path : Path}
  (isThere : disk.at? (disk.startOf path ++ path.names) = some .directory)

include tree isThere

theorem isFile_child : disk.isFile (path.child fileName) =
    if (path.child fileName).IsShort then
      .ok ((disk.at? (disk.startOf path ++ path.names ++ [fileName])).any (· != .directory))
    else .error (.tooLong (path.child fileName)) := by
  rw [Disk.isFile, tree.find?_child isThere isFileName_fileName]
  split
  next =>
    cases disk.at? (disk.startOf path ++ path.names ++ [fileName]) <;> rfl
  next => rfl

theorem isFile_child_eq_true_iff (short : (path.child fileName).IsShort) :
    disk.isFile (path.child fileName) = .ok true ↔ HasSettings disk (disk.startOf path ++ path.names) := by
  rw [isFile_child tree isThere, if_pos short, Except.ok.injEq, HasSettings]
  rcases disk.at? (disk.startOf path ++ path.names ++ [fileName]) with _ | _ | bytes <;> simp

theorem placeOf_eq : disk.placeOf path = disk.startOf path ++ path.names :=
  Disk.follow_of_forward fun name member =>
    (tree.isFileName_of_at? isThere name (List.mem_append_right _ member)).forward

theorem isThere_around (levels : Nat) :
    disk.at? (disk.startOf (path.around levels) ++ (path.around levels).names) = some .directory := by
  show disk.at? (disk.startOf path ++ path.names.take _) = _
  by_cases nothing : path.names.drop (path.names.length - levels) = []
  · rwa [List.take_of_length_le (List.drop_eq_nil_iff.mp nothing)]
  · apply tree.at?_of_append nothing
    rwa [List.append_assoc, List.take_append_drop]

theorem searched_of_short (short : path.IsShort) : searched disk path =
    .ok ((List.range (min searchHeight path.names.length + 1)).map path.around) := by
  rw [searched, Disk.isFile, tree.find?_of_at? isThere, if_pos short, ← Path.cons_take_ancestors]
  rfl

theorem discover_of_long (long : ¬ (path.child fileName).IsShort) :
    ∃ flaw, discover disk path = .error flaw := by
  by_cases short : path.IsShort
  -- The first file that is looked for has the longest path.
  · refine ⟨.tooLong (path.child fileName), ?_⟩
    rw [discover, searched_of_short tree isThere short, ← Path.cons_take_ancestors]
    show List.findM? disk.isFile (path.child fileName :: _) = _
    rw [List.findM?, isFile_child tree isThere, if_neg long]
    rfl
  · refine ⟨.tooLong path, ?_⟩
    rw [discover, searched, Disk.isFile, tree.find?_of_at? isThere, if_neg short]
    rfl

theorem placeOf_around {levels : Nat} (reached : levels ≤ path.names.length) :
    disk.placeOf (path.around levels) = outward (disk.placeOf path) levels := by
  rw [placeOf_eq tree (isThere_around tree isThere levels), placeOf_eq tree isThere,
    outward_append reached]
  rfl

theorem discover_eq (short : (path.child fileName).IsShort) :
    discover disk path = .ok (((List.range (min searchHeight path.names.length + 1)).find?
      (passes disk.isFile ∘ fun levels => (path.around levels).child fileName)).map
        fun levels => (path.around levels).child fileName) := by
  have all : ∀ file ∈ (List.range (min searchHeight path.names.length + 1)).map
      (fun levels => (path.around levels).child fileName),
      ∃ passed, disk.isFile file = .ok passed := by
    rw [List.forall_mem_map]
    intro levels _
    exact ⟨_, (isFile_child tree (isThere_around tree isThere levels)).trans
      (if_pos (Path.isShort_child_around short levels))⟩
  rw [discover, searched_of_short tree isThere (isShort_of_child (by decide) short)]
  show List.findM? disk.isFile (List.map _ (List.map _ _)) = _
  rw [List.map_map]
  exact (findM?_of_forall all).trans (congrArg Except.ok List.find?_map)

theorem discover_of_short (short : (path.child fileName).IsShort) :
    ∃ file, discover disk path = .ok file ∧
      IsNearest disk (disk.placeOf path) (min searchHeight path.names.length)
        (file.map disk.placeOf) := by
  refine ⟨_, discover_eq tree isThere short, ?_⟩
  have bound : min searchHeight path.names.length ≤ path.names.length := Nat.min_le_right _ _
  have tells : ∀ levels ≤ min searchHeight path.names.length,
      (passes disk.isFile ∘ fun levels => (path.around levels).child fileName) levels = true ↔
        HasSettings disk (outward (disk.placeOf path) levels) := by
    intro levels reached
    rw [← placeOf_around tree isThere (Nat.le_trans reached bound),
      placeOf_eq tree (isThere_around tree isThere levels)]
    exact passes_eq_true_iff.trans
      (isFile_child_eq_true_iff tree (isThere_around tree isThere levels)
        (Path.isShort_child_around short levels))
  have nearest := isNearest_find? tells
  cases first : (List.range (min searchHeight path.names.length + 1)).find?
      (passes disk.isFile ∘ fun levels => (path.around levels).child fileName) with
  | none =>
    rw [first] at nearest
    exact nearest
  | some levels =>
    have reached := Nat.le_of_lt_succ (List.mem_range.mp (List.mem_of_find?_eq_some first))
    have file : disk.placeOf ((path.around levels).child fileName) =
        outward (disk.placeOf path) levels ++ [fileName] := by
      rw [← placeOf_around tree isThere (Nat.le_trans reached bound)]
      exact disk.placeOf_below (path.around levels) (by decide)
    rw [first, Option.map_some, ← file] at nearest
    exact nearest

theorem findsNearest_of_directory : FindsNearest disk path (min searchHeight path.names.length) := by
  have short_of_ok : ∀ file, discover disk path = .ok file → (path.child fileName).IsShort := by
    intro file ends
    by_contra long
    obtain ⟨flaw, fails⟩ := discover_of_long tree isThere long
    rw [fails] at ends
    cases ends
  constructor
  case ends =>
    refine ⟨fun ⟨file, ends⟩ => short_of_ok file ends, fun short => ?_⟩
    obtain ⟨file, ends, -⟩ := discover_of_short tree isThere short
    exact ⟨file, ends⟩
  case nearest =>
    intro file ends
    obtain ⟨other, endsToo, nearest⟩ := discover_of_short tree isThere (short_of_ok file ends)
    rw [ends] at endsToo
    cases endsToo
    exact nearest

end Search

/-- Searches from two paths find the same file, or both find none. -/
def FindAlike (disk : Disk) (path other : Path) : Prop :=
  ∃ file otherFile, discover disk path = .ok file ∧ discover disk other = .ok otherFile ∧
    file.map disk.placeOf = otherFile.map disk.placeOf

theorem findsNearest_resolve (tree : disk.IsTree) {path : Path}
    (isThere : disk.at? (disk.placeOf path) = some .directory) :
    FindsNearest disk (disk.resolve path) 3 ∧ disk.placeOf (disk.resolve path) = disk.placeOf path := by
  have found : disk.at? (disk.startOf (disk.resolve path) ++ (disk.resolve path).names) = some .directory :=
    isThere
  have place : disk.placeOf (disk.resolve path) = disk.placeOf path := placeOf_eq tree found
  obtain ⟨ends, nearest⟩ := findsNearest_of_directory tree found
  refine ⟨⟨ends, fun file finds => ?_⟩, place⟩
  have isNearest := nearest file finds
  rw [place] at isNearest ⊢
  exact isNearest.of_min

theorem isShort_child_of_resolve {path : Path} {name : String} (relative : path.root = .relative)
    (forward : ".." ∉ path.names) (short : ((disk.resolve path).child name).IsShort) :
    (path.child name).IsShort := by
  have place : (disk.resolve path).names = disk.startOf path ++ path.names :=
    Disk.follow_of_forward fun name member same => forward (same ▸ member)
  apply isShort_child_of_weight short
  · rw [relative]
    show PathRoot.relative.text.utf8ByteSize ≤ PathRoot.slash.text.utf8ByteSize
    decide
  · rw [place, weight_append]
    exact Nat.le_add_left _ _

/-- From a directory, a search along an absolute path finds the nearest file of the directory and the three
    around it; one along a relative path leaves out what lies around the working directory.  So they find
    the same exactly if the nearest file does not lie there and the absolute path is not too long. -/
theorem findAlike_resolve_iff (tree : disk.IsTree) {path : Path} (relative : path.root = .relative)
    (forward : ".." ∉ path.names) (isThere : disk.at? (disk.placeOf path) = some .directory) :
    FindsNearest disk (disk.resolve path) 3 ∧ FindsNearest disk path (min 3 path.names.length) ∧
      (FindAlike disk path (disk.resolve path) ↔ ((disk.resolve path).child fileName).IsShort ∧
        ∀ file, IsNearest disk (disk.placeOf path) 3 (some file) →
          disk.workingDirectory <+: file.dropLast) := by
  have start : disk.startOf path = disk.workingDirectory := by
    rw [Disk.startOf, relative]
  have place : disk.placeOf path = disk.workingDirectory ++ path.names := by
    rw [Disk.placeOf, Disk.follow_of_forward fun name member same => forward (same ▸ member), start]
  obtain ⟨far, samePlace⟩ := findsNearest_resolve tree isThere
  have near : FindsNearest disk path (min 3 path.names.length) := by
    apply findsNearest_of_directory tree
    rwa [start, ← place]
  refine ⟨far, near, ?_, ?_⟩
  · rintro ⟨file, otherFile, finds, findsToo, same⟩
    refine ⟨far.ends.mp ⟨otherFile, findsToo⟩, fun nearestFile isNearest => ?_⟩
    have absolute := far.nearest otherFile findsToo
    rw [samePlace] at absolute
    have isSame := absolute.unique isNearest
    have relative := near.nearest file finds
    rw [same, isSame, place] at relative
    exact relative.inside
  · rintro ⟨short, inside⟩
    obtain ⟨otherFile, findsToo⟩ := far.ends.mpr short
    obtain ⟨file, finds⟩ := near.ends.mpr (isShort_child_of_resolve relative forward short)
    refine ⟨file, otherFile, finds, findsToo, (near.nearest file finds).unique ?_⟩
    have absolute := far.nearest otherFile findsToo
    rw [samePlace] at absolute
    cases found : otherFile.map disk.placeOf with
    | none =>
      rw [found] at absolute
      cases absolute with
      | absent lacks =>
        exact .absent fun levels reached => lacks levels (Nat.le_trans reached (Nat.min_le_left _ _))
    | some nearestFile =>
      rw [found] at absolute
      have isInside := inside nearestFile absolute
      rw [place] at absolute ⊢
      exact absolute.narrow isInside

/-- A repository with settings at its top, and a working directory in it. -/
def nestedWorkspace : Disk :=
  { nodes := [(["r"], .directory), (["r", ".acp.toml"], .file []), (["r", "w"], .directory),
      (["r", "w", "d"], .directory)]
    workingDirectory := ["r", "w"] }

theorem findAlike_resolve_iff_nested :
    discover nestedWorkspace Path.here = .ok none ∧
      discover nestedWorkspace (nestedWorkspace.resolve Path.here) =
        .ok (some ⟨.slash, ["r", ".acp.toml"]⟩) ∧
      ¬ FindAlike nestedWorkspace Path.here (nestedWorkspace.resolve Path.here) := by
  have tree : nestedWorkspace.IsTree := ⟨by decide +kernel, by decide +kernel, by decide +kernel⟩
  have relative : Path.here.root = .relative := rfl
  have isThere : nestedWorkspace.at? (nestedWorkspace.placeOf Path.here) = some .directory := by
    decide +kernel
  have spelling := (findAlike_resolve_iff tree relative (by decide) isThere).2.2
  refine ⟨by decide +kernel, by decide +kernel, fun alike => ?_⟩
  have isNearest : IsNearest nestedWorkspace ["r", "w"] 3 (some ["r", ".acp.toml"]) := by
    refine .present (show 1 ≤ 3 by decide) ⟨[], by decide +kernel⟩ fun nearer less ⟨bytes, has⟩ => ?_
    rw [Nat.lt_one_iff.mp less] at has
    have lacks : nestedWorkspace.at? ["r", "w", fileName] = none := by decide +kernel
    cases lacks.symm.trans has
  have inside : ["r", "w"] <+: ["r"] := (spelling.mp alike).2 _ isNearest
  exact absurd inside (by decide)

end Settings

end Marginalia
