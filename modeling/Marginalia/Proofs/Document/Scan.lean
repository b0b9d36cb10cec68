import Marginalia.Document.Scan
import Marginalia.Proofs.Document.Selection
import Marginalia.Proofs.Text.Trim
import Marginalia.Proofs.Text.Utf8
import Marginalia.Proofs.Text.Wildcard

/-!
# Scans of a tree

A scan looks at the files that have one of its endings, ending by ending, and keeps what each of them
shows when it is read alone.
-/

namespace Marginalia

/-! ## Endings of names -/

section Endings

variable {name : String} {front behind : List Char}

/-- The ending of a name that is cut at its last point. -/
theorem endingOf_eq (plain : '.' ∉ behind) (whole : name.toList = front ++ '.' :: behind) :
    endingOf name = if front = [] ∨ behind = [] then "" else String.ofList ('.' :: behind) := by
  have read : (name.toList.reverse.takeWhile (· ≠ '.')).reverse = behind := by
    rw [whole, List.reverse_append, List.reverse_cons, List.append_assoc, List.singleton_append,
      Text.takeWhile_ne (by simpa using plain), List.reverse_reverse]
  have length : name.length = front.length + (behind.length + 1) := by
    rw [← String.length_toList, whole, List.length_append, List.length_cons]
  rw [endingOf, read, length]
  cases front <;> cases behind <;> simp

theorem endingOf_of_notMem (plain : '.' ∉ name.toList) : endingOf name = "" := by
  rw [endingOf, Text.takeWhile_ne_of_notMem (by simpa using plain), List.reverse_reverse,
    ← String.length_toList]
  simp

theorem endingOf_suffix (name : String) : (endingOf name).toList <:+ name.toList := by
  by_cases pointed : '.' ∈ name.toList
  · obtain ⟨behind, front, reversed, plain⟩ :=
      List.eq_append_cons_of_mem (List.mem_reverse.mpr pointed)
    have whole : name.toList = front.reverse ++ '.' :: behind.reverse := by
      simpa using congrArg List.reverse reversed
    rw [endingOf_eq (by simpa using plain) whole]
    split
    · exact List.nil_suffix
    · rw [String.toList_ofList, whole]
      exact List.suffix_append _ _
  · rw [endingOf_of_notMem pointed]
    exact List.nil_suffix

/-- A name ends, letter case included, in an ending that belongs to a language. -/
def HasKnownEnding (name : String) : Prop :=
  ∃ ending ∈ Language.allEndings, ending.toList <:+ name.toList

theorem pointed_of_mem : ∀ ending ∈ Language.allEndings,
    ending.toList.head? = some '.' ∧ ending.toList.tail ≠ [] ∧ '.' ∉ ending.toList.tail := by decide

theorem ofEnding?_empty : Language.ofEnding? "" = none := by decide

/-- A file of a known language ends like one of some language exactly if its own ending, as it is
    written, belongs to one. -/
theorem hasKnownEnding_iff {language : Language} (known : Uri.languageOfName name = some language) :
    HasKnownEnding name ↔ endingOf name ∈ Language.allEndings := by
  refine ⟨fun ⟨ending, member, front, whole⟩ => ?_, fun member => ⟨_, member, endingOf_suffix name⟩⟩
  obtain ⟨first, nonempty, plain⟩ := pointed_of_mem ending member
  have shape : ending.toList = '.' :: ending.toList.tail := (List.cons_head?_tail first).symm
  have cut := endingOf_eq plain (whole.symm.trans (congrArg (front ++ ·) shape))
  have hasEnding : endingOf name ≠ "" := by
    intro empty
    rw [Uri.languageOfName, empty] at known
    exact absurd (ofEnding?_empty.symm.trans known) (by simp)
  split at cut
  next => exact absurd cut hasEnding
  next => rwa [cut, ← shape, String.ofList_toList]

end Endings

/-! ## File by file -/

/-- A file shows some findings when it is read alone. -/
def Disk.Shows (rules : ValueRules) (disk : Disk) (path : Path) (findings : Findings) : Prop :=
  disk.isFile path = .ok true ∧ Findings.ofFile? rules disk path = .ok (some findings) ∧
    findings.isEmpty = false

theorem Disk.Shows.unique {rules : ValueRules} {disk : Disk} {path : Path} {findings other : Findings}
    (shows : disk.Shows rules path findings) (showsOther : disk.Shows rules path other) :
    other = findings := by
  have same := showsOther.2.1.symm.trans shows.2.1
  cases same
  rfl

namespace ScanResults

open Disk

variable {rules : ValueRules} {disk : Disk} {seen paths : List Path} {results after : ScanResults}
  {path : Path} {findings : Findings}

theorem keys_put : (results.put path findings).map Prod.fst =
    if path ∈ results.map Prod.fst then results.map Prod.fst else results.map Prod.fst ++ [path] := by
  induction results with
  | nil => simp [put]
  | cons entry results ih =>
    obtain ⟨other, old⟩ := entry
    by_cases found : path = other
    · simp [put, found]
    · simp only [put, found, if_false, List.map_cons, ih, List.mem_cons, false_or]
      split <;> simp

theorem mem_put (distinct : (results.map Prod.fst).Nodup) {entry : Path × Findings} :
    entry ∈ results.put path findings ↔ entry = (path, findings) ∨ entry.1 ≠ path ∧ entry ∈ results := by
  induction results with
  | nil => simp [put]
  | cons first results ih =>
    obtain ⟨other, old⟩ := first
    rw [List.map_cons, List.nodup_cons] at distinct
    rw [put]
    split
    next same =>
      subst same
      have apart : entry ∈ results → entry.1 ≠ path := fun member same =>
        distinct.1 (List.mem_map.mpr ⟨entry, member, same⟩)
      have replaced : entry = (path, old) → entry.1 = path := by
        rintro rfl
        rfl
      rw [List.mem_cons, List.mem_cons]
      tauto
    next different =>
      have kept : entry = (other, old) → entry.1 ≠ path := by
        rintro rfl
        exact Ne.symm different
      rw [List.mem_cons, List.mem_cons, ih distinct.2]
      tauto

/-- The results with what one more file shows. -/
def record (rules : ValueRules) (disk : Disk) (results : ScanResults) (path : Path) : ScanResults :=
  match disk.isFile path, Findings.ofFile? rules disk path with
  | .ok true, .ok (some findings) => if findings.isEmpty then results else results.put path findings
  | _, _ => results

theorem record_cases (rules : ValueRules) (disk : Disk) (results : ScanResults) (path : Path) :
    (∃ findings, disk.Shows rules path findings ∧
        results.record rules disk path = results.put path findings) ∨
      (∀ findings, ¬ disk.Shows rules path findings) ∧ results.record rules disk path = results := by
  rw [record]
  split
  next findings isFile found =>
    cases empty : findings.isEmpty
    · exact .inl ⟨findings, ⟨isFile, found, empty⟩, rfl⟩
    · refine .inr ⟨fun other shows => ?_, rfl⟩
      obtain ⟨-, shown, nonempty⟩ := shows
      cases found.symm.trans shown
      exact absurd (empty.symm.trans nonempty) (by decide)
  next other =>
    refine .inr ⟨fun findings shows => ?_, rfl⟩
    exact other findings shows.1 shows.2.1

/-- Results hold what the files among some paths show, each file once. -/
structure Cover (rules : ValueRules) (disk : Disk) (paths : List Path) (results : ScanResults) : Prop where
  distinct : (results.map Prod.fst).Nodup
  mem_iff : ∀ entry, entry ∈ results ↔ entry.1 ∈ paths ∧ disk.Shows rules entry.1 entry.2

theorem Cover.nil : Cover rules disk [] [] := ⟨by simp, by simp⟩

theorem Cover.record (cover : Cover rules disk seen results) (path : Path) :
    Cover rules disk (seen ++ [path]) (results.record rules disk path) := by
  rcases record_cases rules disk results path with ⟨findings, shows, whole⟩ | ⟨nothing, whole⟩
  -- A path that is met again keeps its entry, as the file shows the same each time.
  · rw [whole]
    constructor
    case distinct =>
      rw [keys_put]
      split
      next => exact cover.distinct
      next new => exact List.nodup_append.mpr ⟨cover.distinct, by simp, by
          rintro key member _ isPath rfl
          exact new (List.mem_singleton.mp isPath ▸ member)⟩
    case mem_iff =>
      intro entry
      rw [mem_put cover.distinct, cover.mem_iff, List.mem_append, List.mem_singleton]
      by_cases same : entry.1 = path
      · obtain ⟨other, found⟩ := entry
        obtain rfl : other = path := same
        have ofPath : found = findings ↔ disk.Shows rules other found :=
          ⟨fun isFound => isFound ▸ shows, shows.unique⟩
        simpa using ofPath
      · have different : entry ≠ (path, findings) := fun isEntry => same (isEntry ▸ rfl)
        simp [same, different]
  · rw [whole]
    refine ⟨cover.distinct, fun entry => ?_⟩
    rw [cover.mem_iff, List.mem_append, List.mem_singleton]
    refine ⟨fun ⟨member, shows⟩ => ⟨.inl member, shows⟩, fun ⟨member, shows⟩ => ⟨?_, shows⟩⟩
    exact member.resolve_right fun same => nothing _ (same ▸ shows)

theorem Cover.foldl (cover : Cover rules disk seen results) (paths : List Path) :
    Cover rules disk (seen ++ paths) (paths.foldl (ScanResults.record rules disk) results) := by
  induction paths generalizing seen results with
  | nil => rwa [List.append_nil]
  | cons path paths ih =>
    rw [List.append_cons]
    exact ih (cover.record path)

/-! ## Ending by ending -/

theorem outcome_ofFile {α : Type} (outcome : Except FileFlaw α) :
    (Report.ofFile outcome).outcome = outcome.mapError .file := rfl

theorem exists_flaw_of_ofFile? (isFile : disk.isFile path = .ok true) {fault : Fault}
    (fails : Findings.ofFile? rules disk path = .error fault) : ∃ flaw, fault = .file flaw := by
  have free := (isFile_eq_true_iff.mp isFile).1
  rw [Findings.ofFile?] at fails
  cases known : Uri.languageOfName path.name with
  | none =>
    rw [known] at fails
    cases fails
  | some language =>
    rw [known, Findings.ofFileIn?, if_neg (by simpa [NulFree] using free)] at fails
    cases read : disk.text path with
    | ok text =>
      rw [read] at fails
      cases fails
    | error flaw =>
      rw [read] at fails
      cases fails
      exact ⟨flaw, rfl⟩

theorem outcome_scanFile {isFile : Bool} (kind : disk.isFile path = .ok isFile) :
    (scanFile rules disk results path).outcome = .ok (results.record rules disk path) := by
  rw [scanFile, Account.outcome_bind, outcome_ofFile, record, kind]
  cases isFile with
  | false => rfl
  | true =>
    cases found : Findings.ofFile? rules disk path with
    | error fault =>
      obtain ⟨flaw, rfl⟩ := exists_flaw_of_ofFile? kind found
      rfl
    | ok findings => cases findings <;> rfl

theorem outcome_scanFile_iff : (scanFile rules disk results path).outcome = .ok after ↔
    (∃ isFile, disk.isFile path = .ok isFile) ∧ results.record rules disk path = after := by
  cases kind : disk.isFile path with
  | error flaw =>
    rw [scanFile, Account.outcome_bind, outcome_ofFile, kind]
    exact iff_of_false (by rintro ⟨⟩) (by rintro ⟨⟨_, ⟨⟩⟩, -⟩)
  | ok isFile =>
    have ends : ∃ other, (Except.ok isFile : Except FileFlaw Bool) = .ok other := ⟨isFile, rfl⟩
    rw [outcome_scanFile kind, and_iff_right ends, Except.ok.injEq]

theorem outcome_scanFiles_iff : (scanFiles rules disk results paths).outcome = .ok after ↔
    (∀ path ∈ paths, ∃ isFile, disk.isFile path = .ok isFile) ∧
      paths.foldl (record rules disk) results = after := by
  induction paths generalizing results with
  | nil =>
    rw [scanFiles]
    simp
  | cons path paths ih =>
    rw [scanFiles, Account.outcome_bind_eq_ok_iff, List.forall_mem_cons, List.foldl_cons]
    simp only [outcome_scanFile_iff, ih]
    constructor
    · rintro ⟨_, ⟨here, rfl⟩, later, rfl⟩
      exact ⟨⟨here, later⟩, rfl⟩
    · rintro ⟨⟨here, later⟩, rfl⟩
      exact ⟨_, ⟨here, rfl⟩, later, rfl⟩

/-- The paths that a scan looks at for an ending. -/
def pathsWith (disk : Disk) (directory : Path) (ending : String) : Except Fault (List Path) := do
  let parts ← endingParts ending
  let found ← (disk.select directory parts).mapError .file
  return pathsTo directory found

variable {directory : Path} {ending : String} {endings : List String}

theorem pathsWith_eq_ok_iff : pathsWith disk directory ending = .ok paths ↔
    ∃ parts, endingParts ending = .ok parts ∧
      ∃ found, disk.select directory parts = .ok found ∧ pathsTo directory found = paths := by
  rw [pathsWith]
  constructor
  · intro ends
    obtain ⟨parts, isParts, ends⟩ := exists_of_bind_eq_ok ends
    obtain ⟨found, selected, ends⟩ := exists_of_bind_eq_ok ends
    cases ends
    exact ⟨parts, isParts, found, Report.mapError_eq_ok_iff.mp selected, rfl⟩
  · rintro ⟨parts, isParts, found, selected, rfl⟩
    rw [isParts]
    show ((disk.select directory parts).mapError Fault.file >>= _) = _
    rw [selected]
    rfl

theorem outcome_scanEndings_cons_iff :
    (scanEndings rules disk directory results (ending :: endings)).outcome = .ok after ↔
      ∃ paths, pathsWith disk directory ending = .ok paths ∧ ∃ middle,
        (scanFiles rules disk results paths).outcome = .ok middle ∧
          (scanEndings rules disk directory middle endings).outcome = .ok after := by
  rw [scanEndings]
  simp only [Account.outcome_bind_eq_ok_iff, Report.outcome_ofFile_eq_ok_iff]
  constructor
  · rintro ⟨parts, isParts, found, selected, later⟩
    exact ⟨_, pathsWith_eq_ok_iff.mpr ⟨parts, isParts, found, selected, rfl⟩, later⟩
  · rintro ⟨paths, isPaths, later⟩
    obtain ⟨parts, isParts, found, selected, rfl⟩ := pathsWith_eq_ok_iff.mp isPaths
    exact ⟨parts, isParts, found, selected, later⟩

/-- A scan keeps what each of the paths shows, in the order in which they are looked at. -/
theorem outcome_scanEndings_iff :
    (scanEndings rules disk directory results endings).outcome = .ok after ↔
      ∃ lists, endings.mapM (pathsWith disk directory) = .ok lists ∧
        (∀ path ∈ lists.flatten, ∃ isFile, disk.isFile path = .ok isFile) ∧
          lists.flatten.foldl (record rules disk) results = after := by
  induction endings generalizing results with
  | nil =>
    rw [scanEndings]
    show _ ↔ ∃ lists, Except.ok [] = .ok lists ∧ _
    simp
  | cons ending endings ih =>
    simp only [outcome_scanEndings_cons_iff, outcome_scanFiles_iff, ih, List.mapM_cons]
    constructor
    · rintro ⟨paths, isPaths, _, ⟨here, rfl⟩, lists, isLists, later, rfl⟩
      rw [isPaths, isLists]
      refine ⟨paths :: lists, rfl, ?_, by rw [List.flatten_cons, List.foldl_append]⟩
      rw [List.flatten_cons]
      exact List.forall_mem_append.mpr ⟨here, later⟩
    · rintro ⟨_, isLists, all, rfl⟩
      obtain ⟨paths, isPaths, isLists⟩ := exists_of_bind_eq_ok isLists
      obtain ⟨lists, isRest, isLists⟩ := exists_of_bind_eq_ok isLists
      cases isLists
      rw [List.flatten_cons] at all ⊢
      obtain ⟨here, later⟩ := List.forall_mem_append.mp all
      exact ⟨paths, isPaths, _, ⟨here, rfl⟩, lists, isRest, later, by rw [List.foldl_append]⟩

end ScanResults

/-! ## The files below a directory -/

section Below

variable {rules : ValueRules} {disk : Disk} {directory : Path} {names : List String} {node : DiskNode}

theorem endingParts_of_mem :
    ∀ ending ∈ Language.allEndings, endingParts ending = .ok ["**", "*" ++ ending] := by decide

theorem plain_of_mem : ∀ ending ∈ Language.allEndings,
    ∀ c ∈ ending.toList, c ≠ '*' ∧ c ≠ '?' ∧ c ≠ '[' := by
  -- The test runs over the lists: deciding the statement as it stands would run over all characters.
  have tested : (Language.allEndings.all fun ending => ending.toList.all fun c =>
      c ≠ '*' ∧ c ≠ '?' ∧ c ≠ '[') = true := by decide
  intro ending member c inEnding
  exact of_decide_eq_true (List.all_eq_true.mp (List.all_eq_true.mp tested ending member) c inEnding)

theorem hasWildcard_star (ending : String) : Disk.hasWildcard ("*" ++ ending) = true := by
  simp [Disk.hasWildcard]

/-- What stands behind a star is not a second one, so the part asks for one name only. -/
theorem star_append_ne {ending : String} (plain : ∀ c ∈ ending.toList, c ≠ '*' ∧ c ≠ '?' ∧ c ≠ '[') :
    "*" ++ ending ≠ "**" := by
  intro same
  have twice : '*' :: ending.toList = ['*', '*'] := by
    simpa using congrArg String.toList same
  exact (plain '*' (by simp [(List.cons.inj twice).2])).1 rfl

theorem ofFile?_eq_some_iff {path : Path} (free : NulFree path.text) {findings : Findings} :
    Findings.ofFile? rules disk path = .ok (some findings) ↔ ∃ language,
      Uri.languageOfName path.name = some language ∧ ∃ text, disk.text path = .ok text ∧
        Findings.ofText rules language.name text.toList = findings := by
  rw [Findings.ofFile?]
  cases Uri.languageOfName path.name with
  | none => exact iff_of_false (by rintro ⟨⟩) (by rintro ⟨_, ⟨⟩, _⟩)
  | some language =>
    rw [Findings.ofFileIn?, if_neg (by simpa [NulFree] using free)]
    cases disk.text path with
    | error flaw => exact iff_of_false (by rintro ⟨⟩) (by rintro ⟨_, _, _, ⟨⟩, _⟩)
    | ok text =>
      show Except.ok (some (Findings.ofText rules language.name text.toList)) = _ ↔ _
      simp

/-- What names lead to below a directory shows something exactly if it is a file in a known language
    whose bytes are UTF-8 and whose text has something to show. -/
theorem Disk.IsTree.shows_below_iff (tree : disk.IsTree)
    (isThere : disk.isDirectory directory = .ok true) (lies : disk.LiesBelow directory names node)
    (short : (directory.below names).IsShort) {findings : Findings} :
    disk.Shows rules (directory.below names) findings ↔ ∃ text language,
      node = .file (Text.Utf8.encode text) ∧
        Uri.languageOfName (directory.below names).name = some language ∧
          Findings.ofText rules language.name (Text.unifyNewlines text) = findings ∧
            findings.isEmpty = false := by
  have found := tree.find_below isThere lies short
  have free := tree.nulFree_below isThere lies
  rw [Disk.Shows, ofFile?_eq_some_iff free]
  simp only [Disk.text_eq_ok_iff, found, Except.ok.injEq]
  constructor
  · rintro ⟨-, ⟨language, known, _, ⟨text, isNode, rfl⟩, shown⟩, nonempty⟩
    rw [String.toList_ofList] at shown
    exact ⟨text, language, isNode, known, shown, nonempty⟩
  · rintro ⟨text, language, rfl, known, shown, nonempty⟩
    refine ⟨?_, ⟨language, known, _, ⟨text, rfl, rfl⟩, ?_⟩, nonempty⟩
    · rw [tree.isFile_below isThere lies, if_pos short]
      rfl
    · rwa [String.toList_ofList]

/-- Results of a scan tell of a directory: each path stands once, and the entries are the files whose
    ending, as it is written, belongs to a language, whose bytes are UTF-8 and whose text has something
    to show; what is shown is what reading the file alone gives. -/
structure ScanResults.TellOf (rules : ValueRules) (disk : Disk) (directory : Path)
    (results : ScanResults) : Prop where
  distinct : (results.map Prod.fst).Nodup
  mem_iff : ∀ path findings, (path, findings) ∈ results ↔ ∃ names text language,
    path = directory.below names ∧ disk.LiesBelow directory names (.file (Text.Utf8.encode text)) ∧
      Uri.languageOfName path.name = some language ∧ endingOf path.name ∈ Language.allEndings ∧
        Findings.ofText rules language.name (Text.unifyNewlines text) = findings ∧
          findings.isEmpty = false
  alone : ∀ path findings, (path, findings) ∈ results →
    Findings.ofFile? rules disk path = .ok (some findings)

section Scan

variable (tree : disk.IsTree) (isThere : disk.isDirectory directory = .ok true)

include tree isThere

theorem exists_pathsWith_iff {ending : String} (member : ending ∈ Language.allEndings) :
    (∃ paths, ScanResults.pathsWith disk directory ending = .ok paths) ↔
      ∀ names, disk.LeadsToDirectory directory names → disk.IsInReach directory names := by
  have single := star_append_ne (plain_of_mem ending member)
  rw [← Disk.exists_select_iff (hasWildcard_star ending) single tree isThere]
  simp only [ScanResults.pathsWith_eq_ok_iff, endingParts_of_mem ending member, Except.ok.injEq]
  simp

theorem mem_pathsWith {ending : String} (member : ending ∈ Language.allEndings) {paths : List Path}
    (ends : ScanResults.pathsWith disk directory ending = .ok paths) {path : Path} :
    path ∈ paths ↔ ∃ names node, path = directory.below names ∧ disk.LiesBelow directory names node ∧
      ending.toList <:+ path.name.toList := by
  have plain := plain_of_mem ending member
  obtain ⟨parts, isParts, found, selected, rfl⟩ := ScanResults.pathsWith_eq_ok_iff.mp ends
  cases (endingParts_of_mem ending member).symm.trans isParts
  have single := star_append_ne plain
  simp only [Disk.mem_pathsTo, Text.Wildcard.matchesName_star_append plain,
    Disk.mem_of_select (hasWildcard_star ending) single tree isThere selected]
  constructor
  · rintro ⟨names, ⟨node, lies, fits⟩, rfl⟩
    exact ⟨names, node, rfl, lies, fits⟩
  · rintro ⟨names, node, rfl, lies, fits⟩
    exact ⟨names, ⟨node, lies, fits⟩, rfl⟩

theorem mem_flatten_pathsWith {lists : List (List Path)}
    (ends : Language.allEndings.mapM (ScanResults.pathsWith disk directory) = .ok lists) {path : Path} :
    path ∈ lists.flatten ↔ ∃ names node, path = directory.below names ∧
      disk.LiesBelow directory names node ∧ HasKnownEnding path.name := by
  rw [List.mem_flatten]
  constructor
  · rintro ⟨paths, inLists, inPaths⟩
    obtain ⟨ending, member, listed⟩ := (mem_of_mapM ends).mp inLists
    obtain ⟨names, node, isPath, lies, fits⟩ := (mem_pathsWith tree isThere member listed).mp inPaths
    exact ⟨names, node, isPath, lies, ending, member, fits⟩
  · rintro ⟨names, node, isPath, lies, ending, member, fits⟩
    obtain ⟨paths, listed⟩ := exists_mapM_eq_ok_iff.mp ⟨lists, ends⟩ ending member
    exact ⟨paths, (mem_of_mapM ends).mpr ⟨ending, member, listed⟩,
      (mem_pathsWith tree isThere member listed).mpr ⟨names, node, isPath, lies, fits⟩⟩

/-- A scan comes to an end exactly if a walk reaches all directories and no file with an ending is too far
    away. -/
theorem exists_scanDirectory_iff :
    (∃ results, (scanDirectory rules disk directory).outcome = .ok results) ↔
      (∀ names, disk.LiesBelow directory names .directory → disk.IsInReach directory names) ∧
      ∀ names bytes, disk.LiesBelow directory names (.file bytes) →
        HasKnownEnding (directory.below names).name → (directory.below names).IsShort := by
  rw [← Disk.forall_isInReach_iff isThere]
  simp only [scanDirectory, ScanResults.outcome_scanEndings_iff]
  constructor
  · rintro ⟨_, lists, ends, all, -⟩
    constructor
    -- Any ending tells of the directories, as the paths for each are selected from all of them.
    · obtain ⟨paths, listed⟩ := exists_mapM_eq_ok_iff.mp ⟨lists, ends⟩ ".ts" (by decide)
      exact (exists_pathsWith_iff tree isThere (by decide)).mp ⟨paths, listed⟩
    · intro names bytes lies ending
      have member := (mem_flatten_pathsWith tree isThere ends).mpr ⟨names, _, rfl, lies, ending⟩
      exact (tree.exists_isFile_below_iff isThere lies).mp (all _ member)
  · rintro ⟨reached, short⟩
    obtain ⟨lists, ends⟩ := exists_mapM_eq_ok_iff.mpr fun ending member =>
      (exists_pathsWith_iff tree isThere member).mpr reached
    refine ⟨_, lists, ends, fun path member => ?_, rfl⟩
    obtain ⟨names, node, rfl, lies, ending⟩ := (mem_flatten_pathsWith tree isThere ends).mp member
    refine (tree.exists_isFile_below_iff isThere lies).mpr ?_
    cases node with
    | directory => exact (reached names (.inr lies)).2
    | file bytes => exact short names bytes lies ending

theorem tellOf_of_scanDirectory {results : ScanResults}
    (ends : (scanDirectory rules disk directory).outcome = .ok results) :
    results.TellOf rules disk directory := by
  obtain ⟨lists, listed, all, rfl⟩ := ScanResults.outcome_scanEndings_iff.mp ends
  have cover : ScanResults.Cover rules disk lists.flatten _ := ScanResults.Cover.nil.foldl lists.flatten
  refine ⟨cover.distinct, fun path findings => ?_, fun path findings member => ?_⟩
  · rw [cover.mem_iff, mem_flatten_pathsWith tree isThere listed]
    constructor
    · rintro ⟨⟨names, node, isPath, lies, ending⟩, shows⟩
      obtain rfl : path = directory.below names := isPath
      -- What shows something was found, so its path is not too long.
      have short := (tree.exists_isFile_below_iff isThere lies).mp ⟨true, shows.1⟩
      obtain ⟨text, language, rfl, known, shown, nonempty⟩ :=
        (tree.shows_below_iff isThere lies short).mp shows
      exact ⟨names, text, language, rfl, lies, known, (hasKnownEnding_iff known).mp ending, shown, nonempty⟩
    · rintro ⟨names, text, language, rfl, lies, known, ending, shown, nonempty⟩
      have inEndings := (hasKnownEnding_iff known).mpr ending
      have short := ((exists_scanDirectory_iff tree isThere).mp ⟨_, ends⟩).2 names _ lies inEndings
      exact ⟨⟨names, _, rfl, lies, inEndings⟩, (tree.shows_below_iff isThere lies short).mpr
        ⟨text, language, rfl, known, shown, nonempty⟩⟩
  · exact ((cover.mem_iff _).mp member).2.2.1

end Scan

/-- A scan tells of a directory tree, and comes to an end exactly if no directory below the given one is
    too deep or too far away for a walk, and no file with a known ending too far away. -/
theorem tellOf_scanDirectory (rules : ValueRules) (tree : disk.IsTree)
    (isThere : disk.isDirectory directory = .ok true) :
    ((∃ results, (scanDirectory rules disk directory).outcome = .ok results) ↔
      (∀ names, disk.LiesBelow directory names .directory → disk.IsInReach directory names) ∧
      ∀ names bytes, disk.LiesBelow directory names (.file bytes) →
        HasKnownEnding (directory.below names).name → (directory.below names).IsShort) ∧
      ∀ results, (scanDirectory rules disk directory).outcome = .ok results →
        results.TellOf rules disk directory :=
  ⟨exists_scanDirectory_iff tree isThere, fun _ ends => tellOf_of_scanDirectory tree isThere ends⟩

/-- Two files with an annotation each, one of which has its ending in capital letters. -/
def twoSources : Disk :=
  let content := DiskNode.file (Text.Utf8.encode "// @acp:fn".toList)
  { nodes := [(["r"], .directory), (["r", "a.ts"], content), (["r", "B.TS"], content)] }

theorem tellOf_scanDirectory_twoSources : ∃ results : ScanResults,
    (scanDirectory {} twoSources ⟨.slash, ["r"]⟩).outcome = .ok results ∧
      results.TellOf {} twoSources ⟨.slash, ["r"]⟩ ∧
        results.map (fun entry => entry.1.text) = ["/r/a.ts"] := by
  have tree : twoSources.IsTree := ⟨by decide +kernel, by decide +kernel, by decide +kernel⟩
  have isThere : twoSources.isDirectory ⟨.slash, ["r"]⟩ = .ok true := by decide +kernel
  have found : (scanDirectory {} twoSources ⟨.slash, ["r"]⟩).outcome.map
      (·.map fun entry => entry.1.text) = .ok ["/r/a.ts"] := by decide +kernel
  cases ends : (scanDirectory {} twoSources ⟨.slash, ["r"]⟩).outcome with
  | error fault =>
    rw [ends] at found
    cases found
  | ok results =>
    rw [ends] at found
    exact ⟨results, rfl, (tellOf_scanDirectory {} tree isThere).2 results ends, Except.ok.inj found⟩

end Below

end Marginalia
