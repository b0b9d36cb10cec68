import Marginalia.Proofs.Text.Utf8
import Marginalia.Settings.Discovery
import Mathlib.Data.List.Basic

/-!
# What a settings file sets

A settings file is the bytes of a TOML text with keys of settings only, each with a value that stands for
a setting.  Where a file is such a text, it gives those settings, and the defaults where it is not; so the
settings are always usable.  But three things keep a file from giving any settings at all: bytes that are
no UTF-8, an integer with too many digits, and values that are nested too deep.
-/

namespace Marginalia

/-- A text that cannot be read as TOML, and not because it breaks a rule. -/
def Toml.IsBeyond (text : List Char) : Prop :=
  ∃ problem, Toml.read text = .error problem ∧ problem ≠ .unreadable

namespace Settings

/-! ## What a value stands for -/

/-- A value stands for an integer: one as such, a truth value, a number without a fraction that is not
    too large, or a text that spells an integer. -/
inductive IsInteger : Value → Int → Prop where
  | int (number : Int) : IsInteger (.int number) number
  | yes : IsInteger (.bool true) 1
  | no : IsInteger (.bool false) 0
  | float {number : Number.Binary64} {whole : Int} (isWhole : number.toInt? = some whole)
      (fits : whole.natAbs < Nat.pow 2 63) : IsInteger (.float number) whole
  | text {content : String} {number : Int} (spells : readIntegerText content = .ok number) :
      IsInteger (.text content) number

/-- An integer that is at least one. -/
structure IsDepth (value : Value) (depth : Int) : Prop where
  integer : IsInteger value depth
  least : 1 ≤ depth

/-- Some values are texts. -/
inductive AreTexts : List Value → List String → Prop where
  | nil : AreTexts [] []
  | text {items : List Value} {texts : List String} (content : String) (rest : AreTexts items texts) :
      AreTexts (.text content :: items) (content :: texts)
  | torn {items : List Value} {texts : List String} (content : String) (rest : AreTexts items texts) :
      AreTexts (.torn content :: items) (content :: texts)

/-- A list of texts. -/
inductive IsTextList : Value → List String → Prop where
  | list {items : List Value} {texts : List String} (areTexts : AreTexts items texts) :
      IsTextList (.list items) texts

/-- A setting of a table: the default where its key is missing, and what the value stands for where it is
    there. -/
inductive Sets {α : Type} (entries : List (String × Value)) (key : String)
    (standsFor : Value → α → Prop) (default : α) : α → Prop where
  | unset (missing : entries.lookup key = none) : Sets entries key standsFor default default
  | set {value : Value} {setting : α} (found : entries.lookup key = some value)
      (stands : standsFor value setting) : Sets entries key standsFor default setting

/-- The entries of a table give some settings. -/
structure AreGivenBy (settings : Settings) (entries : List (String × Value)) : Prop where
  depthLimit : Sets entries "max_depth" IsDepth 10 settings.depthLimit
  precedence : Sets entries "duplicate_policy"
    (fun value precedence => value = .text precedence.word) .first settings.precedence
  alsoOptional : Sets entries "value_optional_namespaces" IsTextList [] settings.alsoOptional
  sheetPatterns : Sets entries "vars_file_patterns" IsTextList defaultSheetPatterns settings.sheetPatterns
  logLevel : Sets entries "log_level" (fun value level => value = .text level.word) .warning
    settings.logLevel
  known : ∀ entry ∈ entries, entry.1 ∈ keys

/-- A text is TOML with some settings. -/
def AreSpelledBy (settings : Settings) (text : List Char) : Prop :=
  ∃ entries, Toml.read text = .ok (.table entries) ∧ settings.AreGivenBy entries

/-- The bytes of a file are those of a text with some settings. -/
def AreWrittenIn (settings : Settings) (bytes : List UInt8) : Prop :=
  ∃ text, bytes = Text.Utf8.encode text ∧ settings.AreSpelledBy text

/-! ## Reading the settings -/

theorem readInteger_eq_ok_iff {value : Value} {number : Int} :
    readInteger value = .ok number ↔ IsInteger value number := by
  constructor
  · intro found
    unfold readInteger at found
    split at found
    next =>
      cases found
      exact .int _
    next truth =>
      cases truth <;> cases found
      · exact .no
      · exact .yes
    next =>
      split at found
      next => cases found
      next =>
        split at found
        next isWhole =>
          split at found
          next fits =>
            cases found
            exact .float isWhole fits
          next => cases found
        next => cases found
    next => exact .text found
    next => cases found
    next => cases found
  · intro isInteger
    cases isInteger with
    | int | yes | no => rfl
    | @float number whole isWhole fits =>
      cases number with
      | finite negative mantissa exponent =>
        simp only [readInteger, isWhole]
        exact if_pos fits
      | _ => cases isWhole
    | text spells => exact spells

theorem readDepthLimit_eq_ok_iff {value : Value} {depth : Int} :
    readDepthLimit value = .ok depth ↔ IsDepth value depth := by
  constructor
  · intro found
    obtain ⟨number, isNumber, found⟩ := exists_of_bind_eq_ok found
    split at found
    next => cases found
    next large =>
      cases found
      exact ⟨readInteger_eq_ok_iff.mp isNumber, Int.not_lt.mp large⟩
  · rintro ⟨integer, least⟩
    rw [readDepthLimit, readInteger_eq_ok_iff.mpr integer]
    exact if_neg (Int.not_lt.mpr least)

theorem readWord_eq_ok_iff {α : Type} {word : α → String} {ofWord? : String → Option α}
    (known : ∀ meaning, ofWord? (word meaning) = some meaning)
    (sound : ∀ {spelled meaning}, ofWord? spelled = some meaning → word meaning = spelled)
    {words : List String} {value : Value} {meaning : α} :
    readWord ofWord? words value = .ok meaning ↔ value = .text (word meaning) := by
  constructor
  · intro found
    unfold readWord at found
    split at found
    next =>
      split at found
      next isWord =>
        cases found
        rw [sound isWord]
      next => cases found
    next => cases found
    next => cases found
  · rintro rfl
    rw [readWord, known]

theorem readTexts_eq_ok_iff {place : Nat} {items : List Value} {texts : List String} :
    readTexts place items = .ok texts ↔ AreTexts items texts := by
  induction items generalizing place texts with
  | nil =>
    constructor
    · intro found
      cases found
      exact .nil
    · rintro ⟨⟩
      rfl
  | cons item rest ih =>
    constructor
    · intro found
      have isText : ∃ content, (item = .text content ∨ item = .torn content) ∧
          (readTexts (place + 1) rest).map (content :: ·) = .ok texts := by
        cases item with
        | text content => exact ⟨content, .inl rfl, found⟩
        | torn content => exact ⟨content, .inr rfl, found⟩
        | _ => cases found
      obtain ⟨content, isText, found⟩ := isText
      cases later : readTexts (place + 1) rest with
      | error mismatch =>
        rw [later] at found
        cases found
      | ok others =>
        rw [later] at found
        cases found
        rcases isText with rfl | rfl
        · exact .text content (ih.mp later)
        · exact .torn content (ih.mp later)
    · intro areTexts
      cases areTexts with
      | text content areTexts | torn content areTexts =>
        rw [readTexts, ih.mpr areTexts]
        rfl

theorem readTextList_eq_ok_iff {value : Value} {texts : List String} :
    readTextList value = .ok texts ↔ IsTextList value texts := by
  constructor
  · intro found
    unfold readTextList at found
    split at found
    next => exact .list (readTexts_eq_ok_iff.mp found)
    next => cases found
  · rintro ⟨areTexts⟩
    exact readTexts_eq_ok_iff.mpr areTexts

theorem readSetting_eq_ok_iff {α : Type} {read : Value → Except Mismatch α}
    {standsFor : Value → α → Prop}
    (reads : ∀ {value setting}, read value = .ok setting ↔ standsFor value setting)
    {entries : List (String × Value)} {key : String} {default setting : α} :
    readSetting entries key read default = .ok setting ↔ Sets entries key standsFor default setting := by
  constructor
  · intro found
    unfold readSetting at found
    split at found
    next missing =>
      cases found
      exact .unset missing
    next present => exact .set present (reads.mp (behindKey_eq_ok_iff.mp found))
  · intro sets
    cases sets with
    | unset missing => rw [readSetting, missing]
    | set present stands =>
      rw [readSetting, present]
      exact behindKey_eq_ok_iff.mpr (reads.mpr stands)

/-- What is read as the settings of a table are those that it gives. -/
theorem ofEntries_eq_ok_iff {entries : List (String × Value)} {settings : Settings} :
    ofEntries entries = .ok settings ↔ settings.AreGivenBy entries := by
  have precedence {value : Value} {precedence : Precedence} : readWord Precedence.ofWord?
      (Precedence.all.map Precedence.word) value = .ok precedence ↔ value = .text precedence.word :=
    readWord_eq_ok_iff Precedence.ofWord?_word Precedence.word_of_ofWord?
  have logLevel {value : Value} {level : Level} : readWord Level.ofWord?
      (Level.all.map Level.word) value = .ok level ↔ value = .text level.word :=
    readWord_eq_ok_iff Level.ofWord?_word Level.word_of_ofWord?
  constructor
  · intro found
    obtain ⟨_, readsDepthLimit, found⟩ := exists_of_bind_eq_ok found
    obtain ⟨_, readsPrecedence, found⟩ := exists_of_bind_eq_ok found
    obtain ⟨_, readsAlsoOptional, found⟩ := exists_of_bind_eq_ok found
    obtain ⟨_, readsSheetPatterns, found⟩ := exists_of_bind_eq_ok found
    obtain ⟨_, readsLogLevel, found⟩ := exists_of_bind_eq_ok found
    split at found
    next => cases found
    next noOther =>
      cases found
      exact {
        depthLimit := (readSetting_eq_ok_iff readDepthLimit_eq_ok_iff).mp readsDepthLimit
        precedence := (readSetting_eq_ok_iff precedence).mp readsPrecedence
        alsoOptional := (readSetting_eq_ok_iff readTextList_eq_ok_iff).mp readsAlsoOptional
        sheetPatterns := (readSetting_eq_ok_iff readTextList_eq_ok_iff).mp readsSheetPatterns
        logLevel := (readSetting_eq_ok_iff logLevel).mp readsLogLevel
        known := by simpa using noOther }
  · intro given
    have noOther : entries.find? (fun entry => !keys.contains entry.1) = none := by
      simpa using given.known
    simp only [ofEntries, (readSetting_eq_ok_iff readDepthLimit_eq_ok_iff).mpr given.depthLimit,
      (readSetting_eq_ok_iff precedence).mpr given.precedence,
      (readSetting_eq_ok_iff readTextList_eq_ok_iff).mpr given.alsoOptional,
      (readSetting_eq_ok_iff readTextList_eq_ok_iff).mpr given.sheetPatterns,
      (readSetting_eq_ok_iff logLevel).mpr given.logLevel, noOther]
    rfl

theorem AreGivenBy.least {settings : Settings} {entries : List (String × Value)}
    (given : settings.AreGivenBy entries) : 1 ≤ settings.depthLimit := by
  have sets := given.depthLimit
  generalize settings.depthLimit = depth at sets
  cases sets with
  | unset => decide
  | set _ isDepth => exact isDepth.least

/-! ## Reading a settings file -/

theorem exists_table_of_read {text : List Char} {value : Value} (found : Toml.read text = .ok value) :
    ∃ entries, value = .table entries := by
  obtain ⟨state, -, found⟩ := exists_of_bind_eq_ok found
  split at found
  next =>
    cases found
    exact ⟨_, rfl⟩
  next =>
    cases found
    exact ⟨_, rfl⟩
  next => cases found

theorem ofText_of_isBeyond {text : List Char} (beyond : Toml.IsBeyond text) (path : Path) :
    ∃ fault, (ofText path text).outcome = .error fault := by
  obtain ⟨problem, found, other⟩ := beyond
  rw [ofText, found]
  cases problem with
  | unreadable => exact absurd rfl other
  | longInteger | tooDeep => exact ⟨_, rfl⟩

/-- A text that is not beyond what is read of TOML gives its settings, or the defaults if it has none. -/
theorem ofText_of_within {text : List Char} (within : ¬ Toml.IsBeyond text) (path : Path) :
    ∃ settings : Settings, (ofText path text).outcome = .ok settings ∧
      (settings.AreSpelledBy text ∨ settings = {} ∧ ¬ ∃ other : Settings, other.AreSpelledBy text) := by
  rw [ofText]
  cases found : Toml.read text with
  | error problem =>
    obtain rfl : problem = .unreadable :=
      Classical.byContradiction fun other => within ⟨problem, found, other⟩
    refine ⟨{}, rfl, .inr ⟨rfl, ?_⟩⟩
    rintro ⟨other, entries, isTable, -⟩
    rw [found] at isTable
    cases isTable
  | ok value =>
    obtain ⟨entries, rfl⟩ := exists_table_of_read found
    dsimp only [ofValue]
    cases result : ofEntries entries with
    | error mismatch =>
      refine ⟨{}, rfl, .inr ⟨rfl, ?_⟩⟩
      rintro ⟨other, _, isTable, given⟩
      rw [found] at isTable
      cases isTable
      rw [ofEntries_eq_ok_iff.mpr given] at result
      cases result
    | ok settings => exact ⟨settings, rfl, .inl ⟨entries, found, ofEntries_eq_ok_iff.mp result⟩⟩

section Files

variable {disk : Disk} {path : Path}

theorem load_of_encode {text : List Char} (clean : '\x00' ∉ path.text.toList)
    (holds : disk.bytes path = .ok (Text.Utf8.encode text)) :
    load disk (some path) = ofText path text := by
  rw [load, ofFile, if_neg (by simpa using clean), holds]
  dsimp only
  rw [Text.Utf8.decode_eq_ok_iff.mpr rfl]

theorem load_of_not_encode {bytes : List UInt8} (clean : '\x00' ∉ path.text.toList)
    (holds : disk.bytes path = .ok bytes) (noText : ¬ ∃ text, bytes = Text.Utf8.encode text) :
    ∃ fault, (load disk (some path)).outcome = .error fault := by
  rw [load, ofFile, if_neg (by simpa using clean), holds]
  dsimp only
  cases decoded : Text.Utf8.decode bytes with
  | error malformed => exact ⟨_, rfl⟩
  | ok text => exact absurd ⟨text, Text.Utf8.decode_eq_ok_iff.mp decoded⟩ noText

theorem areWrittenIn_encode_iff {settings : Settings} {text : List Char} :
    settings.AreWrittenIn (Text.Utf8.encode text) ↔ settings.AreSpelledBy text := by
  simp [AreWrittenIn, Text.Utf8.encode_inj]

/-- A settings file can be loaded exactly if its bytes are UTF-8 and the text is not beyond what is read
    of TOML.  It then gives the settings that are written in it, or the defaults if there are none, and
    at least one variable may be open at once. -/
theorem areWrittenIn_of_load {bytes : List UInt8} (clean : '\x00' ∉ path.text.toList)
    (holds : disk.bytes path = .ok bytes) :
    ((∃ settings, (load disk (some path)).outcome = .ok settings) ↔
      ∃ text, bytes = Text.Utf8.encode text ∧ ¬ Toml.IsBeyond text) ∧
    ∀ settings, (load disk (some path)).outcome = .ok settings → 1 ≤ settings.depthLimit ∧
      (settings.AreWrittenIn bytes ∨
        settings = {} ∧ ¬ ∃ other : Settings, other.AreWrittenIn bytes) := by
  by_cases readable : ∃ text, bytes = Text.Utf8.encode text ∧ ¬ Toml.IsBeyond text
  · rw [iff_true_right readable]
    obtain ⟨text, rfl, within⟩ := readable
    obtain ⟨given, isOk, isGiven⟩ := ofText_of_within within path
    rw [load_of_encode clean holds, isOk]
    refine ⟨⟨given, rfl⟩, ?_⟩
    rintro settings ⟨⟩
    simp only [areWrittenIn_encode_iff]
    refine ⟨?_, isGiven⟩
    rcases isGiven with ⟨entries, -, areGiven⟩ | ⟨rfl, -⟩
    · exact areGiven.least
    · decide
  -- Bytes that are no text stop it before any TOML is read, and a text that is beyond does so later.
  · have fails : ∃ fault, (load disk (some path)).outcome = .error fault := by
      by_cases isText : ∃ text, bytes = Text.Utf8.encode text
      · obtain ⟨text, rfl⟩ := isText
        rw [load_of_encode clean holds]
        have beyond : Toml.IsBeyond text :=
          Classical.byContradiction fun within => readable ⟨text, rfl, within⟩
        exact ofText_of_isBeyond beyond path
      · exact load_of_not_encode clean holds isText
    obtain ⟨fault, fails⟩ := fails
    rw [fails]
    exact ⟨iff_of_false (fun ⟨settings, isOk⟩ => by cases isOk) readable,
      fun settings isOk => by cases isOk⟩

end Files

-- The number is written as a text, and the other settings are left out.
theorem areWrittenIn_of_load_three :
    let bytes := Text.Utf8.encode "max_depth = \"3\"".toList
    let disk : Disk := { nodes := [(["s"], .file bytes)] }
    let path : Path := ⟨.slash, ["s"]⟩
    ('\x00' ∉ path.text.toList ∧ disk.bytes path = .ok bytes) ∧
      (load disk (some path)).outcome = .ok { depthLimit := 3 } ∧
      AreWrittenIn { depthLimit := 3 } bytes := by
  intro bytes disk path
  have clean : '\x00' ∉ path.text.toList := by decide +kernel
  have holds : disk.bytes path = .ok bytes := by decide +kernel
  have loads : (load disk (some path)).outcome = .ok { depthLimit := 3 } := by decide +kernel
  refine ⟨⟨clean, holds⟩, loads, ?_⟩
  rcases ((areWrittenIn_of_load clean holds).2 _ loads).2 with written | ⟨isDefault, -⟩
  · exact written
  · cases isDefault

end Settings

end Marginalia
