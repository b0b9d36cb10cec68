import Marginalia.Engine
import Mathlib.Data.List.Basic

/-!
# Reading the sheets of documents

A refresh reads each document on its own: what a document declares does not depend on the others, and
a document that declares nothing leaves no trace in the catalogue.  There are two flaws that end a
refresh, though, whichever document has them: a URI whose host is none, and, in a document that is to
be read as a sheet, an integer with too many digits or values that are nested too deep.
-/

namespace Marginalia

/-! ## What a document declares -/

/-- A text that cannot be read as JSON, and not because it is malformed. -/
def Json.IsBeyond (text : List Char) : Prop :=
  ∃ problem, Json.read text = .error problem ∧
    ∀ complaint offset, problem ≠ .malformed complaint offset

/-- An entry of a sheet stands for a declaration under its name, which is a valid one. -/
theorem Sheet.declared_of_mem {uri name : String} {entry : Entry} {declared : List (String × Value)}
    (member : (name, entry) ∈ declared.filterMap fun entry => (readEntry uri entry).toOption) :
    name ∈ declared.map Prod.fst ∧ isValidName name = true := by
  obtain ⟨⟨key, value⟩, among, isEntry⟩ := List.mem_filterMap.mp member
  unfold readEntry at isEntry
  split at isEntry
  next valid =>
    split at isEntry <;> cases isEntry
    exact ⟨List.mem_map_of_mem among, valid⟩
  next => cases isEntry

namespace Document

/-- Nothing in a document ends a refresh. -/
structure IsReadable (patterns : List String) (document : Document) : Prop where
  host : ∃ path, Uri.path document.uri = .ok path
  text : isSheet patterns document.uri = .ok true → ¬ Json.IsBeyond document.text.toList

/-- A document is a declaration sheet: it has the name of one, and is a JSON object with a member that
    declares variables. -/
def Declares (patterns : List String) (document : Document) (declared : List (String × Value)) :
    Prop :=
  isSheet patterns document.uri = .ok true ∧
    ∃ content, Json.read document.text.toList = .ok content ∧
      Sheet.declarations? content = some declared

/-- The sheet that a document is, if it is one. -/
def sheet? (patterns : List String) (document : Document) : Option Sheet :=
  match isSheet patterns document.uri, sheetName document.uri, Json.read document.text.toList with
  | .ok true, .ok name, .ok content =>
    (Sheet.declarations? content).map fun declared =>
      { uri := document.uri, name, text := document.text
        entries := declared.filterMap fun entry => (Sheet.readEntry document.uri entry).toOption }
  | _, _, _ => none

variable {patterns : List String} {document : Document}

/-- A document is a sheet exactly if it declares something, be it nothing at all. -/
theorem sheet?_eq_some_iff {sheet : Sheet} : document.sheet? patterns = some sheet ↔
    ∃ declared, document.Declares patterns declared ∧ sheet.uri = document.uri ∧
      sheetName document.uri = .ok sheet.name ∧ sheet.text = document.text ∧
      sheet.entries = declared.filterMap fun entry =>
        (Sheet.readEntry document.uri entry).toOption := by
  constructor
  · intro isThere
    rw [sheet?] at isThere
    split at isThere
    next name content wanted named read =>
      obtain ⟨declared, declares, rfl⟩ := Option.map_eq_some_iff.mp isThere
      exact ⟨declared, ⟨wanted, content, read, declares⟩, rfl, named, rfl, rfl⟩
    next => cases isThere
  · rintro ⟨declared, ⟨wanted, content, read, declares⟩, uri, named, text, entries⟩
    obtain ⟨_, _, _, _⟩ := sheet
    cases uri
    cases text
    cases entries
    rw [sheet?, wanted, named, read]
    simp only [declares, Option.map_some]

/-- A sheet has entries only for names that a variable may have. -/
theorem isValidName_of_mem_entries {sheet : Sheet} (isSheet : document.sheet? patterns = some sheet)
    {name : String} {entry : Entry} (member : (name, entry) ∈ sheet.entries) :
    isValidName name = true := by
  obtain ⟨declared, _, _, _, _, entries⟩ := sheet?_eq_some_iff.mp isSheet
  exact (Sheet.declared_of_mem (entries ▸ member)).2

end Document

/-! ## Reading one document -/

namespace Sheet

variable {uri text name : String}

theorem readEntries_of_ok {content : Value} (found : Json.read text.toList = .ok content) :
    (readEntries uri text).outcome = .ok ((declarations? content).map fun declared =>
      declared.filterMap fun entry => (readEntry uri entry).toOption) := by
  cases declares : declarations? content with
  | none =>
    simp only [readEntries, found, declares]
    rfl
  | some declared =>
    simp only [readEntries, found, declares]
    show Except.ok (some ((declared.map (readEntry uri)).filterMap Except.toOption)) = _
    rw [List.filterMap_map]
    rfl

theorem readEntries_of_malformed {complaint : Json.Complaint} {offset : Nat}
    (found : Json.read text.toList = .error (.malformed complaint offset)) :
    (readEntries uri text).outcome = .ok none := by
  rw [readEntries, found]
  rfl

theorem readEntries_of_isBeyond (beyond : Json.IsBeyond text.toList) :
    ∃ fault, (readEntries uri text).outcome = .error fault := by
  obtain ⟨problem, found, other⟩ := beyond
  rw [readEntries, found]
  cases problem with
  | malformed complaint offset => exact absurd rfl (other complaint offset)
  | longInteger digits => exact ⟨_, rfl⟩
  | tooDeep container => exact ⟨_, rfl⟩

theorem outcome_read (named : sheetName uri = .ok name) (text : String) :
    (read uri text).outcome = (readEntries uri text).outcome.map fun entries? =>
      entries?.map fun entries => { uri, name, text, entries } := by
  rw [read, Account.outcome_bind]
  cases (readEntries uri text).outcome with
  | error fault => rfl
  | ok entries? =>
    cases entries? with
    | none => rfl
    | some entries =>
      show (Report.ofHost (sheetName uri) >>= _).outcome = _
      rw [named]
      rfl

/-- What a text that is accepted as a sheet declares, and the entries that it gives. -/
theorem exists_of_outcome_read {sheet : Sheet} (accepted : (read uri text).outcome = .ok (some sheet)) :
    ∃ content declared, Json.read text.toList = .ok content ∧ declarations? content = some declared ∧
      sheet.text = text ∧
      sheet.entries = declared.filterMap fun entry => (readEntry uri entry).toOption := by
  obtain ⟨entries?, entriesRead, rest⟩ := Account.outcome_bind_eq_ok_iff.mp accepted
  cases entries? with
  | none => cases rest
  | some entries =>
  obtain ⟨name, -, rest⟩ := Account.outcome_bind_eq_ok_iff.mp rest
  cases rest
  cases found : Json.read text.toList with
  | error problem =>
    cases problem with
    | malformed complaint offset =>
      rw [readEntries_of_malformed found] at entriesRead
      cases entriesRead
    | longInteger | tooDeep =>
      rw [readEntries, found] at entriesRead
      cases entriesRead
  | ok content =>
    rw [readEntries_of_ok found, Except.ok.injEq, Option.map_eq_some_iff] at entriesRead
    obtain ⟨declared, declares, rfl⟩ := entriesRead
    exact ⟨content, declared, rfl, declares, rfl, rfl⟩

/-- A text is read unless it is beyond what is read of JSON; it is a sheet if it declares something. -/
theorem outcome_read_eq_ok_iff (named : sheetName uri = .ok name) {sheet : Option Sheet} :
    (read uri text).outcome = .ok sheet ↔ ¬ Json.IsBeyond text.toList ∧
      sheet = (Json.read text.toList).toOption.bind fun content =>
        (declarations? content).map fun declared =>
          { uri, name, text
            entries := declared.filterMap fun entry => (readEntry uri entry).toOption } := by
  rw [outcome_read named]
  cases found : Json.read text.toList with
  | ok content =>
    have within : ¬ Json.IsBeyond text.toList := by
      rintro ⟨problem, isProblem, _⟩
      rw [found] at isProblem
      cases isProblem
    rw [readEntries_of_ok found, and_iff_right within]
    show Except.ok ((Option.map _ (declarations? content)).map _) = _ ↔ _
    rw [Option.map_map, Except.ok.injEq, eq_comm]
    rfl
  | error problem =>
    by_cases malformed : ∃ complaint offset, problem = .malformed complaint offset
    · obtain ⟨complaint, offset, rfl⟩ := malformed
      have within : ¬ Json.IsBeyond text.toList := by
        rintro ⟨problem, isProblem, other⟩
        rw [found] at isProblem
        exact other complaint offset (Except.error.inj isProblem).symm
      rw [readEntries_of_malformed found, and_iff_right within]
      show Except.ok none = _ ↔ _
      rw [Except.ok.injEq, eq_comm]
      rfl
    · have beyond : Json.IsBeyond text.toList :=
        ⟨problem, found, fun complaint offset same => malformed ⟨complaint, offset, same⟩⟩
      obtain ⟨fault, fails⟩ := @readEntries_of_isBeyond uri _ beyond
      rw [fails]
      exact ⟨fun isRead => (by cases isRead), fun both => absurd beyond both.1⟩

end Sheet

namespace Library

/-- Reads a document as a sheet, if it has the name of one. -/
def readSheet (library : Library) (document : Document) : Report (Option Sheet) := do
  let wanted ← Report.ofHost (library.isSheet document.uri)
  if wanted then Sheet.read document.uri document.text else pure none

theorem readSheets_cons (library : Library) (document : Document) (rest : List Document) :
    library.readSheets (document :: rest) = do
      let sheet ← library.readSheet document
      let others ← library.readSheets rest
      return sheet.toList ++ others := by
  rw [readSheets, readSheet, bind_assoc]
  refine bind_congr fun wanted => ?_
  cases wanted <;> rfl

/-- A document can be read unless it has one of the two flaws, and comes to the sheet that it is. -/
theorem outcome_readSheet_eq_ok_iff {library : Library} {document : Document}
    {sheet : Option Sheet} :
    (library.readSheet document).outcome = .ok sheet ↔
      document.IsReadable library.patterns ∧ sheet = document.sheet? library.patterns := by
  -- The host decides on both names that are looked at: that of the document and that of its sheet.
  cases hosted : Uri.path document.uri with
  | error flaw =>
    have flawed : library.isSheet document.uri = .error flaw := by
      rw [isSheet, Marginalia.isSheet, hosted]
      rfl
    constructor
    · intro read
      rw [readSheet, Account.outcome_bind, flawed] at read
      cases read
    · rintro ⟨⟨⟨path, host⟩, _⟩, _⟩
      rw [hosted] at host
      cases host
  | ok path =>
    obtain ⟨wanted, tells⟩ : ∃ wanted, Marginalia.isSheet library.patterns document.uri = .ok wanted := by
      rw [Marginalia.isSheet, hosted]
      exact ⟨_, rfl⟩
    obtain ⟨name, named⟩ : ∃ name, sheetName document.uri = .ok name := by
      rw [sheetName, hosted]
      exact ⟨_, rfl⟩
    rw [readSheet, Account.outcome_bind, isSheet, tells, Document.sheet?, tells, named]
    show (if wanted then Sheet.read document.uri document.text else pure none).outcome = _ ↔ _
    cases wanted with
    | false =>
      have readable : document.IsReadable library.patterns := by
        refine ⟨⟨path, hosted⟩, fun isWanted => ?_⟩
        rw [tells] at isWanted
        cases isWanted
      rw [and_iff_right readable]
      exact ⟨fun isRead => (Except.ok.inj isRead).symm, fun nothing => nothing ▸ rfl⟩
    | true =>
      have readable : document.IsReadable library.patterns ↔ ¬ Json.IsBeyond document.text.toList :=
        ⟨fun readable => readable.text tells, fun within => ⟨⟨path, hosted⟩, fun _ => within⟩⟩
      rw [readable, if_pos rfl, Sheet.outcome_read_eq_ok_iff named]
      cases Json.read document.text.toList <;> rfl

/-- Some documents can be read exactly if each of them can, and come to the sheets among them. -/
theorem outcome_readSheets_eq_ok_iff {library : Library} {documents : List Document}
    {sheets : List Sheet} :
    (library.readSheets documents).outcome = .ok sheets ↔
      (∀ document ∈ documents, document.IsReadable library.patterns) ∧
        sheets = documents.filterMap (Document.sheet? library.patterns) := by
  induction documents generalizing sheets with
  | nil =>
    exact ⟨fun isRead => ⟨fun _ member => absurd member List.not_mem_nil,
      (Except.ok.inj isRead).symm⟩, fun both => both.2 ▸ rfl⟩
  | cons document rest ih =>
    have whole : (document :: rest).filterMap (Document.sheet? library.patterns) =
        (document.sheet? library.patterns).toList ++
          rest.filterMap (Document.sheet? library.patterns) := by
      rw [List.filterMap_cons]
      cases document.sheet? library.patterns <;> rfl
    rw [readSheets_cons, Account.outcome_bind_eq_ok_iff, List.forall_mem_cons, whole]
    constructor
    · rintro ⟨sheet, isRead, ends⟩
      obtain ⟨found, others, same⟩ := Account.outcome_bind_eq_ok_iff.mp ends
      obtain ⟨readable, rfl⟩ := outcome_readSheet_eq_ok_iff.mp isRead
      obtain ⟨restReadable, rfl⟩ := ih.mp others
      exact ⟨⟨readable, restReadable⟩, (Except.ok.inj same).symm⟩
    · rintro ⟨⟨readable, restReadable⟩, rfl⟩
      exact ⟨_, outcome_readSheet_eq_ok_iff.mpr ⟨readable, rfl⟩,
        Account.outcome_bind_eq_ok_iff.mpr ⟨_, ih.mpr ⟨restReadable, rfl⟩, rfl⟩⟩

/-! ## Refreshing -/

variable {documents : OpenDocuments} {disk : Disk} {catalogue filled : Catalogue}

/-- The documents of a library are read into a catalogue exactly if each of them can be read, and the
    catalogue is then filled with the sheets among them. -/
theorem outcome_refresh_of_documents {library : Library} {documents : List Document}
    (listed : (library.documents disk).outcome = .ok documents) :
    (library.refresh disk catalogue).outcome = .ok filled ↔
      (∀ document ∈ documents, document.IsReadable library.patterns) ∧
        filled = catalogue.fill (documents.filterMap (Document.sheet? library.patterns)) := by
  rw [refresh, Account.outcome_bind, listed]
  show (library.readSheets documents >>= _).outcome = _ ↔ _
  rw [Account.outcome_bind_eq_ok_iff]
  constructor
  · rintro ⟨sheets, isRead, ends⟩
    obtain ⟨readable, rfl⟩ := outcome_readSheets_eq_ok_iff.mp isRead
    exact ⟨readable, (Except.ok.inj ends).symm⟩
  · rintro ⟨readable, rfl⟩
    exact ⟨_, outcome_readSheets_eq_ok_iff.mpr ⟨readable, rfl⟩, rfl⟩

theorem outcome_refresh_eq_ok_iff :
    ((Library.opened documents).refresh disk catalogue).outcome = .ok filled ↔
      (∀ document ∈ documents.toList, document.IsReadable documents.patterns) ∧
        filled = catalogue.fill
          (documents.toList.filterMap (Document.sheet? documents.patterns)) :=
  outcome_refresh_of_documents rfl

/-- A refresh comes to an end exactly if each open document can be read.  The catalogue then has, in
    the order of the documents, what each of them comes to alone: one sheet if it declares variables,
    whatever becomes of their entries, and nothing otherwise. -/
theorem refresh_opened (documents : OpenDocuments) (disk : Disk) (catalogue : Catalogue) :
    let refreshed (documents : OpenDocuments) :=
      ((Library.opened documents).refresh disk catalogue).outcome
    ((∃ filled, refreshed documents = .ok filled) ↔
      ∀ document ∈ documents.toList, document.IsReadable documents.patterns) ∧
    ∀ filled, refreshed documents = .ok filled → ∃ sheetsOf : Document → List Sheet,
      filled = catalogue.fill (documents.toList.flatMap sheetsOf) ∧
      ∀ document ∈ documents.toList,
        refreshed { documents with documents := [(document.uri, document)] } =
            .ok (catalogue.fill (sheetsOf document)) ∧
          ((¬ ∃ declared, document.Declares documents.patterns declared) →
            sheetsOf document = []) ∧
          ∀ declared, document.Declares documents.patterns declared →
            ∃ sheet, sheetsOf document = [sheet] ∧ sheet.uri = document.uri ∧
              sheetName document.uri = .ok sheet.name ∧ sheet.text = document.text ∧
              sheet.entries = declared.filterMap fun entry =>
                (Sheet.readEntry document.uri entry).toOption := by
  intro refreshed
  refine ⟨⟨?_, ?_⟩, ?_⟩
  · rintro ⟨filled, ends⟩
    exact (outcome_refresh_eq_ok_iff.mp ends).1
  · intro readable
    exact ⟨_, outcome_refresh_eq_ok_iff.mpr ⟨readable, rfl⟩⟩
  · intro filled ends
    obtain ⟨readable, rfl⟩ := outcome_refresh_eq_ok_iff.mp ends
    refine ⟨fun document => (document.sheet? documents.patterns).toList, ?_, ?_⟩
    · rw [List.filterMap_eq_flatMap_toList]
    · intro document member
      show _ = _ ∧ (_ → (document.sheet? documents.patterns).toList = []) ∧
        ∀ _, _ → ∃ _, (document.sheet? documents.patterns).toList = _ ∧ _
      refine ⟨?_, ?_, ?_⟩
      · refine outcome_refresh_eq_ok_iff.mpr ⟨?_, ?_⟩
        · intro other isOnly
          rw [List.mem_singleton.mp isOnly]
          exact readable document member
        · show _ = catalogue.fill ([document].filterMap _)
          rw [List.filterMap_eq_flatMap_toList, List.flatMap_singleton]
      · intro declaresNothing
        rw [Option.toList_eq_nil_iff]
        refine Option.eq_none_iff_forall_ne_some.mpr fun sheet found => ?_
        obtain ⟨declared, declares, _⟩ := Document.sheet?_eq_some_iff.mp found
        exact declaresNothing ⟨declared, declares⟩
      · intro declared declares
        obtain ⟨path, host⟩ := (readable document member).host
        have named : ∃ name, sheetName document.uri = .ok name := by
          rw [sheetName, host]
          exact ⟨_, rfl⟩
        obtain ⟨name, named⟩ := named
        let sheet : Sheet :=
          { uri := document.uri, name, text := document.text
            entries := declared.filterMap fun entry =>
              (Sheet.readEntry document.uri entry).toOption }
        have found : document.sheet? documents.patterns = some sheet :=
          Document.sheet?_eq_some_iff.mpr ⟨declared, declares, rfl, named, rfl, rfl⟩
        exact ⟨sheet, by rw [found]; rfl, rfl, named, rfl, rfl⟩

-- A document whose language is given is accepted whatever its URI, and may end every refresh.
example : ∃ documents document, ({} : OpenDocuments).insert "file://[x/a.ts" "" (some "go") 0 =
      .ok (documents, document) ∧
    ((Library.opened documents).refresh {} {}).outcome = .error (.host .misplacedBrackets) :=
  ⟨_, _, rfl, by decide⟩

/-- A refresh that comes to an end fills the catalogue with sheets of documents, and says so last. -/
theorem exists_fill_of_refresh {library : Library}
    (ends : (library.refresh disk catalogue).outcome = .ok filled) :
    (∃ documents : List Document, filled = catalogue.fill
        (documents.filterMap (Document.sheet? library.patterns))) ∧
      ∃ notices, (library.refresh disk catalogue).notes = notices ++ filled.notices := by
  obtain ⟨documents, found, succeeds⟩ := Account.outcome_bind_eq_ok_iff.mp ends
  obtain ⟨sheets, isRead, isFilled⟩ := Account.outcome_bind_eq_ok_iff.mp succeeds
  obtain rfl : catalogue.fill sheets = filled := Except.ok.inj isFilled
  obtain ⟨_, rfl⟩ := outcome_readSheets_eq_ok_iff.mp isRead
  refine ⟨⟨documents, rfl⟩,
    (library.documents disk).notes ++ (library.readSheets documents).notes, ?_⟩
  rw [refresh, Account.notes_bind_ok found, Account.notes_bind_ok isRead]
  show _ ++ (_ ++ ((catalogue.fill _).notices ++ [])) = _
  rw [List.append_nil, List.append_assoc]

end Library

namespace Engine

variable {engine after : Engine} {disk : Disk}

theorem freshen_of_fresh (fresh : engine.catalogue.isStale = false) (disk : Disk) :
    engine.freshen disk = pure engine := by
  rw [freshen, Library.freshen, if_neg (by rw [fresh]; exact Bool.false_ne_true)]
  rfl

theorem freshen_of_stale (stale : engine.catalogue.isStale = true) (disk : Disk) :
    engine.freshen disk = engine.refresh disk := by
  rw [freshen, Library.freshen, if_pos stale, refresh]

theorem exists_fill_of_refresh (ends : (engine.refresh disk).outcome = .ok after) :
    (∃ documents : List Document, after = { engine with
        catalogue := engine.catalogue.fill
          (documents.filterMap (Document.sheet? engine.library.patterns)) }) ∧
      ∃ notices, (engine.refresh disk).notes = notices ++ after.catalogue.notices := by
  obtain ⟨catalogue, filled, same⟩ := Account.outcome_bind_eq_ok_iff.mp ends
  obtain ⟨⟨documents, rfl⟩, notices, told⟩ := Library.exists_fill_of_refresh filled
  obtain rfl := Except.ok.inj same
  refine ⟨⟨documents, rfl⟩, notices, ?_⟩
  rw [refresh, Account.notes_bind_ok filled, told]
  exact List.append_nil _

theorem isFresh_of_refresh (ends : (engine.refresh disk).outcome = .ok after) :
    after.catalogue.isStale = false ∧ after.settings = engine.settings := by
  obtain ⟨⟨documents, rfl⟩, _⟩ := exists_fill_of_refresh ends
  exact ⟨rfl, rfl⟩

theorem isFresh_of_freshen (ends : (engine.freshen disk).outcome = .ok after) :
    after.catalogue.isStale = false ∧ after.settings = engine.settings := by
  cases isStale : engine.catalogue.isStale with
  | false =>
    rw [freshen_of_fresh isStale] at ends
    cases ends
    exact ⟨isStale, rfl⟩
  | true =>
    rw [freshen_of_stale isStale] at ends
    exact isFresh_of_refresh ends

theorem prepare_of_fresh (fresh : engine.catalogue.isStale = false) (disk : Disk) (isNeeded : Bool) :
    engine.prepare disk isNeeded = pure engine := by
  cases isNeeded with
  | false => rfl
  | true => exact freshen_of_fresh fresh disk

/-- A name is resolved with the catalogue of the engine, which was read again before if it was needed
    and stale. -/
theorem resolve_eq (engine : Engine) (disk : Disk) (request : Request) (name : String)
    (modifier : Option String) : engine.resolve disk request name modifier =
      engine.prepare disk (request.needsCatalogue name modifier) >>= fun after =>
        let resolution := request.resolution after.catalogue name modifier
        ⟨noticesOf resolution.notes, .ok (after, resolution.outcome)⟩ := by
  rw [resolve]
  refine bind_congr fun after => ?_
  show Account.mk (noticesOf _ ++ []) _ = _
  rw [List.append_nil]
  rfl

theorem outcome_resolve_of_fresh (fresh : engine.catalogue.isStale = false) (disk : Disk)
    (request : Request) (name : String) (modifier : Option String) :
    (engine.resolve disk request name modifier).outcome =
      .ok (engine, request.resolve engine.catalogue name modifier) := by
  rw [resolve_eq, prepare_of_fresh fresh]
  rfl

/-- A name that is looked up is resolved with the catalogue as it is when it is fresh. -/
theorem outcome_resolve_of_needed {request : Request} {name : String} {modifier : Option String}
    (needed : request.needsCatalogue name modifier = true)
    (ready : (engine.freshen disk).outcome = .ok after) :
    (engine.resolve disk request name modifier).outcome =
      .ok (after, request.resolve after.catalogue name modifier) := by
  rw [resolve_eq, needed, prepare, if_pos rfl, Account.outcome_bind, ready]
  rfl

theorem outcome_expand_of_fresh (fresh : engine.catalogue.isStale = false) (disk : Disk)
    (text : String) (place : Option Surroundings) :
    (engine.expand disk text place).outcome =
      .ok (engine, (engine.request place).expand engine.catalogue text) := by
  rw [expand, prepare_of_fresh fresh]
  rfl

theorem outcome_isDefined_of_fresh (fresh : engine.catalogue.isStale = false) (disk : Disk)
    (name : String) : (engine.isDefined disk name).outcome =
      .ok (engine, (Builtin.ofName? name).isSome || engine.catalogue.declares name) := by
  rw [isDefined, freshen_of_fresh fresh]
  cases (Builtin.ofName? name).isSome <;> rfl

theorem outcome_listVariables_of_fresh (fresh : engine.catalogue.isStale = false) (disk : Disk) :
    (engine.listVariables disk).outcome = .ok (engine, engine.catalogue.listing) := by
  rw [listVariables, freshen_of_fresh fresh]
  rfl

theorem outcome_resolve {request : Request} {name : String} {modifier : Option String}
    {outcome : Except Failure Resolved}
    (ends : (engine.resolve disk request name modifier).outcome = .ok (after, outcome)) :
    (engine.prepare disk (request.needsCatalogue name modifier)).outcome = .ok after ∧
      request.resolve after.catalogue name modifier = outcome := by
  rw [resolve_eq] at ends
  obtain ⟨prepared, ready, same⟩ := Account.outcome_bind_eq_ok_iff.mp ends
  cases same
  exact ⟨ready, rfl⟩

end Engine

end Marginalia
