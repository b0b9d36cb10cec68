import Marginalia.Proofs.Document.History
import Marginalia.Proofs.Document.Refresh
import Marginalia.Proofs.Variable.Nesting

/-!
# The catalogue as a cache

An engine over open documents, after any history of edits, marks, refreshes and queries.  Its catalogue
holds the sheets that were open when it was last read, and is stale if it was marked since.  Only a
refresh reads it, and a query that needs it while it is stale; so edits alone change no answer, and the
first such query behind a mark answers from the documents that are open then.
-/

namespace Marginalia

/-! ## Queries -/

/-- What a query is answered. -/
inductive Reply where
  | resolved (outcome : Except Failure Resolved)
  | expanded (text : String)
  | isDefined (defined : Bool)
  | listed (listing : List ListedVariable)
  | repeated (names : List (String × List String))

namespace Query

/-- The answer to a query from a catalogue. -/
def reply (settings : Settings) (catalogue : Catalogue) : Query → Reply
  | .resolve name modifier place =>
    .resolved (({ limit := settings.depthLimit, place } : Request).resolve catalogue name modifier)
  | .expand text place =>
    .expanded (({ limit := settings.depthLimit, place } : Request).expand catalogue text)
  | .isDefined name => .isDefined ((Builtin.ofName? name).isSome || catalogue.declares name)
  | .list => .listed catalogue.listing
  | .repeated => .repeated catalogue.repeated

/-- The notices that go with the answer. -/
def notices (settings : Settings) (catalogue : Catalogue) : Query → List Notice
  | .resolve name modifier place => Engine.noticesOf
      (({ limit := settings.depthLimit, place } : Request).resolution catalogue name modifier).notes
  | .expand text place => (referencesToExpand text.toList).flatMap fun reference => Engine.noticesOf
      (({ limit := settings.depthLimit, place } : Request).resolution catalogue reference.name
        reference.modifier).notes
  | _ => []

/-- A reference that is looked up in a catalogue: neither it nor its name is refused before. -/
structure LooksUp (limit : Int) (name : String) (modifier : Option String) : Prop where
  wellFormed : IsWellFormed name modifier
  declared : Builtin.ofName? name = none
  room : 0 < limit

/-- A query that cannot be answered without a catalogue. -/
def Consults (limit : Int) : Query → Prop
  | .resolve name modifier _ => LooksUp limit name modifier
  | .expand text _ => ∃ mention ∈ mentionsIn text.toList, LooksUp limit mention.1 mention.2
  | .isDefined name => Builtin.ofName? name = none
  | .list | .repeated => True

end Query

namespace Engine

/-- The answer of an engine to a query, and the engine behind it. -/
def ask (engine : Engine) (disk : Disk) : Query → Report (Engine × Reply)
  | .resolve name modifier place => do
    let (after, outcome) ← engine.resolve disk (engine.request place) name modifier
    return (after, .resolved outcome)
  | .expand text place => do
    let (after, expanded) ← engine.expand disk text place
    return (after, .expanded expanded)
  | .isDefined name => do
    let (after, defined) ← engine.isDefined disk name
    return (after, .isDefined defined)
  | .list => do
    let (after, listing) ← engine.listVariables disk
    return (after, .listed listing)
  | .repeated => do
    let (after, names) ← engine.repeated disk
    return (after, .repeated names)

/-- The engine after an event; a fault leaves it as it was. -/
def after (engine : Engine) (disk : Disk) : Event → Engine
  | .invalidated => engine.invalidate
  | .refreshed =>
    match (engine.refresh disk).outcome with
    | .ok refreshed => refreshed
    | .error _ => engine
  | .asked query =>
    match (engine.ask disk query).outcome with
    | .ok (later, _) => later
    | .error _ => engine
  | edit =>
    match engine.library with
    | .opened documents => { engine with library := .opened (edit.edit documents) }
    | .onDisk _ => engine

theorem after_edit {event : Event} (isEdit : event.IsEdit) (engine : Engine) (disk : Disk) :
    engine.after disk event =
      match engine.library with
      | .opened documents => { engine with library := .opened (event.edit documents) }
      | .onDisk _ => engine := by
  cases isEdit <;> rfl

/-- The engine after a history that began without documents. -/
def past (settings : Settings) (patterns : List String) (disk : Disk) : List Event → Engine
  | [] => start settings (.opened { patterns })
  | event :: earlier => (past settings patterns disk earlier).after disk event

end Engine

/-! ## When a catalogue is read -/

/-- A report tells that a catalogue was read. -/
def TellsOfReading {α : Type} (report : Report α) : Prop :=
  ∃ sheets entries, Notice.refreshed sheets entries ∈ report.notes

/-- Nothing in the documents that are open after a history ends a refresh. -/
def AllReadable (patterns : List String) (history : List Event) : Prop :=
  ∀ uri standing, standing? uri history = some standing →
    Document.IsReadable patterns { uri, text := standing.text }

/-- A catalogue has to be read again: it was never read, or it was marked after that. -/
def IsOutdated : Option (List Event × List Event) → Prop
  | none => True
  | some (later, _) => .invalidated ∈ later

/-- An event that reads a catalogue, which may have to be read again. -/
def Event.Reads (limit : Int) (isOutdated : Prop) : Event → Prop
  | .refreshed => True
  | .asked query => query.Consults limit ∧ isOutdated
  | _ => False

open scoped Classical in
/-- The events behind and before the one that read the catalogue last, if it was ever read. -/
noncomputable def lastRead (settings : Settings) (patterns : List String) :
    List Event → Option (List Event × List Event)
  | [] => none
  | event :: earlier =>
    let last := lastRead settings patterns earlier
    if event.Reads settings.depthLimit (IsOutdated last) ∧ AllReadable patterns earlier then
      some ([], earlier)
    else last.map fun (later, before) => (event :: later, before)

/-- The catalogue has to be read again after a history. -/
def StaleAfter (settings : Settings) (patterns : List String) (history : List Event) : Prop :=
  IsOutdated (lastRead settings patterns history)

/-- An event reads the catalogue after a history, if it can be read. -/
def ReadsAfter (settings : Settings) (patterns : List String) (history : List Event) (event : Event) :
    Prop :=
  event.Reads settings.depthLimit (StaleAfter settings patterns history)

/-! ## Asking -/

variable {settings : Settings} {patterns : List String} {disk : Disk} {engine : Engine}
  {query : Query} {event : Event} {earlier history : List Event}

namespace Engine

/-- Whether an engine reads its catalogue again for a query if it is stale. -/
def needsCatalogue (engine : Engine) : Query → Bool
  | .resolve name modifier place => (engine.request place).needsCatalogue name modifier
  | .expand text place => (referencesToExpand text.toList).any fun reference =>
      (engine.request place).needsCatalogue reference.name reference.modifier
  | .isDefined name => (Builtin.ofName? name).isNone
  | .list | .repeated => true

theorem needsCatalogue_request_iff (engine : Engine) (place : Option Surroundings) (name : String)
    (modifier : Option String) : (engine.request place).needsCatalogue name modifier = true ↔
      Query.LooksUp engine.settings.depthLimit name modifier := by
  rw [Request.needsCatalogue_iff]
  constructor
  · rintro ⟨wellFormed, _, room, declared⟩
    exact ⟨wellFormed, declared, by simpa [Request.room, request] using room⟩
  · rintro ⟨wellFormed, declared, room⟩
    exact ⟨wellFormed, List.not_mem_nil, by simpa [Request.room, request] using room, declared⟩

theorem needsCatalogue_iff (engine : Engine) (query : Query) :
    engine.needsCatalogue query = true ↔ query.Consults engine.settings.depthLimit := by
  cases query with
  | resolve name modifier place => exact engine.needsCatalogue_request_iff place name modifier
  | expand text place =>
    rw [needsCatalogue, List.any_eq_true]
    constructor
    · rintro ⟨reference, member, needs⟩
      have mentioned := List.mem_map_of_mem (f := Reference.mention) member
      rw [map_mention_referencesToExpand, List.mem_reverse] at mentioned
      exact ⟨_, mentioned, (engine.needsCatalogue_request_iff place _ _).mp needs⟩
    · rintro ⟨mention, mentioned, looksUp⟩
      rw [← List.mem_reverse, ← map_mention_referencesToExpand] at mentioned
      obtain ⟨reference, member, rfl⟩ := List.mem_map.mp mentioned
      exact ⟨reference, member, (engine.needsCatalogue_request_iff place _ _).mpr looksUp⟩
  | isDefined name => exact Option.isNone_iff_eq_none
  | list => exact iff_of_true rfl trivial
  | repeated => exact iff_of_true rfl trivial

/-- A query is answered from the catalogue of the engine, which was read again before if it was needed
    and stale. -/
theorem ask_eq (engine : Engine) (disk : Disk) (query : Query) : engine.ask disk query =
    engine.prepare disk (engine.needsCatalogue query) >>= fun after =>
      ⟨query.notices engine.settings after.catalogue,
        .ok (after, query.reply engine.settings after.catalogue)⟩ := by
  cases query with
  | resolve name modifier place =>
    show engine.resolve disk (engine.request place) name modifier >>= _ = _
    rw [resolve_eq, bind_assoc]
    refine bind_congr fun after => ?_
    show Account.mk (noticesOf _ ++ []) _ = _
    rw [List.append_nil]
    rfl
  | expand text place =>
    show engine.expand disk text place >>= _ = _
    rw [expand, bind_assoc]
    refine bind_congr fun after => ?_
    show Account.mk ((List.flatMap _ _ ++ []) ++ []) _ = _
    rw [List.append_nil, List.append_nil]
    rfl
  | isDefined name =>
    show engine.isDefined disk name >>= _ = _
    rw [isDefined, needsCatalogue, prepare]
    -- A built-in name is answered without the catalogue.
    cases builtin : Builtin.ofName? name with
    | some known =>
      show pure (engine, Reply.isDefined true) = Account.mk [] (.ok (engine, _))
      rw [Query.reply, builtin]
      rfl
    | none =>
      show (engine.freshen disk >>= _) >>= _ = engine.freshen disk >>= _
      rw [bind_assoc]
      refine bind_congr fun after => ?_
      rw [Query.reply, builtin]
      rfl
  | list =>
    show engine.listVariables disk >>= _ = engine.freshen disk >>= _
    rw [listVariables, bind_assoc]
    rfl
  | repeated =>
    show engine.repeated disk >>= _ = engine.freshen disk >>= _
    rw [repeated, bind_assoc]
    rfl

theorem isResolved_of_mem_noticesOf {steps : List Resolution.Step} {notice : Notice}
    (member : notice ∈ noticesOf steps) : ∃ name sheet, notice = .resolved name sheet := by
  obtain ⟨step, _, isNotice⟩ := List.mem_filterMap.mp member
  split at isNotice
  · exact ⟨_, _, (Option.some.inj isNotice).symm⟩
  · cases isNotice

theorem isResolved_of_mem_notices {settings : Settings} {catalogue : Catalogue} {notice : Notice}
    (member : notice ∈ query.notices settings catalogue) :
    ∃ name sheet, notice = .resolved name sheet := by
  cases query with
  | resolve name modifier place => exact isResolved_of_mem_noticesOf member
  | expand text place =>
    obtain ⟨reference, _, isNotice⟩ := List.mem_flatMap.mp member
    exact isResolved_of_mem_noticesOf isNotice
  | isDefined | list | repeated => cases member

end Engine

/-! ## Reading -/

/-- The sheets among the documents that are open after a history. -/
def sheetsAfter (patterns : List String) (history : List Event) : List Sheet :=
  (documentsAfter patterns history).toList.filterMap (Document.sheet? patterns)

theorem allReadable_iff (patterns : List String) (history : List Event) :
    AllReadable patterns history ↔
      ∀ document ∈ (documentsAfter patterns history).toList, document.IsReadable patterns := by
  have areOpen := areOpen_documentsAfter patterns history
  constructor
  · intro readable document member
    obtain ⟨since, stands⟩ := areOpen.stand document member
    obtain ⟨host, text⟩ := readable document.uri _ stands
    exact ⟨host, text⟩
  · intro readable uri standing stands
    obtain ⟨document, member, rfl⟩ := areOpen.complete uri standing stands
    obtain ⟨since, same⟩ := areOpen.stand document member
    obtain ⟨host, text⟩ := readable document member
    rw [stands] at same
    obtain rfl := Option.some.inj same
    exact ⟨host, text⟩

/-- What holds of an engine after a history. -/
structure Engine.Caches (settings : Settings) (patterns : List String) (history : List Event)
    (engine : Engine) : Prop where
  governed : engine.settings = settings
  library : engine.library = .opened (documentsAfter patterns history)
  precedence : engine.catalogue.precedence = settings.precedence
  sheets : engine.catalogue.sheets =
    match lastRead settings patterns history with
    | none => []
    | some (_, before) => sheetsAfter patterns before
  isStale : engine.catalogue.isStale = true ↔
    StaleAfter settings patterns history

namespace Engine.Caches

theorem outcome_refresh_eq_ok_iff (caches : engine.Caches settings patterns history) (disk : Disk)
    {after : Engine} : (engine.refresh disk).outcome = .ok after ↔ AllReadable patterns history ∧
      after = { engine with catalogue := engine.catalogue.fill (sheetsAfter patterns history) } := by
  rw [allReadable_iff]
  have read := @Library.outcome_refresh_eq_ok_iff (documentsAfter patterns history) disk
    engine.catalogue
  rw [patterns_documentsAfter, ← caches.library] at read
  rw [Engine.refresh, Account.outcome_bind_eq_ok_iff]
  constructor
  · rintro ⟨catalogue, filled, ends⟩
    obtain ⟨readable, rfl⟩ := read.mp filled
    exact ⟨readable, (Except.ok.inj ends).symm⟩
  · rintro ⟨readable, rfl⟩
    exact ⟨_, read.mpr ⟨readable, rfl⟩, rfl⟩

/-! ### Queries -/

/-- A query that reads no catalogue is answered from the one there is. -/
theorem ask_of_not_reads (caches : engine.Caches settings patterns history)
    (query : Query) (disk : Disk) (readsNot : ¬ ReadsAfter settings patterns history (.asked query)) :
    engine.ask disk query = ⟨query.notices settings engine.catalogue,
      .ok (engine, query.reply settings engine.catalogue)⟩ := by
  have prepared : engine.prepare disk (engine.needsCatalogue query) = pure engine := by
    cases needs : engine.needsCatalogue query with
    | false => rfl
    | true =>
      have consults := (engine.needsCatalogue_iff query).mp needs
      rw [caches.governed] at consults
      have fresh : engine.catalogue.isStale = false := by
        rw [← Bool.not_eq_true, caches.isStale]
        exact fun outdated => readsNot ⟨consults, outdated⟩
      rw [Engine.prepare, if_pos rfl, Engine.freshen_of_fresh fresh]
  rw [Engine.ask_eq, prepared, caches.governed]
  rfl

/-- A query that reads the catalogue is answered from it if it can be read. -/
theorem ask_of_reads (caches : engine.Caches settings patterns history) (query : Query)
    (disk : Disk) (reads : ReadsAfter settings patterns history (.asked query)) :
    engine.ask disk query = engine.refresh disk >>= fun refreshed =>
      ⟨query.notices settings refreshed.catalogue,
        .ok (refreshed, query.reply settings refreshed.catalogue)⟩ := by
  obtain ⟨consults, outdated⟩ := reads
  rw [← caches.governed, ← Engine.needsCatalogue_iff] at consults
  rw [Engine.ask_eq, consults, Engine.prepare, if_pos rfl,
    Engine.freshen_of_stale (caches.isStale.mpr outdated), caches.governed]

/-! ### Events -/

theorem lastRead_of_reads (reads : ReadsAfter settings patterns earlier event)
    (readable : AllReadable patterns earlier) :
    lastRead settings patterns (event :: earlier) = some ([], earlier) :=
  if_pos ⟨reads, readable⟩

theorem lastRead_of_not
    (readsNot : ¬ (ReadsAfter settings patterns earlier event ∧ AllReadable patterns earlier)) :
    lastRead settings patterns (event :: earlier) =
      (lastRead settings patterns earlier).map fun (later, before) => (event :: later, before) :=
  if_neg readsNot

/-- An event that does not read the catalogue leaves its sheets as they are. -/
theorem of_not_reads (caches : engine.Caches settings patterns earlier) {later : Engine}
    (readsNot : ¬ (ReadsAfter settings patterns earlier event ∧ AllReadable patterns earlier))
    (governed : later.settings = engine.settings)
    (library : later.library = .opened (documentsAfter patterns (event :: earlier)))
    (precedence : later.catalogue.precedence = engine.catalogue.precedence)
    (sheets : later.catalogue.sheets = engine.catalogue.sheets)
    (isStale : later.catalogue.isStale = true ↔
      event = .invalidated ∨ engine.catalogue.isStale = true) :
    later.Caches settings patterns (event :: earlier) := by
  refine ⟨governed.trans caches.governed, library, precedence.trans caches.precedence, ?_, ?_⟩
  · rw [sheets, caches.sheets, lastRead_of_not readsNot]
    cases lastRead settings patterns earlier <;> rfl
  · rw [isStale, caches.isStale, StaleAfter, StaleAfter, lastRead_of_not readsNot]
    cases lastRead settings patterns earlier with
    | none => exact iff_of_true (.inr trivial) trivial
    | some last =>
      -- The mark behind the last reading is this event or was there before.
      show _ ↔ Event.invalidated ∈ event :: last.1
      rw [List.mem_cons, eq_comm]
      rfl

/-- An event that reads the catalogue fills it with the sheets that are open. -/
theorem of_reads (caches : engine.Caches settings patterns earlier)
    (reads : ReadsAfter settings patterns earlier event)
    (readable : AllReadable patterns earlier) :
    Engine.Caches settings patterns (event :: earlier)
      { engine with catalogue := engine.catalogue.fill (sheetsAfter patterns earlier) } := by
  refine ⟨caches.governed, ?_, caches.precedence, ?_, ?_⟩
  · have untouched : documentsAfter patterns (event :: earlier) = documentsAfter patterns earlier := by
      cases event with
      | refreshed | asked => rfl
      | _ => cases reads
    rw [untouched]
    exact caches.library
  · rw [lastRead_of_reads reads readable]
    rfl
  · rw [StaleAfter, lastRead_of_reads reads readable]
    exact ⟨fun stale => (by cases stale), fun outdated => absurd outdated List.not_mem_nil⟩

theorem of_edit (caches : engine.Caches settings patterns earlier) (isEdit : event.IsEdit) :
    Engine.Caches settings patterns (event :: earlier)
      { engine with library := .opened (documentsAfter patterns (event :: earlier)) } := by
  have readsNot : ¬ (ReadsAfter settings patterns earlier event ∧ AllReadable patterns earlier) := by
    rintro ⟨reads, _⟩
    cases isEdit <;> cases reads
  have isNoMark : event ≠ .invalidated := by
    cases isEdit <;> exact Event.noConfusion
  refine caches.of_not_reads readsNot rfl rfl rfl rfl ?_
  rw [or_iff_right isNoMark]

theorem of_mark (caches : engine.Caches settings patterns earlier) :
    engine.invalidate.Caches settings patterns (.invalidated :: earlier) := by
  refine caches.of_not_reads (fun both => both.1) rfl caches.library rfl rfl ?_
  exact iff_of_true rfl (.inl rfl)

/-- An event that is to read the catalogue reads it, or leaves the engine as it is. -/
theorem of_refresh (caches : engine.Caches settings patterns earlier)
    (untouched : documentsAfter patterns (event :: earlier) = documentsAfter patterns earlier)
    (isNoMark : event ≠ .invalidated)
    (reads : ReadsAfter settings patterns earlier event) :
    Engine.Caches settings patterns (event :: earlier)
      (match (engine.refresh disk).outcome with
        | .ok refreshed => refreshed
        | .error _ => engine) := by
  cases refreshed : (engine.refresh disk).outcome with
  | ok filled =>
    obtain ⟨readable, rfl⟩ := (caches.outcome_refresh_eq_ok_iff disk).mp refreshed
    exact caches.of_reads reads readable
  | error fault =>
    have unreadable : ¬ AllReadable patterns earlier := by
      intro readable
      rw [(caches.outcome_refresh_eq_ok_iff disk).mpr ⟨readable, rfl⟩] at refreshed
      cases refreshed
    refine caches.of_not_reads (fun both => unreadable both.2) rfl ?_ rfl rfl ?_
    · rw [untouched]
      exact caches.library
    · rw [or_iff_right isNoMark]

theorem after (caches : engine.Caches settings patterns earlier) (disk : Disk) (event : Event) :
    (engine.after disk event).Caches settings patterns (event :: earlier) := by
  have edited (isEdit : event.IsEdit) :
      (engine.after disk event).Caches settings patterns (event :: earlier) := by
    rw [Engine.after_edit isEdit, caches.library]
    exact caches.of_edit isEdit
  cases event with
  | opened uri text languageName version => exact edited (.opened ..)
  | updated uri text version => exact edited (.updated ..)
  | closed uri => exact edited (.closed uri)
  | invalidated => exact caches.of_mark
  | refreshed => exact caches.of_refresh rfl Event.noConfusion trivial
  | asked query =>
    by_cases reads : ReadsAfter settings patterns earlier (.asked query)
    · have refreshed := @of_refresh _ _ disk _ (.asked query) _ caches rfl Event.noConfusion reads
      show Engine.Caches _ _ _ (match (engine.ask disk query).outcome with
        | .ok (later, _) => later
        | .error _ => engine)
      rw [caches.ask_of_reads query disk reads, Account.outcome_bind]
      cases outcome : (engine.refresh disk).outcome <;> rwa [outcome] at refreshed
    · show Engine.Caches _ _ _ (match (engine.ask disk query).outcome with
        | .ok (later, _) => later
        | .error _ => engine)
      rw [caches.ask_of_not_reads query disk reads]
      refine caches.of_not_reads (fun both => reads both.1) rfl caches.library rfl rfl ?_
      rw [or_iff_right Event.noConfusion]

end Engine.Caches

namespace Engine

theorem caches_past (settings : Settings) (patterns : List String) (disk : Disk)
    (history : List Event) : (past settings patterns disk history).Caches settings patterns history := by
  induction history with
  | nil => exact ⟨rfl, rfl, rfl, rfl, iff_of_true rfl trivial⟩
  | cons event earlier ih => exact ih.after disk event

theorem catalogue_past_edits (settings : Settings) (patterns : List String) (disk : Disk)
    (history : List Event) {edits : List Event} (areEdits : ∀ edit ∈ edits, edit.IsEdit) :
    (past settings patterns disk (edits ++ history)).catalogue =
      (past settings patterns disk history).catalogue := by
  induction edits with
  | nil => rfl
  | cons edit edits ih =>
    obtain ⟨isEdit, areEdits⟩ := List.forall_mem_cons.mp areEdits
    rw [List.cons_append, past, after_edit isEdit, ← ih areEdits,
      (caches_past settings patterns disk (edits ++ history)).library]

/-- What holds of an engine after any history: of its documents, of its catalogue and of its answers. -/
structure IsCache (settings : Settings) (patterns : List String) (disk : Disk)
    (history : List Event) : Prop where
  documents : ∃ documents, (past settings patterns disk history).library = .opened documents ∧
    documents.patterns = patterns ∧ AreOpen history documents.toList
  precedence : (past settings patterns disk history).catalogue.precedence = settings.precedence
  /-- The sheets are those among the documents that were open when they were read last. -/
  sheets : match lastRead settings patterns history with
    | none => (past settings patterns disk history).catalogue.sheets = []
    | some (_, before) => ∃ documents, AreOpen before documents ∧
        (past settings patterns disk history).catalogue.sheets =
          documents.filterMap (Document.sheet? patterns)
  isStale : (past settings patterns disk history).catalogue.isStale = true ↔
    StaleAfter settings patterns history
  /-- A query that does not read the sheets again is answered from those that there are. -/
  kept : ∀ query : Query, ¬ ReadsAfter settings patterns history (.asked query) →
    let engine := past settings patterns disk history
    (engine.ask disk query).outcome = .ok (engine, query.reply settings engine.catalogue) ∧
      ¬ TellsOfReading (engine.ask disk query)
  /-- One that does is answered from the documents that are open, or fails if they cannot be read. -/
  read : ∀ query : Query, ReadsAfter settings patterns history (.asked query) →
    let engine := past settings patterns disk history
    (AllReadable patterns history → TellsOfReading (engine.ask disk query) ∧
      ∃ documents, AreOpen history documents ∧
        let filled := engine.catalogue.fill (documents.filterMap (Document.sheet? patterns))
        (engine.ask disk query).outcome =
          .ok ({ engine with catalogue := filled }, query.reply settings filled)) ∧
    (¬ AllReadable patterns history → ∃ fault, (engine.ask disk query).outcome = .error fault)
  /-- While the catalogue is not stale, edits change no answer. -/
  edits : ¬ StaleAfter settings patterns history →
    ∀ edits, (∀ edit ∈ edits, Event.IsEdit edit) → ∀ query,
      ((past settings patterns disk (edits ++ history)).ask disk query).outcome.map Prod.snd =
        ((past settings patterns disk history).ask disk query).outcome.map Prod.snd

/-- The catalogue of an engine over open documents is a cache of the sheets among them, whatever is
    done with the engine, in whatever order. -/
theorem isCache_past (settings : Settings) (patterns : List String) (disk : Disk)
    (history : List Event) : IsCache settings patterns disk history := by
  have caches := caches_past settings patterns disk history
  constructor
  case documents =>
    exact ⟨_, caches.library, patterns_documentsAfter patterns history,
      areOpen_documentsAfter patterns history⟩
  case precedence => exact caches.precedence
  case sheets =>
    have sheets := caches.sheets
    split
    next never =>
      rw [never] at sheets
      exact sheets
    next later before last =>
      rw [last] at sheets
      exact ⟨_, areOpen_documentsAfter patterns before, sheets⟩
  case isStale => exact caches.isStale
  case kept =>
    intro query readsNot engine
    rw [caches.ask_of_not_reads query disk readsNot]
    refine ⟨rfl, ?_⟩
    rintro ⟨sheets, entries, member⟩
    obtain ⟨name, sheet, isResolved⟩ := isResolved_of_mem_notices member
    cases isResolved
  case read =>
    intro query reads engine
    rw [caches.ask_of_reads query disk reads, Account.outcome_bind]
    constructor
    · intro readable
      have refreshed := (caches.outcome_refresh_eq_ok_iff disk).mpr ⟨readable, rfl⟩
      obtain ⟨_, notices, told⟩ := exists_fill_of_refresh refreshed
      constructor
      · rw [TellsOfReading, Account.notes_bind_ok refreshed, told]
        exact ⟨_, _, List.mem_append_left _ (List.mem_append_right _
          (List.mem_append_right _ (List.mem_singleton_self _)))⟩
      · refine ⟨_, areOpen_documentsAfter patterns history, ?_⟩
        rw [refreshed]
        rfl
    · intro unreadable
      cases refreshed : (engine.refresh disk).outcome with
      | error fault => exact ⟨fault, rfl⟩
      | ok filled => exact absurd ((caches.outcome_refresh_eq_ok_iff disk).mp refreshed).1 unreadable
  case edits =>
    intro current edits areEdits query
    have later := caches_past settings patterns disk (edits ++ history)
    have same := catalogue_past_edits settings patterns disk history areEdits
    -- Whether the catalogue is stale stands in the catalogue, which edits leave alone.
    have stillCurrent : ¬ StaleAfter settings patterns (edits ++ history) := by
      rw [← later.isStale, same, caches.isStale]
      exact current
    rw [caches.ask_of_not_reads query disk fun reads => current reads.2,
      later.ask_of_not_reads query disk fun reads => stillCurrent reads.2, same]
    rfl

end Engine

end Marginalia
