import Marginalia.Proofs.Annotation.Mentions
import Marginalia.Proofs.Annotation.Outcome
import Marginalia.Proofs.Document.Location
import Marginalia.Proofs.Engine.Stack
import Marginalia.Proofs.Variable.Around
import Marginalia.Proofs.Variable.Verdict

/-!
# Diagnostics of references

The check of a document reports the references in the values of its annotations that cannot be
resolved.  It reads them from the values as they are written and resolves each of them at its own
place, while an expansion reads the values as they are used, at whatever place.  Both agree on which
references fail and why.
-/

namespace Marginalia

namespace Engine

variable {stack : Nat} {engine after : Engine} {disk : Disk}

/-! ## Prepared engines -/

/-- An expansion on a stack ends with a text. -/
def Expands (stack : Nat) (engine : Engine) (disk : Disk) (place : Option Surroundings)
    (text expanded : String) : Prop :=
  ∃ later, (engine.expandOn stack disk text place).outcome = .ok (later, .ok expanded)

/-- The resolution of a reference on a stack ends with an outcome. -/
def Resolves (stack : Nat) (engine : Engine) (disk : Disk) (place : Option Surroundings)
    (reference : Reference) (outcome : Except Failure Resolved) : Prop :=
  ∃ later, (engine.resolveOn stack disk (engine.request place) reference.name
    reference.modifier).outcome = .ok (later, .ok outcome)

/-- Whether a reference cannot be resolved without a catalogue. -/
def consults (engine : Engine) (name : String) (modifier : Option String) : Bool :=
  (engine.request none).needsCatalogue name modifier

/-- The stack has room for the names that are opened for a reference with the declarations of a
    catalogue. -/
def HasRoom (stack : Nat) (engine : Engine) (catalogue : Catalogue)
    (mention : String × Option String) : Prop :=
  ((engine.request none).resolution catalogue mention.1 mention.2).Fits stack

instance (catalogue : Catalogue) (mention : String × Option String) :
    Decidable (engine.HasRoom stack catalogue mention) :=
  inferInstanceAs (Decidable (Resolution.Fits _ _))

/-- Whether there is room does not depend on the place of a reference. -/
theorem hasRoom_iff (place : Option Surroundings) (catalogue : Catalogue) (name : String)
    (modifier : Option String) :
    engine.HasRoom stack catalogue (name, modifier) ↔
      ((engine.request place).resolution catalogue name modifier).Fits stack :=
  ((engine.request none).fits_resolution place catalogue name modifier stack).symm

theorem hasRoom_of_limit (bounded : engine.settings.depthLimit ≤ stack) (catalogue : Catalogue)
    (mention : String × Option String) : engine.HasRoom stack catalogue mention := by
  refine (engine.request none).fits_of_room catalogue mention.1 mention.2 ?_
  simp only [Request.room, Engine.request, List.length_nil]
  omega

theorem hasRoom_of_settings (same : after.settings = engine.settings) {catalogue : Catalogue}
    {mention : String × Option String} :
    after.HasRoom stack catalogue mention ↔ engine.HasRoom stack catalogue mention := by
  rw [HasRoom, HasRoom, request, request, same]

/-- A reference that can be resolved without a catalogue opens no name. -/
theorem hasRoom_of_not_consulted {mention : String × Option String}
    (unneeded : engine.consults mention.1 mention.2 = false) (catalogue : Catalogue) :
    engine.HasRoom stack catalogue mention := by
  obtain ⟨outcome, same⟩ := Request.resolution_of_not_needed unneeded
  rw [HasRoom, same]
  rfl

theorem isFresh_of_prepare {isNeeded : Bool}
    (prepared : (engine.prepare disk isNeeded).outcome = .ok after) :
    after.settings = engine.settings ∧ (isNeeded = true → after.catalogue.isStale = false) := by
  cases isNeeded with
  | false =>
    cases prepared
    exact ⟨rfl, nofun⟩
  | true =>
    obtain ⟨fresh, settings⟩ := isFresh_of_freshen prepared
    exact ⟨settings, fun _ => fresh⟩

/-- To prepare an engine once more changes nothing. -/
theorem prepare_of_prepare {isNeeded : Bool}
    (prepared : (engine.prepare disk isNeeded).outcome = .ok after) :
    (after.prepare disk isNeeded).outcome = .ok after := by
  cases isNeeded with
  | false => rfl
  | true => rw [prepare_of_fresh ((isFresh_of_prepare prepared).2 rfl)]; rfl

/-- What an engine has to have for a reference once it is prepared: the catalogue, if it has to be asked,
    and a stack with room. -/
structure Covers (stack : Nat) (engine : Engine) (isNeeded : Bool) (catalogue : Catalogue)
    (mention : String × Option String) : Prop where
  consulted : engine.consults mention.1 mention.2 = true → isNeeded = true
  room : engine.HasRoom stack catalogue mention

/-- An engine that is prepared for a reference resolves it with the catalogue that it has then. -/
theorem resolves_of_consults {reference : Reference}
    (prepared : (engine.prepare disk (engine.consults reference.name reference.modifier)).outcome = .ok after)
    (room : engine.HasRoom stack after.catalogue reference.mention) (place : Option Surroundings) :
    engine.Resolves stack disk place reference ((engine.request place).resolve after.catalogue
      reference.name reference.modifier) := by
  have fits := (hasRoom_iff place _ _ _).mp room
  have resolved := Request.resolveOn_eq_ok_iff.mpr ⟨fits, rfl⟩
  have ends := @outcome_resolveOn_of_prepare stack _ _ _ (engine.request place) _ _ prepared
  rw [resolved] at ends
  exact ⟨after, ends⟩

/-- So does one that is prepared for more. -/
theorem resolves_of_prepare {isNeeded : Bool}
    (prepared : (engine.prepare disk isNeeded).outcome = .ok after) {reference : Reference}
    (covers : engine.Covers stack isNeeded after.catalogue reference.mention)
    (place : Option Surroundings) :
    engine.Resolves stack disk place reference ((engine.request place).resolve after.catalogue
      reference.name reference.modifier) := by
  cases needed : engine.consults reference.name reference.modifier with
  | true =>
    rw [covers.consulted needed, ← needed] at prepared
    exact resolves_of_consults prepared covers.room place
  | false =>
    have unprepared : (engine.prepare disk (engine.consults reference.name reference.modifier)).outcome =
        .ok engine := by
      rw [needed]
      rfl
    have room := @hasRoom_of_not_consulted stack engine reference.mention needed engine.catalogue
    have resolves := resolves_of_consults unprepared room place
    have unneeded : (engine.request place).needsCatalogue reference.name reference.modifier = false :=
      needed
    rwa [Request.resolve_of_not_needed unneeded engine.catalogue after.catalogue] at resolves

/-- Whether a reference of a text cannot be resolved without a catalogue. -/
def consultsIn (engine : Engine) (text : String) : Bool :=
  (referencesToExpand text.toList).any fun reference => engine.consults reference.name reference.modifier

theorem consultsIn_iff {text : String} : engine.consultsIn text = true ↔
    ∃ mention ∈ mentionsIn text.toList, engine.consults mention.1 mention.2 = true := by
  rw [consultsIn, List.any_eq_true]
  simp only [← @List.mem_reverse _ _ (mentionsIn _), ← map_mention_referencesToExpand, List.mem_map,
    exists_exists_and_eq_and]
  rfl

theorem expands_of_consultsIn {text : String}
    (prepared : (engine.prepare disk (engine.consultsIn text)).outcome = .ok after)
    (room : ∀ mention ∈ mentionsIn text.toList, engine.HasRoom stack after.catalogue mention)
    (place : Option Surroundings) :
    engine.Expands stack disk place text ((engine.request place).expand after.catalogue text) := by
  have fits : ∀ reference ∈ referencesToExpand text.toList, ((engine.request place).resolution
      after.catalogue reference.name reference.modifier).Fits stack := by
    intro reference member
    refine (hasRoom_iff place _ _ _).mp (room reference.mention ?_)
    rw [← List.mem_reverse, ← map_mention_referencesToExpand]
    exact List.mem_map_of_mem member
  have ends := @outcome_expandOn_of_prepare stack _ _ _ text place prepared
  rw [if_pos fits] at ends
  exact ⟨after, ends⟩

theorem expands_of_prepare {isNeeded : Bool}
    (prepared : (engine.prepare disk isNeeded).outcome = .ok after) {text : String}
    (covered : ∀ mention ∈ mentionsIn text.toList, engine.Covers stack isNeeded after.catalogue mention)
    (place : Option Surroundings) :
    engine.Expands stack disk place text ((engine.request place).expand after.catalogue text) := by
  cases consulted : engine.consultsIn text with
  | true =>
    obtain ⟨mention, member, needed⟩ := consultsIn_iff.mp consulted
    rw [(covered mention member).consulted needed, ← consulted] at prepared
    exact expands_of_consultsIn prepared (fun mention member => (covered mention member).room) place
  | false =>
    have unneeded : ∀ mention ∈ mentionsIn text.toList, engine.consults mention.1 mention.2 = false := by
      intro mention member
      by_contra needed
      rw [consultsIn_iff.mpr ⟨mention, member, eq_true_of_ne_false needed⟩] at consulted
      cases consulted
    have unprepared : (engine.prepare disk (engine.consultsIn text)).outcome = .ok engine := by
      rw [consulted]
      rfl
    have expands := @expands_of_consultsIn stack _ _ _ _ unprepared
      (fun mention member => hasRoom_of_not_consulted (unneeded mention member) _) place
    rwa [@Request.expand_of_not_needed (engine.request place) text unneeded engine.catalogue
      after.catalogue] at expands

/-! ## The check of references -/

/-- The failure of a reference with the declarations of a catalogue, if it fails. -/
def problem? (engine : Engine) (catalogue : Catalogue) (reference : Reference) : Option Failure :=
  failure? ((engine.request none).resolve catalogue reference.name reference.modifier)

theorem problem?_of_settings (same : after.settings = engine.settings) :
    after.problem? = engine.problem? := by
  funext catalogue reference
  rw [problem?, problem?, request, request, same]

theorem failure?_resolve_request (place : Option Surroundings) (catalogue : Catalogue)
    (reference : Reference) :
    failure? ((engine.request place).resolve catalogue reference.name reference.modifier) =
      engine.problem? catalogue reference :=
  (engine.request none).failure?_resolve place catalogue reference.name reference.modifier

/-- The diagnostic that a reference cannot be resolved. -/
def unresolved (reference : Reference) (failure : Failure) : Diagnostic :=
  ⟨.unresolved failure.message, reference.range⟩

/-- The diagnostics of the references that fail, each with its failure. -/
def unresolvedAmong (failureOf : Reference → Option Failure) (references : List Reference) :
    List Diagnostic :=
  references.filterMap fun reference => (failureOf reference).map (unresolved reference)

theorem outcome_checkReferences_cons (stack : Nat) (engine : Engine) (disk : Disk)
    (placeOf : Int → Surroundings) (reference : Reference) (rest : List Reference) :
    (checkReferences stack disk placeOf engine (reference :: rest)).outcome =
      (engine.resolveOn stack disk (engine.request (some (placeOf reference.range.start)))
          reference.name reference.modifier).outcome.bind fun (ready, run) =>
        match run with
        | .error fault => .ok (ready, .error fault)
        | .ok outcome =>
          (checkReferences stack disk placeOf ready rest).outcome.map fun (after, others) =>
            (after, others.map (((failure? outcome).map (unresolved reference)).toList ++ ·)) := by
  rw [checkReferences, Account.outcome_bind]
  refine bind_congr ?_
  rintro ⟨ready, run⟩
  cases run with
  | error fault => rfl
  | ok outcome =>
    cases outcome with
    | error failure =>
      show (checkReferences stack disk placeOf ready rest >>= _).outcome = _
      rw [Account.outcome_bind]
      dsimp only
      cases (checkReferences stack disk placeOf ready rest).outcome <;> rfl
    | ok resolved =>
      show (checkReferences stack disk placeOf ready rest).outcome = _
      dsimp only
      rcases (checkReferences stack disk placeOf ready rest).outcome with fault | ⟨after, fault | others⟩ <;>
        rfl

/-- What a check reports of some references with the declarations of a catalogue: those that fail, if the
    stack has room for all of them. -/
def checkAgainst (stack : Nat) (engine : Engine) (catalogue : Catalogue) (references : List Reference) :
    Except Fault (List Diagnostic) :=
  if ∀ reference ∈ references, engine.HasRoom stack catalogue reference.mention then
    .ok (unresolvedAmong (engine.problem? catalogue) references)
  else .error .stackFull

theorem checkAgainst_of_settings (same : after.settings = engine.settings) (catalogue : Catalogue)
    (references : List Reference) :
    after.checkAgainst stack catalogue references = engine.checkAgainst stack catalogue references := by
  simp only [checkAgainst, hasRoom_of_settings same, problem?_of_settings same]

theorem checkAgainst_cons (place : Option Surroundings) (catalogue : Catalogue) (reference : Reference)
    (rest : List Reference) :
    engine.checkAgainst stack catalogue (reference :: rest) =
      ((engine.request place).resolveOn stack catalogue reference.name reference.modifier).bind
        fun outcome => (engine.checkAgainst stack catalogue rest).map
          (((failure? outcome).map (unresolved reference)).toList ++ ·) := by
  have room_iff := @hasRoom_iff stack engine place catalogue reference.name reference.modifier
  by_cases room : engine.HasRoom stack catalogue reference.mention
  · rw [Request.resolveOn_eq_ok_iff.mpr ⟨room_iff.mp room, rfl⟩, Except.bind]
    rw [failure?_resolve_request, checkAgainst, checkAgainst]
    simp only [List.forall_mem_cons, room, true_and]
    split
    · rw [unresolvedAmong, List.filterMap_cons]
      cases engine.problem? catalogue reference <;> rfl
    · rfl
  · rw [Request.resolveOn_eq_error_iff.mpr ⟨fun fits => room (room_iff.mpr fits), rfl⟩, Except.bind]
    exact if_neg fun all => room (all reference List.mem_cons_self)

/-- The check of references prepares the engine if any of them asks for it, and reports on all of them
    with the catalogue that it has then. -/
theorem outcome_checkReferences (stack : Nat) (engine : Engine) (disk : Disk)
    (placeOf : Int → Surroundings) (references : List Reference) :
    (checkReferences stack disk placeOf engine references).outcome =
      (engine.prepare disk (references.any fun reference =>
        engine.consults reference.name reference.modifier)).outcome.map fun after =>
          (after, engine.checkAgainst stack after.catalogue references) := by
  induction references generalizing engine with
  | nil => rfl
  | cons reference rest ih =>
    let place := some (placeOf reference.range.start)
    rw [outcome_checkReferences_cons, List.any_cons]
    cases needed : engine.consults reference.name reference.modifier with
    | true =>
      have consulted : (engine.request place).needsCatalogue reference.name reference.modifier = true :=
        needed
      rw [Bool.true_or, prepare, if_pos rfl]
      cases ready : (engine.freshen disk).outcome with
      | error fault =>
        rw [resolveOn, Account.outcome_bind, prepare, if_pos consulted, ready]
        rfl
      | ok fresh =>
        -- The engine is fresh from here on, so nothing further prepares it.
        obtain ⟨isFresh, settings⟩ := isFresh_of_freshen ready
        have same := @checkAgainst_of_settings stack engine fresh settings fresh.catalogue rest
        have prepared : (engine.prepare disk ((engine.request place).needsCatalogue reference.name
            reference.modifier)).outcome = .ok fresh := by
          rw [consulted]
          exact ready
        rw [outcome_resolveOn_of_prepare prepared]
        simp only [Except.bind, Except.map, checkAgainst_cons place]
        cases (engine.request place).resolveOn stack fresh.catalogue reference.name reference.modifier with
        | error fault => rfl
        | ok outcome =>
          dsimp only
          rw [ih, prepare_of_fresh isFresh, ← same]
          rfl
    | false =>
      have unneeded : (engine.request place).needsCatalogue reference.name reference.modifier = false :=
        needed
      obtain ⟨outcome, same⟩ := Request.resolution_of_not_needed unneeded
      have resolved (catalogue : Catalogue) : (engine.request place).resolveOn stack catalogue
          reference.name reference.modifier = .ok outcome := by
        rw [Request.resolveOn, same]
        rfl
      have unprepared : (engine.prepare disk ((engine.request place).needsCatalogue reference.name
          reference.modifier)).outcome = .ok engine := by
        rw [unneeded]
        rfl
      rw [outcome_resolveOn_of_prepare unprepared, resolved, Bool.false_or]
      simp only [Except.bind, checkAgainst_cons place, resolved, ih]
      cases (engine.prepare disk (rest.any fun reference =>
        engine.consults reference.name reference.modifier)).outcome <;> rfl

/-! ## The document -/

variable {uri text : String}

theorem outcome_ofHost_bind {α β : Type} (outcome : Except HostFlaw α) (next : α → Report β) :
    (Report.ofHost outcome >>= next).outcome =
      (outcome.mapError Fault.host).bind fun result => (next result).outcome := by
  cases outcome <;> rfl

/-- The name of the language of a document: the one it was opened with, or that of its ending. -/
def languageName? (engine : Engine) (uri : String) : Except HostFlaw (Option String) :=
  (engine.library.languageName? uri).bind fun known =>
    match nonempty? known with
    | some name => .ok (some name)
    | none => Uri.languageName? uri

theorem outcome_parseDocument
    (known : (engine.library.textOf? disk uri).outcome = .ok (some text)) :
    (engine.parseDocument disk uri).outcome =
      ((engine.languageName? uri).mapError Fault.host).map fun languageName =>
        languageName.map fun name => Findings.ofText engine.rules name text.toList := by
  rw [parseDocument, Account.outcome_bind, known, languageName?]
  show (Report.ofHost (engine.library.languageName? uri) >>= _).outcome = _
  rw [outcome_ofHost_bind]
  cases engine.library.languageName? uri with
  | error flaw => rfl
  | ok spoken =>
    simp only [Except.mapError, Except.bind]
    cases nonempty? spoken with
    | some name => rfl
    | none => cases Uri.languageName? uri <;> rfl

theorem languageName?_of_path {path : String} (hosted : Uri.path uri = .ok path) :
    ∃ languageName, engine.languageName? uri = .ok languageName := by
  have byEnding := Uri.exists_languageName? hosted
  have spoken : ∃ known, engine.library.languageName? uri = .ok known := by
    cases engine.library with
    | opened documents => exact ⟨_, rfl⟩
    | onDisk workspace => exact byEnding
  obtain ⟨known, isKnown⟩ := spoken
  rw [languageName?, isKnown, Except.bind]
  cases nonempty? known with
  | some name => exact ⟨_, rfl⟩
  | none => exact byEnding

/-- Where no language is known of a document, its URI was looked at. -/
theorem path_of_languageName? (nothing : engine.languageName? uri = .ok none) :
    ∃ path, Uri.path uri = .ok path := by
  rw [languageName?] at nothing
  cases spoken : engine.library.languageName? uri with
  | error flaw =>
    rw [spoken] at nothing
    cases nothing
  | ok known =>
    rw [spoken, Except.bind] at nothing
    cases hosted : Uri.path uri with
    | ok path => exact ⟨path, rfl⟩
    | error flaw =>
      have unknown : Uri.languageName? uri = .error flaw := by
        rw [Uri.languageName?, hosted]
        rfl
      rw [unknown] at nothing
      cases named : nonempty? known with
      | some name => simp [named] at nothing
      | none => simp [named] at nothing

theorem path_of_parseDocument (known : (engine.library.textOf? disk uri).outcome = .ok (some text))
    (nothing : (engine.parseDocument disk uri).outcome = .ok none) :
    ∃ path, Uri.path uri = .ok path := by
  rw [outcome_parseDocument known] at nothing
  cases spoken : engine.languageName? uri with
  | error flaw =>
    rw [spoken] at nothing
    cases nothing
  | ok languageName =>
    cases languageName with
    | none => exact path_of_languageName? spoken
    | some name =>
      rw [spoken] at nothing
      cases nothing

/-- The annotations of a document, if its language is known. -/
def annotationsOf (findings : Option Findings) : List Annotation :=
  (findings.map Findings.annotations).getD []

/-- Whether a reference of some annotations cannot be resolved without a catalogue. -/
def consultsFor (engine : Engine) (annotations : List Annotation) : Bool :=
  (annotations.flatMap Annotation.references).any fun reference =>
    engine.consults reference.name reference.modifier

theorem consultsFor_iff {annotations : List Annotation} :
    engine.consultsFor annotations = true ↔ ∃ note ∈ annotations, ∃ reference ∈ note.references,
      engine.consults reference.name reference.modifier = true := by
  simp only [consultsFor, List.any_eq_true, List.mem_flatMap]
  constructor
  · rintro ⟨reference, ⟨note, noteMember, member⟩, consulted⟩
    exact ⟨note, noteMember, reference, member, consulted⟩
  · rintro ⟨note, noteMember, reference, member, consulted⟩
    exact ⟨reference, ⟨note, noteMember, member⟩, consulted⟩

/-- What a check of a document ends with: it has to find the path of the document, even where it has
    nothing to check, and checks the references of the annotations then. -/
theorem outcome_variableDiagnostics_eq_ok_iff
    (known : (engine.library.textOf? disk uri).outcome = .ok (some text))
    {run : Except Fault (List Diagnostic)} :
    (engine.variableDiagnostics stack disk uri).outcome = .ok (after, run) ↔
      (∃ path, Uri.path uri = .ok path) ∧
        ∃ findings, (engine.parseDocument disk uri).outcome = .ok findings ∧
          (engine.prepare disk (engine.consultsFor (annotationsOf findings))).outcome = .ok after ∧
          run = engine.checkAgainst stack after.catalogue
            ((annotationsOf findings).flatMap Annotation.references) := by
  have checks (placeOf : Int → Surroundings) (references : List Reference) :
      (checkReferences stack disk placeOf engine references).outcome = .ok (after, run) ↔
        (engine.prepare disk (references.any fun reference =>
          engine.consults reference.name reference.modifier)).outcome = .ok after ∧
        run = engine.checkAgainst stack after.catalogue references := by
    rw [outcome_checkReferences]
    cases (engine.prepare disk (references.any fun reference =>
      engine.consults reference.name reference.modifier)).outcome with
    | error fault => simp [Except.map]
    | ok ready =>
      simp only [Except.map, Except.ok.injEq, Prod.mk.injEq]
      constructor
      · rintro ⟨rfl, rfl⟩
        exact ⟨rfl, rfl⟩
      · rintro ⟨rfl, rfl⟩
        exact ⟨rfl, rfl⟩
  rw [variableDiagnostics, Account.outcome_bind_eq_ok_iff]
  constructor
  · rintro ⟨findings, parsed, ends⟩
    cases findings with
    | none =>
      cases ends
      exact ⟨path_of_parseDocument known parsed, none, parsed, rfl, rfl⟩
    | some findings =>
      obtain ⟨again, isAgain, ends⟩ := Account.outcome_bind_eq_ok_iff.mp ends
      obtain ⟨path, hosted, ends⟩ := Account.outcome_bind_eq_ok_iff.mp ends
      exact ⟨⟨path, Report.outcome_ofHost_eq_ok_iff.mp hosted⟩, some findings, parsed, (checks _ _).mp ends⟩
  · rintro ⟨⟨path, hosted⟩, findings, parsed, ready⟩
    refine ⟨findings, parsed, ?_⟩
    cases findings with
    | none =>
      obtain ⟨prepared, rfl⟩ := ready
      cases prepared
      rfl
    | some findings =>
      refine Account.outcome_bind_eq_ok_iff.mpr ⟨some text, known, ?_⟩
      refine Account.outcome_bind_eq_ok_iff.mpr ⟨path, Report.outcome_ofHost_eq_ok_iff.mpr hosted, ?_⟩
      exact (checks _ _).mpr ready

/-! ## Agreement -/

/-- The failure of a reference stands in what a text with the reference is expanded to, between the
    expansions of the text in front of it and behind it. -/
structure ShowsFailure (stack : Nat) (engine : Engine) (disk : Disk) (place : Option Surroundings)
    (text : String) (reference : Reference) (failure : Failure) : Prop where
  resolves : engine.Resolves stack disk place reference (.error failure)
  expands : ∃ front back expandedFront expandedBack,
    reference.StandsBetween front back text.toList ∧
    engine.Expands stack disk place (String.ofList front) expandedFront ∧
    engine.Expands stack disk place (String.ofList back) expandedBack ∧
    engine.Expands stack disk place text
      (expandedFront ++ ("[ERROR: " ++ failure.message ++ "]") ++ expandedBack)

/-- What a reference comes to is put in between what the text in front of it and behind it is filled in
    to; doubled dollar signs are shown in the end. -/
structure ShowsVariable (stack : Nat) (engine : Engine) (disk : Disk) (place : Option Surroundings)
    (text : String) (reference : Reference) (resolved : Resolved) : Prop where
  resolves : engine.Resolves stack disk place reference (.ok resolved)
  expands : ∃ front back filledFront filledBack,
    reference.StandsBetween front back text.toList ∧
    engine.Expands stack disk place (String.ofList front) (String.ofList (showEscapes filledFront)) ∧
    engine.Expands stack disk place (String.ofList back) (String.ofList (showEscapes filledBack)) ∧
    engine.Expands stack disk place text (String.ofList (showEscapes
      (filledFront ++ (resolved.rendered.toList ++ filledBack))))

/-- A reference that is kept for an annotation, and one that is read in the value: they are the same,
    the document has it in its range, and at every place the value is expanded as the failure says. -/
structure Agrees (stack : Nat) (engine : Engine) (disk : Disk) (document : List Char) (value : String)
    (failureOf : Reference → Option Failure) (kept used : Reference) : Prop where
  mention : kept.mention = used.mention
  raw : kept.raw = used.raw
  slice : kept.range.slice document = kept.raw.toList
  failure : ∀ failure, failureOf kept = some failure →
    ∀ place, engine.ShowsFailure stack disk place value used failure
  resolved : failureOf kept = none →
    ∀ place, ∃ resolved, engine.ShowsVariable stack disk place value used resolved

/-- The diagnostics are those of the references of some annotations that fail, in order, and an engine
    expands the values of the annotations accordingly. -/
structure IsCheck (stack : Nat) (engine : Engine) (disk : Disk) (document : List Char)
    (annotations : List Annotation) (diagnostics : List Diagnostic)
    (failureOf : Reference → Option Failure) : Prop where
  reports : diagnostics = unresolvedAmong failureOf (annotations.flatMap Annotation.references)
  warns : ∀ diagnostic ∈ diagnostics, diagnostic.flaw.severity = .warning
  valueless : ∀ note ∈ annotations, note.value = none → note.references = []
  valued : ∀ note ∈ annotations, ∀ value, note.value = some value →
    List.Forall₂ (engine.Agrees stack disk document value failureOf) note.references
      (referencesIn value.toList)

section

variable {isNeeded : Bool} (prepared : (engine.prepare disk isNeeded).outcome = .ok after)
  (covered : ∀ mention ∈ mentionsIn text.toList, engine.Covers stack isNeeded after.catalogue mention)
  {reference : Reference} (member : reference ∈ referencesIn text.toList)
include prepared covered member

/-- What a reference fails with stands in the expansion, and what it comes to otherwise. -/
theorem shows_of_prepare (place : Option Surroundings) :
    (∀ failure, engine.problem? after.catalogue reference = some failure →
      engine.ShowsFailure stack disk place text reference failure) ∧
    (engine.problem? after.catalogue reference = none →
      ∃ resolved, engine.ShowsVariable stack disk place text reference resolved) := by
  obtain ⟨front, back, between, mentions, around⟩ := exists_expand_around member
  obtain ⟨marked, filled⟩ := around (engine.request place) after.catalogue
  have whole := expands_of_prepare prepared covered place
  rw [mentions, List.forall_mem_append, List.forall_mem_cons] at covered
  have resolves := resolves_of_prepare prepared covered.2.1 place
  have inFront := @expands_of_prepare _ _ _ _ _ prepared (String.ofList front)
    (by rw [String.toList_ofList]; exact covered.1) place
  have behind := @expands_of_prepare _ _ _ _ _ prepared (String.ofList back)
    (by rw [String.toList_ofList]; exact covered.2.2) place
  rw [← failure?_resolve_request place]
  constructor
  · intro failure fails
    have refused := failure?_eq_some_iff.mp fails
    rw [marked failure refused] at whole
    exact ⟨refused ▸ resolves, front, back, _, _, between, inFront, behind, whole⟩
  · intro succeeds
    obtain ⟨resolved, found⟩ := failure?_eq_none_iff.mp succeeds
    obtain ⟨filledFront, filledBack, frontShown, backShown, shown⟩ := filled resolved found
    rw [shown] at whole
    exact ⟨resolved, found ▸ resolves, front, back, filledFront, filledBack, between,
      frontShown ▸ inFront, backShown ▸ behind, whole⟩

end

theorem forall₂_of_map_eq {α β γ : Type} {front : List α} {back : List β} {f : α → γ} {g : β → γ}
    (same : front.map f = back.map g) :
    List.Forall₂ (fun a b => a ∈ front ∧ b ∈ back ∧ f a = g b) front back := by
  have pairs : List.Forall₂ (fun a b => f a = g b) front back :=
    List.forall₂_map_left_iff.mp (List.forall₂_map_right_iff.mp (same ▸ List.forall₂_refl _))
  have behind := (List.forall₂_and_left back front).mpr ⟨fun _ member => member, pairs.flip⟩
  exact (List.forall₂_and_left front back).mpr ⟨fun _ member => member, behind.flip⟩

/-- An annotation of a document was read of a text that stands in it. -/
theorem exists_row_of_mem_annotationsOf
    (known : (engine.library.textOf? disk uri).outcome = .ok (some text)) {findings : Option Findings}
    (parsed : (engine.parseDocument disk uri).outcome = .ok findings) {note : Annotation}
    (member : note ∈ annotationsOf findings) :
    ∃ row : Row, row.StandsIn text.toList ∧ row.note? engine.rules = some note := by
  rw [outcome_parseDocument known] at parsed
  cases spoken : engine.languageName? uri with
  | error flaw =>
    rw [spoken] at parsed
    cases parsed
  | ok languageName =>
    rw [spoken] at parsed
    obtain rfl := Except.ok.inj parsed
    cases languageName with
    | none => cases member
    | some name =>
      change note ∈ (Findings.ofText engine.rules name text.toList).annotations at member
      rw [Findings.annotations_ofText] at member
      obtain ⟨row, unit, found⟩ := List.mem_filterMap.mp member
      obtain ⟨comment, commentMember, unitMember⟩ := List.mem_flatMap.mp unit
      exact ⟨row, (standsIn_of_mem_commentsIn commentMember).units row unitMember, found⟩

theorem map_mention_of_mem_annotationsOf
    (known : (engine.library.textOf? disk uri).outcome = .ok (some text)) {findings : Option Findings}
    (parsed : (engine.parseDocument disk uri).outcome = .ok findings) {note : Annotation}
    (member : note ∈ annotationsOf findings) :
    note.references.map Reference.mention = mentionsIn (note.value.getD "").toList := by
  obtain ⟨_, _, found⟩ := exists_row_of_mem_annotationsOf known parsed member
  obtain ⟨_, _, _, _, readBehind⟩ := Annotation.exists_readBehind? found
  exact Annotation.map_mention_references readBehind

/-- The references that are kept for an annotation of a document, each beside the one that is read in
    the value. -/
theorem forall₂_references
    (known : (engine.library.textOf? disk uri).outcome = .ok (some text)) {findings : Option Findings}
    (parsed : (engine.parseDocument disk uri).outcome = .ok findings) {note : Annotation}
    (member : note ∈ annotationsOf findings) {value : String} (hasValue : note.value = some value) :
    List.Forall₂ (fun kept used => (kept ∈ note.references ∧ kept.mention = used.mention ∧
        kept.raw = used.raw ∧ kept.range.slice text.toList = kept.raw.toList) ∧
          used ∈ referencesIn value.toList)
      note.references (referencesIn value.toList) := by
  obtain ⟨row, stands, found⟩ := exists_row_of_mem_annotationsOf known parsed member
  obtain ⟨_, _, _, _, readBehind⟩ := Annotation.exists_readBehind? found
  have mentions := Annotation.map_mention_references readBehind
  rw [hasValue] at mentions
  have standsIn : note.StandsIn text.toList := by
    refine @Row.standsIn_of_read engine.rules _ _ _ stands ?_
    rw [Row.note?] at found
    rw [Row.read, found]
  refine (forall₂_of_map_eq mentions).imp fun kept used pair => ?_
  obtain ⟨keptMember, usedMember, same⟩ := pair
  refine ⟨⟨keptMember, same, ?_, (standsIn.reference kept keptMember).1⟩, usedMember⟩
  obtain ⟨sameName, sameModifier⟩ := Prod.mk.inj same
  rw [← String.toList_inj, Annotation.raw_of_mem_references readBehind keptMember,
    Reference.raw_eq usedMember]
  exact congrArg₂ _ (congrArg _ sameName) (congrArg _ sameModifier)

/-- Nothing keeps an engine from checking a document on a stack: its URI stands for a path, the catalogue
    can be read if a reference asks for it, and where the limit for open names is larger than what the stack
    has room for, it has room for the references that there are. -/
structure CanCheck (stack : Nat) (engine : Engine) (disk : Disk) (uri : String) : Prop where
  path : ∃ path, Uri.path uri = .ok path
  catalogue : ∀ findings, (engine.parseDocument disk uri).outcome = .ok findings →
    (∃ note ∈ annotationsOf findings, ∃ reference ∈ note.references,
      engine.consults reference.name reference.modifier = true) →
    ∃ fresh, (engine.freshen disk).outcome = .ok fresh
  room : stack < engine.settings.depthLimit →
    ∀ findings after, (engine.parseDocument disk uri).outcome = .ok findings →
      (engine.prepare disk (engine.consultsFor (annotationsOf findings))).outcome = .ok after →
      ∀ note ∈ annotationsOf findings, ∀ reference ∈ note.references,
        engine.HasRoom stack after.catalogue reference.mention

theorem checkAgainst_eq_ok_iff {catalogue : Catalogue} {annotations : List Annotation}
    {diagnostics : List Diagnostic} :
    engine.checkAgainst stack catalogue (annotations.flatMap Annotation.references) = .ok diagnostics ↔
      (∀ note ∈ annotations, ∀ reference ∈ note.references,
        engine.HasRoom stack catalogue reference.mention) ∧
      diagnostics = unresolvedAmong (engine.problem? catalogue)
        (annotations.flatMap Annotation.references) := by
  simp only [checkAgainst, List.forall_mem_flatMap]
  split
  next room => rw [Except.ok.injEq, and_iff_right room, eq_comm]
  next full =>
    refine iff_of_false (fun same => ?_) fun both => full both.1
    cases same

theorem exists_variableDiagnostics_iff
    (known : (engine.library.textOf? disk uri).outcome = .ok (some text)) :
    (∃ after diagnostics, (engine.variableDiagnostics stack disk uri).outcome =
      .ok (after, .ok diagnostics)) ↔ engine.CanCheck stack disk uri := by
  constructor
  · rintro ⟨after, diagnostics, ends⟩
    obtain ⟨hosted, findings, parsed, prepared, reported⟩ :=
      (outcome_variableDiagnostics_eq_ok_iff known).mp ends
    refine ⟨hosted, fun other otherParsed consulted => ?_, fun _ other ready otherParsed readied => ?_⟩
    · obtain rfl := Except.ok.inj (otherParsed.symm.trans parsed)
      rw [consultsFor_iff.mpr consulted] at prepared
      exact ⟨after, prepared⟩
    · obtain rfl := Except.ok.inj (otherParsed.symm.trans parsed)
      obtain rfl := Except.ok.inj (readied.symm.trans prepared)
      exact (checkAgainst_eq_ok_iff.mp reported.symm).1
  · rintro ⟨⟨path, hosted⟩, catalogue, room⟩
    obtain ⟨languageName, spoken⟩ := @languageName?_of_path engine _ _ hosted
    obtain ⟨findings, parsed⟩ : ∃ findings, (engine.parseDocument disk uri).outcome = .ok findings := by
      rw [outcome_parseDocument known, spoken]
      exact ⟨_, rfl⟩
    obtain ⟨after, prepared⟩ : ∃ after,
        (engine.prepare disk (engine.consultsFor (annotationsOf findings))).outcome = .ok after := by
      cases consulted : engine.consultsFor (annotationsOf findings) with
      | false => exact ⟨engine, rfl⟩
      | true => exact catalogue findings parsed (consultsFor_iff.mp consulted)
    have roomy : ∀ note ∈ annotationsOf findings, ∀ reference ∈ note.references,
        engine.HasRoom stack after.catalogue reference.mention := by
      rcases Int.lt_or_le stack engine.settings.depthLimit with deep | bounded
      · exact room deep findings after parsed prepared
      · exact fun _ _ _ _ => hasRoom_of_limit bounded _ _
    exact ⟨after, _, (outcome_variableDiagnostics_eq_ok_iff known).mpr
      ⟨⟨path, hosted⟩, findings, parsed, prepared, (checkAgainst_eq_ok_iff.mpr ⟨roomy, rfl⟩).symm⟩⟩

/-- An engine that is prepared for the check of a document expands the values of its annotations as the
    diagnostics say. -/
theorem isCheck_of_prepare
    (known : (engine.library.textOf? disk uri).outcome = .ok (some text)) {findings : Option Findings}
    (parsed : (engine.parseDocument disk uri).outcome = .ok findings) {asked : Engine}
    (settings : asked.settings = engine.settings)
    (prepared : (asked.prepare disk (engine.consultsFor (annotationsOf findings))).outcome = .ok after)
    (room : ∀ note ∈ annotationsOf findings, ∀ reference ∈ note.references,
      engine.HasRoom stack after.catalogue reference.mention) :
    asked.IsCheck stack disk text.toList (annotationsOf findings)
      (unresolvedAmong (engine.problem? after.catalogue)
        ((annotationsOf findings).flatMap Annotation.references))
      (engine.problem? after.catalogue) := by
  constructor
  case reports => rfl
  case warns =>
    intro diagnostic member
    obtain ⟨reference, _, reported⟩ := List.mem_filterMap.mp member
    obtain ⟨failure, _, rfl⟩ := Option.map_eq_some_iff.mp reported
    rfl
  case valueless =>
    intro note member noValue
    have mentions := map_mention_of_mem_annotationsOf known parsed member
    rw [noValue] at mentions
    exact List.map_eq_nil_iff.mp mentions
  case valued =>
    intro note member value hasValue
    -- What the value mentions, the annotation keeps, so the engine was prepared for it.
    have covered : ∀ mention ∈ mentionsIn value.toList, asked.Covers stack
        (engine.consultsFor (annotationsOf findings)) after.catalogue mention := by
      have mentions := map_mention_of_mem_annotationsOf known parsed member
      rw [hasValue, Option.getD_some] at mentions
      intro mention mentioned
      rw [← mentions] at mentioned
      obtain ⟨reference, referenceMember, rfl⟩ := List.mem_map.mp mentioned
      constructor
      case consulted =>
        intro consulted
        rw [consults, request, settings] at consulted
        exact consultsFor_iff.mpr ⟨note, member, reference, referenceMember, consulted⟩
      case room => exact (hasRoom_of_settings settings).mpr (room note member reference referenceMember)
    refine (forall₂_references known parsed member hasValue).imp fun kept used pair => ?_
    obtain ⟨⟨keptMember, mention, raw, slice⟩, usedMember⟩ := pair
    have shown := shows_of_prepare prepared covered usedMember
    have sameFailure : asked.problem? after.catalogue used = engine.problem? after.catalogue kept := by
      obtain ⟨sameName, sameModifier⟩ := Prod.mk.inj mention
      rw [problem?_of_settings settings, problem?, problem?, sameName, sameModifier]
    rw [sameFailure] at shown
    exact ⟨mention, raw, slice, fun failure fails place => (shown place).1 failure fails,
      fun succeeds place => (shown place).2 succeeds⟩

/-- A check ends with diagnostics unless the URI stands for no path, the catalogue cannot be read or the
    stack has too little room.  It reports, in order, the references in the values of the annotations that
    fail, each with its range and with the message that an expansion of the value shows at the reference,
    whatever place it is asked for; and an expansion puts something in for the other references.  The engine
    as it was expands the values in this way, and so does the engine as the check leaves it. -/
theorem isCheck_variableDiagnostics
    (known : (engine.library.textOf? disk uri).outcome = .ok (some text)) (stack : Nat) :
    ((∃ after diagnostics, (engine.variableDiagnostics stack disk uri).outcome =
      .ok (after, .ok diagnostics)) ↔ engine.CanCheck stack disk uri) ∧
    ∀ after diagnostics,
      (engine.variableDiagnostics stack disk uri).outcome = .ok (after, .ok diagnostics) →
      ∃ findings failureOf, (engine.parseDocument disk uri).outcome = .ok findings ∧
        engine.IsCheck stack disk text.toList (annotationsOf findings) diagnostics failureOf ∧
        after.IsCheck stack disk text.toList (annotationsOf findings) diagnostics failureOf := by
  refine ⟨exists_variableDiagnostics_iff known, fun after diagnostics ends => ?_⟩
  obtain ⟨_, findings, parsed, prepared, reported⟩ :=
    (outcome_variableDiagnostics_eq_ok_iff known).mp ends
  obtain ⟨room, rfl⟩ := checkAgainst_eq_ok_iff.mp reported.symm
  refine ⟨findings, engine.problem? after.catalogue, parsed, ?_, ?_⟩
  · exact isCheck_of_prepare known parsed rfl prepared room
  · exact isCheck_of_prepare known parsed (isFresh_of_prepare prepared).1 (prepare_of_prepare prepared) room

theorem isCheck_variableDiagnostics_gone :
    let document : Document := { uri := "file:///a.ts", text := "// @acp:fn($NAME.ref at $LINE)" }
    let sheet : Sheet := ⟨"file:///s", "s", "", [("NAME", { value := "$GONE" })]⟩
    let engine : Engine := ⟨{}, .opened { documents := [("file:///a.ts", document)] },
      { sheets := [sheet], isStale := false }⟩
    let message := "Undefined variable: 'GONE'. Define it in .acp.vars.json or use a built-in variable."
    let diagnostics : List Diagnostic := [⟨.unresolved message, ⟨11, 20⟩⟩]
    ((engine.library.textOf? {} "file:///a.ts").outcome = .ok (some document.text) ∧
        (engine.variableDiagnostics 2 {} "file:///a.ts").outcome = .ok (engine, .ok diagnostics)) ∧
      engine.CanCheck 2 {} "file:///a.ts" ∧
      ¬ engine.CanCheck 1 {} "file:///a.ts" ∧
      ∃ findings failureOf, (engine.parseDocument {} "file:///a.ts").outcome = .ok findings ∧
        engine.IsCheck 2 {} document.text.toList (annotationsOf findings) diagnostics failureOf := by
  intro document sheet engine message diagnostics
  have known : (engine.library.textOf? {} "file:///a.ts").outcome = .ok (some document.text) := by
    decide +kernel
  have ends : (engine.variableDiagnostics 2 {} "file:///a.ts").outcome = .ok (engine, .ok diagnostics) := by
    decide +kernel
  have brokenOff : (engine.variableDiagnostics 1 {} "file:///a.ts").outcome =
      .ok (engine, .error .stackFull) := by
    decide +kernel
  obtain ⟨ends_iff, checks⟩ := isCheck_variableDiagnostics known 2
  obtain ⟨findings, failureOf, parsed, isCheck, _⟩ := checks _ _ ends
  refine ⟨⟨known, ends⟩, ends_iff.mp ⟨_, _, ends⟩, fun can => ?_, findings, failureOf, parsed, isCheck⟩
  obtain ⟨after, others, finishes⟩ := (isCheck_variableDiagnostics known 1).1.mpr can
  cases brokenOff.symm.trans finishes

-- A document whose URI stands for no path is parsed by its language, but its references are not checked.
example :
    let document : Document :=
      { uri := "file://[x/a.ts", text := "// @acp:fn($LINE.bad)", languageName := some "typescript" }
    let engine := start {} (.opened { documents := [(document.uri, document)] })
    (engine.variableDiagnostics Request.stackRoom {} document.uri).outcome =
      .error (.host .misplacedBrackets) := by
  decide +kernel

end Engine

end Marginalia
