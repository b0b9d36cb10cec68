import Marginalia.Engine
import Mathlib.Data.List.Perm.Basic

/-!
# Histories of documents

What an editor does with an engine, one event after the other, and which documents are open after it.
An open document stands where it was opened first since it was closed last, and has the text that it
was given last.  A history is read from its end: its last event is its head.
-/

namespace Marginalia

/-! ## Events -/

/-- What an engine is asked about its variables. -/
inductive Query where
  | resolve (name : String) (modifier : Option String) (place : Option Surroundings)
  | expand (text : String) (place : Option Surroundings)
  | isDefined (name : String)
  | list
  | repeated

/-- What is done with an engine. -/
inductive Event where
  | opened (uri text : String) (languageName : Option String) (version : Int)
  | updated (uri text : String) (version : Option Int)
  | closed (uri : String)
  | invalidated
  | refreshed
  | asked (query : Query)

namespace Event

/-- Events of documents. -/
inductive IsEdit : Event → Prop where
  | opened (uri text : String) (languageName : Option String) (version : Int) :
    IsEdit (.opened uri text languageName version)
  | updated (uri text : String) (version : Option Int) : IsEdit (.updated uri text version)
  | closed (uri : String) : IsEdit (.closed uri)

/-- The open documents after an event; the same as before if a document is refused. -/
def edit (documents : OpenDocuments) : Event → OpenDocuments
  | .opened uri text languageName version =>
    match documents.insert uri text languageName version with
    | .ok (after, _) => after
    | .error _ => documents
  | .updated uri text version =>
    match documents.update uri text version with
    | .ok (after, _) => after
    | .error _ => documents
  | .closed uri => documents.close uri
  | _ => documents

end Event

/-- The documents that are open after a history. -/
def documentsAfter (patterns : List String) : List Event → OpenDocuments
  | [] => { patterns }
  | event :: earlier => event.edit (documentsAfter patterns earlier)

/-! ## Standings -/

/-- How an open document stands: how many events there were before it was opened, and its text. -/
structure Standing where
  since : Nat
  text : String

/-- The text that an event gives to the document of a URI, if the document is not refused.  A document
    that is open already can be updated whatever its URI. -/
def Event.textFor? (uri : String) (isOpen : Bool) : Event → Option String
  | .opened other text languageName _ =>
    if other = uri && (OpenDocuments.languageFor uri languageName).isOk then some text else none
  | .updated other text _ =>
    if other = uri && (isOpen || (OpenDocuments.languageFor uri none).isOk) then some text else none
  | _ => none

def Event.closes (uri : String) : Event → Bool
  | .closed other => other = uri
  | _ => false

/-- How the document of a URI stands after a history, if it is open. -/
def standing? (uri : String) : List Event → Option Standing
  | [] => none
  | event :: earlier =>
    let before := standing? uri earlier
    if event.closes uri then none
    else
      match event.textFor? uri before.isSome with
      | none => before
      | some text => some ⟨(before.map Standing.since).getD earlier.length, text⟩

/-- When the document of a URI was opened, for one that is open. -/
def openedAt (history : List Event) (uri : String) : Nat :=
  ((standing? uri history).map Standing.since).getD 0

/-- Some documents are those that are open after a history, in the order in which they were opened. -/
structure AreOpen (history : List Event) (documents : List Document) : Prop where
  stand : ∀ document ∈ documents, ∃ since,
    standing? document.uri history = some ⟨since, document.text⟩
  complete : ∀ uri standing, standing? uri history = some standing →
    ∃ document ∈ documents, document.uri = uri
  ordered : documents.Pairwise fun front back =>
    openedAt history front.uri < openedAt history back.uri

namespace AreOpen

variable {history : List Event} {documents others : List Document}

theorem mem_iff (areOpen : AreOpen history documents) (entry : String × String) :
    entry ∈ documents.map (fun document => (document.uri, document.text)) ↔
      ∃ since, standing? entry.1 history = some ⟨since, entry.2⟩ := by
  constructor
  · intro member
    obtain ⟨document, isOpen, rfl⟩ := List.mem_map.mp member
    exact areOpen.stand document isOpen
  · rintro ⟨since, stands⟩
    obtain ⟨document, isOpen, sameUri⟩ := areOpen.complete _ _ stands
    obtain ⟨opened, same⟩ := areOpen.stand document isOpen
    rw [sameUri, stands] at same
    obtain ⟨_, sameText⟩ := Standing.mk.inj (Option.some.inj same)
    exact List.mem_map.mpr ⟨document, isOpen, Prod.ext sameUri sameText.symm⟩

/-- A history tells which documents are open, with which texts and in which order. -/
theorem unique (areOpen : AreOpen history documents) (areToo : AreOpen history others) :
    documents.map (fun document => (document.uri, document.text)) =
      others.map fun document => (document.uri, document.text) := by
  have ordered {documents : List Document} (areOpen : AreOpen history documents) :
      (documents.map fun document => (document.uri, document.text)).Pairwise fun front back =>
        openedAt history front.1 < openedAt history back.1 :=
    List.pairwise_map.mpr areOpen.ordered
  have distinct {documents : List Document} (areOpen : AreOpen history documents) :
      (documents.map fun document => (document.uri, document.text)).Nodup := by
    refine (ordered areOpen).imp fun before same => ?_
    rw [same] at before
    exact Nat.lt_irrefl _ before
  refine List.Perm.eq_of_pairwise ?_ (ordered areOpen) (ordered areToo) ?_
  · intro front back _ _ before behind
    exact absurd before (Nat.lt_asymm behind)
  · refine (List.perm_ext_iff_of_nodup (distinct areOpen) (distinct areToo)).mpr fun entry => ?_
    rw [areOpen.mem_iff, areToo.mem_iff]

end AreOpen

/-! ## One event -/

variable {patterns : List String} {documents : OpenDocuments} {event : Event}
  {earlier history : List Event} {uri : String}

theorem since_lt {standing : Standing} (isOpen : standing? uri history = some standing) :
    standing.since < history.length := by
  induction history generalizing standing with
  | nil => cases isOpen
  | cons event earlier ih =>
    rw [List.length_cons]
    rw [standing?] at isOpen
    split at isOpen
    · cases isOpen
    · split at isOpen
      · exact Nat.lt_succ_of_lt (ih isOpen)
      · cases isOpen
        cases before : standing? uri earlier with
        | none => exact Nat.lt_succ_self _
        | some standing =>
          have smaller := ih before
          exact Nat.lt_succ_of_lt smaller

/-- The entries of open documents say what a history does. -/
structure Records (history : List Event) (entries : List (String × Document)) : Prop where
  found : ∀ uri, (entries.lookup uri).map (fun document => (document.uri, document.text)) =
    (standing? uri history).map fun standing => (uri, standing.text)
  ordered : (entries.map Prod.fst).Pairwise fun front back =>
    openedAt history front < openedAt history back

/-- What an event does to open documents: nothing, or it puts one of them, or it closes one. -/
inductive Edits (event : Event) (documents : OpenDocuments) : Prop where
  | nothing (same : event.edit documents = documents) (closesNone : ∀ uri, event.closes uri = false)
      (givesNone : ∀ uri, event.textFor? uri (documents.get? uri).isSome = none)
  | puts (document : Document) (put : event.edit documents = documents.put document)
      (closesNone : ∀ uri, event.closes uri = false)
      (givesOne : ∀ uri, event.textFor? uri (documents.get? uri).isSome =
        if uri = document.uri then some document.text else none)
  | closes (closed : String) (close : event.edit documents = documents.close closed)
      (closesOne : ∀ uri, event.closes uri = decide (uri = closed))
      (givesNone : ∀ uri isOpen, event.textFor? uri isOpen = none)

theorem Event.edits (event : Event)
    (keyed : ∀ uri document, documents.get? uri = some document → document.uri = uri) :
    Edits event documents := by
  -- Opening a document, and updating one that is not open, come down to one insertion.
  have insertion (uri text : String) (languageName : Option String) (version : Int)
      (same : event.edit documents = match documents.insert uri text languageName version with
        | .ok (after, _) => after
        | .error _ => documents)
      (closesNone : ∀ other, event.closes other = false)
      (gives : ∀ other, event.textFor? other (documents.get? other).isSome =
        if uri = other && (OpenDocuments.languageFor other languageName).isOk then some text
        else none) : Edits event documents := by
    rw [OpenDocuments.insert] at same
    cases language : OpenDocuments.languageFor uri languageName with
    | error flaw =>
      rw [language] at same
      refine .nothing same closesNone fun other => ?_
      rw [gives]
      by_cases isThis : uri = other
      · subst isThis
        simp [language, Except.isOk, Except.toBool]
      · simp [isThis]
    | ok languageName =>
      rw [language] at same
      refine .puts { uri, text, languageName, version } same closesNone fun other => ?_
      rw [gives]
      by_cases isThis : uri = other
      · subst isThis
        simp [language, Except.isOk, Except.toBool]
      · simp [isThis, Ne.symm isThis]
  cases event with
  | opened uri text languageName version =>
    exact insertion uri text languageName version rfl (fun _ => rfl) fun _ => rfl
  | updated uri text version =>
    cases known : documents.get? uri with
    | none =>
      refine insertion uri text none (version.getD 0) ?_ (fun _ => rfl) fun other => ?_
      · rw [edit, OpenDocuments.update, known]
      · rw [textFor?]
        by_cases isThis : uri = other
        · subst isThis
          rw [known, Option.isSome_none, Bool.false_or]
        · simp [isThis]
    | some document =>
      -- The document is put under its own URI, which is the one that it is found under.
      have sameUri := keyed uri document known
      refine .puts { document with text, version := version.getD (document.version + 1) } ?_
        (fun _ => rfl) fun other => ?_
      · rw [edit, OpenDocuments.update, known]
      · rw [textFor?, sameUri]
        by_cases isThis : other = uri
        · subst isThis
          rw [known]
          simp
        · simp [isThis, Ne.symm isThis]
  | closed uri =>
    exact .closes uri rfl (fun other => decide_eq_decide.mpr eq_comm) fun _ _ => rfl
  | invalidated => exact .nothing rfl (fun _ => rfl) fun _ => rfl
  | refreshed => exact .nothing rfl (fun _ => rfl) fun _ => rfl
  | asked query => exact .nothing rfl (fun _ => rfl) fun _ => rfl

/-! ## Documents after a history -/

theorem Event.patterns_edit (event : Event) (documents : OpenDocuments) :
    (event.edit documents).patterns = documents.patterns := by
  have insertion (uri text : String) (languageName : Option String) (version : Int) :
      (match documents.insert uri text languageName version with
        | .ok (after, _) => after
        | .error _ => documents).patterns = documents.patterns := by
    rw [OpenDocuments.insert]
    cases OpenDocuments.languageFor uri languageName <;> rfl
  cases event with
  | opened uri text languageName version => exact insertion uri text languageName version
  | updated uri text version =>
    rw [edit, OpenDocuments.update]
    cases documents.get? uri with
    | none => exact insertion uri text none (version.getD 0)
    | some document => rfl
  | _ => rfl

theorem patterns_documentsAfter (patterns : List String) (history : List Event) :
    (documentsAfter patterns history).patterns = patterns := by
  induction history with
  | nil => rfl
  | cons event earlier ih => rw [documentsAfter, event.patterns_edit, ih]

namespace Records

variable {later : List Event} {entries : List (String × Document)}

theorem mem_keys_iff (records : Records earlier entries) :
    uri ∈ entries.map Prod.fst ↔ (standing? uri earlier).isSome = true := by
  have same := congrArg Option.isSome (records.found uri)
  rw [Option.isSome_map, Option.isSome_map] at same
  rw [← Ordered.isSome_lookup_iff, same]

theorem of_same (records : Records earlier entries)
    (stands : ∀ uri, standing? uri later = standing? uri earlier) : Records later entries := by
  constructor
  · intro uri
    rw [stands]
    exact records.found uri
  · simp only [openedAt, stands]
    exact records.ordered

theorem put (records : Records earlier entries) (document : Document)
    (stands : ∀ uri, standing? uri later = if uri = document.uri
      then some ⟨((standing? uri earlier).map Standing.since).getD earlier.length, document.text⟩
      else standing? uri earlier) :
    Records later (Ordered.put document.uri document entries) := by
  constructor
  · intro uri
    rw [Ordered.lookup_put, stands]
    by_cases isThis : uri = document.uri
    · rw [if_pos isThis, if_pos isThis, isThis]
      rfl
    · rw [if_neg isThis, if_neg isThis]
      exact records.found uri
  · -- Whatever is open already keeps its place.
    have kept : ∀ uri ∈ entries.map Prod.fst, openedAt later uri = openedAt earlier uri := by
      intro uri member
      obtain ⟨standing, before⟩ := Option.isSome_iff_exists.mp (records.mem_keys_iff.mp member)
      rw [openedAt, openedAt, stands, before]
      split <;> rfl
    have ordered : (entries.map Prod.fst).Pairwise fun front back =>
        openedAt later front < openedAt later back := by
      refine records.ordered.imp_of_mem fun isFront isBack before => ?_
      rwa [kept _ isFront, kept _ isBack]
    rw [Ordered.keys_put]
    split
    next => exact ordered
    next isNew =>
      refine List.pairwise_append.mpr ⟨ordered, List.pairwise_singleton _ _, ?_⟩
      intro front isFront back isBack
      obtain rfl := List.mem_singleton.mp isBack
      have closed : standing? document.uri earlier = none := by
        rw [records.mem_keys_iff] at isNew
        simpa using isNew
      have last : openedAt later document.uri = earlier.length := by
        rw [openedAt, stands, if_pos rfl, closed]
        rfl
      obtain ⟨standing, before⟩ := Option.isSome_iff_exists.mp (records.mem_keys_iff.mp isFront)
      rw [kept front isFront, last, openedAt, before]
      exact since_lt before

theorem erase (records : Records earlier entries) (closed : String)
    (stands : ∀ uri, standing? uri later = if uri = closed then none else standing? uri earlier) :
    Records later (Ordered.erase closed entries) := by
  constructor
  · intro uri
    rw [Ordered.lookup_erase, stands]
    by_cases isThis : uri = closed
    · rw [if_pos isThis, if_pos isThis]
      rfl
    · rw [if_neg isThis, if_neg isThis]
      exact records.found uri
  · have remaining : ((Ordered.erase closed entries).map Prod.fst).Sublist (entries.map Prod.fst) :=
      List.filter_sublist.map _
    refine (records.ordered.sublist remaining).imp_of_mem fun isFront isBack before => ?_
    have other {uri : String} (member : uri ∈ (Ordered.erase closed entries).map Prod.fst) :
        uri ≠ closed := by
      obtain ⟨entry, isEntry, rfl⟩ := List.mem_map.mp member
      simpa using (List.mem_filter.mp isEntry).2
    rw [openedAt, openedAt, stands, stands, if_neg (other isFront), if_neg (other isBack)]
    exact before

end Records

theorem records_documentsAfter (patterns : List String) (history : List Event) :
    Records history (documentsAfter patterns history).documents := by
  induction history with
  | nil => exact ⟨fun _ => rfl, List.Pairwise.nil⟩
  | cons event earlier ih =>
    let documents := documentsAfter patterns earlier
    -- What the entries say of a document is what its event looks at: whether it is open, and its key.
    have isOpen (uri : String) : (documents.get? uri).isSome = (standing? uri earlier).isSome := by
      have same := congrArg Option.isSome (ih.found uri)
      rwa [Option.isSome_map, Option.isSome_map] at same
    have keyed (uri : String) (document : Document) (found : documents.get? uri = some document) :
        document.uri = uri := by
      have same := ih.found uri
      rw [show documents.documents.lookup uri = some document from found] at same
      obtain ⟨standing, _, equal⟩ := Option.map_eq_some_iff.mp same.symm
      exact (congrArg Prod.fst equal).symm
    rw [documentsAfter]
    cases event.edits keyed with
    | nothing same closesNone givesNone =>
      rw [same]
      refine ih.of_same fun uri => ?_
      rw [standing?, closesNone, ← isOpen, givesNone]
      rfl
    | puts document put closesNone givesOne =>
      rw [put]
      refine ih.put document fun uri => ?_
      rw [standing?, closesNone, ← isOpen, givesOne]
      by_cases isThis : uri = document.uri
      · rw [if_pos isThis, if_pos isThis]
        rfl
      · rw [if_neg isThis, if_neg isThis]
        rfl
    | closes closed close closesOne givesNone =>
      rw [close]
      refine ih.erase closed fun uri => ?_
      rw [standing?, closesOne, givesNone]
      by_cases isThis : uri = closed
      · rw [if_pos isThis, if_pos (decide_eq_true isThis)]
      · rw [if_neg isThis, if_neg (by simpa using isThis)]

/-- The documents that are open after a history. -/
theorem areOpen_documentsAfter (patterns : List String) (history : List Event) :
    AreOpen history (documentsAfter patterns history).toList := by
  have records := records_documentsAfter patterns history
  have stands : ∀ entry ∈ (documentsAfter patterns history).documents, entry.2.uri = entry.1 ∧
      ∃ since, standing? entry.1 history = some ⟨since, entry.2.text⟩ := by
    intro entry member
    have distinct : ((documentsAfter patterns history).documents.map Prod.fst).Nodup := by
      refine records.ordered.imp fun before same => ?_
      rw [same] at before
      exact Nat.lt_irrefl _ before
    have found := records.found entry.1
    rw [Ordered.lookup_of_mem distinct member] at found
    obtain ⟨standing, isOpen, same⟩ := Option.map_eq_some_iff.mp found.symm
    obtain ⟨sameUri, sameText⟩ := Prod.mk.inj same
    exact ⟨sameUri.symm, standing.since, by rw [isOpen, ← sameText]⟩
  constructor
  case stand =>
    intro document member
    obtain ⟨entry, isEntry, rfl⟩ := List.mem_map.mp member
    obtain ⟨sameUri, isOpen⟩ := stands entry isEntry
    rwa [sameUri]
  case complete =>
    intro uri standing isOpen
    have key := records.mem_keys_iff.mpr (Option.isSome_of_eq_some isOpen)
    obtain ⟨entry, isEntry, rfl⟩ := List.mem_map.mp key
    exact ⟨entry.2, List.mem_map_of_mem isEntry, (stands entry isEntry).1⟩
  case ordered =>
    rw [OpenDocuments.toList, List.pairwise_map]
    refine (List.pairwise_map.mp records.ordered).imp_of_mem fun isFront isBack before => ?_
    rwa [(stands _ isFront).1, (stands _ isBack).1]

-- A document that is opened again stays where it is, but one that was closed comes last.
example : (documentsAfter [] [.opened "a" "3" none 0, .opened "b" "2" none 0, .closed "a",
    .opened "b" "" none 0, .opened "a" "1" none 0]).toList.map (fun document =>
      (document.uri, document.text)) = [("b", "2"), ("a", "3")] := by
  decide

end Marginalia
