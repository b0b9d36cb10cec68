import Marginalia.Report.Account
import Marginalia.Report.Fault
import Marginalia.Report.Notice

/-!
# Reports

The answer to a request together with the notices that were given on the way.  A fault ends a request;
the notices before it remain.
-/

namespace Marginalia

/-- The notices of a request, in order, and its answer or the fault that keeps it from having one. -/
abbrev Report := Account Notice Fault

namespace Report

variable {α : Type}

def notify (notice : Notice) : Report Unit := .noteAll [notice]

/-- Some notices, in order. -/
def notifyAll (notices : List Notice) : Report Unit := .noteAll notices

/-- A request that has no answer. -/
def fail (fault : Fault) : Report α := Account.fail fault

/-- The report with an answer that stands in for its fault, if it has one. -/
def rescue (report : Report α) (answerTo : Fault → α) : Report α :=
  match report.outcome with
  | .ok _ => report
  | .error fault => ⟨report.notes, .ok (answerTo fault)⟩

/-- A result as a report without notices. -/
def ofExcept (outcome : Except Fault α) : Report α := Account.ofExcept outcome

/-- A result with a flaw of a file as its fault. -/
def ofFile (outcome : Except FileFlaw α) : Report α := ofExcept (outcome.mapError .file)

/-- A result with a flaw of a URI's host as its fault. -/
def ofHost (outcome : Except HostFlaw α) : Report α := ofExcept (outcome.mapError .host)

theorem mapError_eq_ok_iff {ε δ : Type} {change : ε → δ} {outcome : Except ε α} {result : α} :
    outcome.mapError change = .ok result ↔ outcome = .ok result := by
  cases outcome with
  | error flaw => exact iff_of_false nofun nofun
  | ok value =>
    show Except.ok value = Except.ok result ↔ _
    rw [Except.ok.injEq, Except.ok.injEq]

theorem outcome_ofFile_eq_ok_iff {outcome : Except FileFlaw α} {result : α} :
    (ofFile outcome).outcome = .ok result ↔ outcome = .ok result :=
  mapError_eq_ok_iff

theorem outcome_ofHost_eq_ok_iff {outcome : Except HostFlaw α} {result : α} :
    (ofHost outcome).outcome = .ok result ↔ outcome = .ok result :=
  mapError_eq_ok_iff

end Report

end Marginalia
