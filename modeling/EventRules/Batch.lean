import EventRules.Catalog.Load
import EventRules.Compile
import EventRules.Settings.Basic

/-!
Compiling files, one or many. Each file of a batch ends with an entry that reports its outcome and
is tagged with the text that its path is shown as; the progress of a batch is read off these
entries, whatever stands between them, and counts each such text once.
-/
namespace EventRules

namespace Compile

variable {m : Type → Type} [Monad m] [Host m]

def file (settings : Settings) (catalog : Option Catalog) (path : Path) :
    m (Except CompileFault Json × List LogEntry) := do
  let fresh ← Host.freshId
  let read :=
    match ← Host.readFile path with
    | .ok octets => Payload.ofBytes fresh octets
    | .error fault => .error (.io fault)
  let (result, entries) := payload fresh settings.phases catalog read
  return (result, .info ("Reading " ++ path.display) :: entries)

def outcomeEntry {α : Type} (path : Path) : Except CompileFault α → LogEntry
  | .ok _ => (LogEntry.success ("Compiled " ++ path.display)).about path.display
  | .error fault => (LogEntry.error (path.display ++ ": " ++ fault.message)).about path.display

/-- Compile files, and report the outcome for each. -/
def files (settings : Settings) (catalog : Option Catalog) :
    List Path → m (List (Except CompileFault Json) × List LogEntry)
  | [] => return ([], [])
  | path :: rest => do
    let (result, entries) ← file settings catalog path
    let (results, others) ← files settings catalog rest
    return (result :: results, entries ++ outcomeEntry path result :: others)

def loadCatalog (settings : Settings) :
    m (Except Catalog.Fault (Option Catalog) × List LogEntry) := do
  match settings.catalog with
  | none =>
    return (.ok none,
      [.warning "No schema catalog configured, skipping version checks"])
  | some path =>
    match ← Catalog.load path with
    | .error fault => return (.error fault, [])
    | .ok catalog =>
      return (.ok (some catalog),
        [.success
          ("Loaded schema catalog with " ++ toString catalog.versions.length ++ " version(s)")])

end Compile

/-- The progress of a batch: the paths without an outcome, by the texts that they are shown as, and
the number of all such texts. -/
structure Progress where
  pending : List String
  total : Nat

namespace Progress

def start (paths : List Path) : Progress :=
  let pending := distinct (paths.map Path.display)
  ⟨pending, pending.length⟩

/-- Read entries up to the next outcome: the number of outcomes so far, the entry, and what
follows; none when none is pending or the entries end. -/
def next (p : Progress) :
    List LogEntry → Option ((Nat × LogEntry) × Progress × List LogEntry)
  | [] => none
  | entry :: rest =>
    if p.pending.isEmpty then none
    else
      match entry.file with
      | some key =>
        if p.pending.contains key then
          let pending := p.pending.erase key
          some ((p.total - pending.length, entry), { p with pending }, rest)
        else next p rest
      | none => next p rest

theorem next_length {p q : Progress} {entries rest : List LogEntry} {found : Nat × LogEntry}
    (h : p.next entries = some (found, q, rest)) : rest.length < entries.length := by
  induction entries with
  | nil => cases h
  | cons entry others ih =>
    unfold next at h
    split at h
    · cases h
    · split at h
      · split at h
        · cases h
          simp
        · have := ih h
          simp only [List.length_cons]
          omega
      · have := ih h
        simp only [List.length_cons]
        omega

/-- All outcomes that entries hold, with their counts. -/
def outcomes (p : Progress) (entries : List LogEntry) : List (Nat × LogEntry) :=
  match _h : p.next entries with
  | none => []
  | some (found, q, rest) => found :: outcomes q rest
termination_by entries.length
decreasing_by exact next_length _h

end Progress

end EventRules
