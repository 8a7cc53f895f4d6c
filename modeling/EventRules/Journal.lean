/-!
Log entries, and the channel that carries them to a reader: it keeps the last 256 entries, and
tells a reader who comes too late how many were lost.
-/
namespace EventRules

inductive LogLevel where
  | info
  | success
  | warning
  | error
  deriving DecidableEq

def LogLevel.word : LogLevel → String
  | .info => "info"
  | .success => "success"
  | .warning => "warning"
  | .error => "error"

def LogLevel.mark : LogLevel → String
  | .info => "   "
  | .success => "   ✓"
  | .warning => "   ⚠"
  | .error => "   ✗"

/-- A log entry. The file is set where the entry reports the outcome for an input file. -/
structure LogEntry where
  level : LogLevel
  message : String
  indent : Nat := 0
  file : Option String := none
  deriving DecidableEq

namespace LogEntry

def info (message : String) : LogEntry := { level := .info, message }

def success (message : String) : LogEntry := { level := .success, message }

def warning (message : String) : LogEntry := { level := .warning, message }

def error (message : String) : LogEntry := { level := .error, message }

def indented (e : LogEntry) (indent : Nat) : LogEntry := { e with indent }

def about (e : LogEntry) (file : String) : LogEntry := { e with file := some file }

def line (e : LogEntry) : String :=
  String.join (List.replicate e.indent "   ") ++ e.level.mark ++ " " ++ e.message

end LogEntry

def channelCapacity : Nat := 256

/-- What a reader of the channel finds who comes after some entries: how many were lost, and the
rest. -/
def readLate (entries : List LogEntry) : Nat × List LogEntry :=
  let lost := entries.length - channelCapacity
  (lost, entries.drop lost)

end EventRules
