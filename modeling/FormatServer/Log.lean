import FormatServer.Text.Bytes

namespace FormatServer

/-- How much a log entry matters, from the least to the most. -/
inductive Level where
  | debug
  | verbose
  | info
  | error
  deriving DecidableEq, Repr

namespace Level

/-- The letter that stands for a level at the start of a line. -/
def letter : Level → Bytes
  | debug => "D"
  | verbose => "V"
  | info => "I"
  | error => "E"

/-- The place of a level in the order of significance. -/
def rank : Level → Nat
  | debug => 0
  | verbose => 1
  | info => 2
  | error => 3

end Level

/-- One message of the log. -/
structure LogEntry where
  level : Level
  message : Bytes
  deriving DecidableEq, Repr

namespace LogEntry

/-- A message about one request: a skipped file, a failure of an engine. -/
def verbose (parts : List Bytes) : LogEntry := ⟨.verbose, Bytes.concat parts⟩

/-- A message about the life of the server, such as a new workspace. -/
def info (parts : List Bytes) : LogEntry := ⟨.info, Bytes.concat parts⟩

/-- A message about an error or a broken configuration. -/
def error (parts : List Bytes) : LogEntry := ⟨.error, Bytes.concat parts⟩

end LogEntry

/-- When and by which process a line of a log is written. -/
structure LogStamp where
  time : Bytes
  process : Bytes

/-- What a log stream with a least level writes for one entry: nothing below that level, else one
line with the level, the stamp and the message. -/
def LogEntry.line (entry : LogEntry) (least : Level) (stamp : LogStamp) : Bytes :=
  if entry.level.rank < least.rank then []
  else Bytes.concat
    [entry.level.letter, "[", stamp.time, "] ", stamp.process, ": ", entry.message, "\n"]

/-- A value and the log entries written while it was computed, in order. -/
structure Logged (α : Type) where
  value : α
  entries : List LogEntry := []

namespace Logged

instance : Monad Logged where
  pure value := { value }
  bind logged next :=
    let result := next logged.value
    { value := result.value, entries := logged.entries ++ result.entries }

/-- Writes one entry. -/
def write (entry : LogEntry) : Logged Unit := { value := (), entries := [entry] }

@[simp] theorem value_pure {α : Type} (value : α) : (pure value : Logged α).value = value := rfl

@[simp] theorem value_bind {α β : Type} (logged : Logged α) (next : α → Logged β) :
    (logged >>= next).value = (next logged.value).value := rfl

@[simp] theorem entries_bind {α β : Type} (logged : Logged α) (next : α → Logged β) :
    (logged >>= next).entries = logged.entries ++ (next logged.value).entries := rfl

end Logged

end FormatServer
