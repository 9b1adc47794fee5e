import FormatServer.Engine.Session
import FormatServer.Json.Value

namespace FormatServer

/-- The number by which the external engine knows a workspace. -/
abbrev WorkspaceId := UInt32

/-- A call of the external engine, as far as messages about it tell. -/
inductive EngineOperation where
  | start
  | openWorkspace (directory : Bytes)
  | closeWorkspace (workspace : WorkspaceId)
  | printFile (file parser : Bytes)
  | printTagged (tag : Bytes)
  deriving DecidableEq, Repr

namespace EngineOperation

/-- The name of an operation. -/
def name : EngineOperation → Bytes
  | start => "init"
  | openWorkspace _ => "createWorkspace"
  | closeWorkspace _ => "deleteWorkspace"
  | printFile _ _ => "formatFile"
  | printTagged _ => "formatEmbedded"

/-- What an operation is about, with a blank before it. -/
def target : EngineOperation → Bytes
  | start => ""
  | openWorkspace directory => Bytes.concat [" for directory: '", directory, "'"]
  | closeWorkspace workspace => Bytes.concat [" for workspace ", Bytes.ofNat workspace.toNat]
  | printFile file parser => Bytes.concat [" for file: '", file, "', parser: '", parser, "'"]
  | printTagged tag => Bytes.concat [" for tag '", tag, "'"]

end EngineOperation

/-- Why a call of the external engine has no result: the engine lacks the operation, its scheduler
takes no more work, the request was refused or never answered, or the engine failed in its own
words. -/
inductive EngineError where
  | missing (operation : EngineOperation)
  | notAccepted (operation : EngineOperation)
  | rejected (operation : EngineOperation) (reason : Bytes)
  | failed (reason : Bytes)
  deriving DecidableEq, Repr

/-- The text of an engine error. -/
def EngineError.message : EngineError → Bytes
  | missing operation =>
    Bytes.concat
      ["Failed to call engine ", operation.name, " callback", operation.target,
        ": callback is not registered"]
  | notAccepted operation =>
    Bytes.concat
      ["Failed to call engine ", operation.name, " callback", operation.target,
        ": engine runtime is stopped"]
  | rejected operation reason =>
    Bytes.concat ["engine ", operation.name, " promise rejected", operation.target, ": ", reason]
  | failed reason => reason

/-- The result of a call of the external engine. -/
abbrev EngineResult (α : Type) := Except EngineError α

/-- Formats the code in a tagged literal: takes the tag and the code. -/
abbrev TaggedFormatter (σ : Type) := (tag code : Bytes) → Session σ (EngineResult Bytes)

/-- The external engine. Each operation may be missing. It is started with a number of threads and
reports the languages of its plugins. -/
structure ExternalEngine (σ : Type) where
  start? : Option (UInt32 → Session σ (EngineResult (List Bytes))) := none
  openWorkspace? : Option (Bytes → Session σ (EngineResult WorkspaceId)) := none
  closeWorkspace? : Option (WorkspaceId → Session σ (EngineResult Unit)) := none
  printFile? : Option (WorkspaceId → JsonObject → (parser file code : Bytes) →
    Session σ (EngineResult Bytes)) := none
  printTagged? : Option (JsonObject → TaggedFormatter σ) := none

namespace ExternalEngine

variable {σ : Type}

/-- Starts the engine. -/
def start (engine : ExternalEngine σ) (threads : UInt32) :
    Session σ (EngineResult (List Bytes)) :=
  match engine.start? with
  | some starts => starts threads
  | none => return .error (.missing .start)

/-- Opens a workspace. -/
def openWorkspace (engine : ExternalEngine σ) (directory : Bytes) :
    Session σ (EngineResult WorkspaceId) :=
  match engine.openWorkspace? with
  | some opens => opens directory
  | none => return .error (.missing (.openWorkspace directory))

/-- Closes a workspace. -/
def closeWorkspace (engine : ExternalEngine σ) (workspace : WorkspaceId) :
    Session σ (EngineResult Unit) :=
  match engine.closeWorkspace? with
  | some closes => closes workspace
  | none => return .error (.missing (.closeWorkspace workspace))

/-- Formats a file. -/
def printFile (engine : ExternalEngine σ) (workspace : WorkspaceId)
    (options : JsonObject) (parser file code : Bytes) : Session σ (EngineResult Bytes) :=
  match engine.printFile? with
  | some prints => prints workspace options parser file code
  | none => return .error (.missing (.printFile file parser))

/-- Formats the code in a tagged literal. -/
def printTagged (engine : ExternalEngine σ) (options : JsonObject) (tag code : Bytes) :
    Session σ (EngineResult Bytes) :=
  match engine.printTagged? with
  | some prints => prints options tag code
  | none => return .error (.missing (.printTagged tag))

/-- A formatter for tagged literals with fixed options. -/
def toTagged (engine : ExternalEngine σ) (options : JsonObject) : TaggedFormatter σ :=
  engine.printTagged options

end ExternalEngine

end FormatServer
