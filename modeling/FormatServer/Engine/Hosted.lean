import FormatServer.Engine.External
import FormatServer.Engine.Scheduler

namespace FormatServer

/-- What a handler of the engine can answer. -/
inductive EngineReply where
  | languages (names : List Bytes)
  | workspace (id : WorkspaceId)
  | text (content : Bytes)
  | done
  deriving DecidableEq, Repr

namespace EngineReply

/-- The languages of an answer; any other answer reports none. -/
def toLanguages : EngineReply → List Bytes
  | languages names => names
  | _ => []

/-- The workspace of an answer; any other answer stands for the workspace zero. -/
def toWorkspace : EngineReply → WorkspaceId
  | workspace id => id
  | _ => 0

/-- The text of an answer; any other answer stands for the empty text. -/
def toText : EngineReply → Bytes
  | text content => content
  | _ => []

end EngineReply

/-- A program of the engine. -/
abbrev EngineAction (σ : Type) := Action σ EngineReply

/-- The operations of an engine, each a handler that is given a slot for its answer. Each may be
missing. -/
structure EngineHandlers (σ : Type) where
  start? : Option (UInt32 → ReplySlot → EngineAction σ) := none
  openWorkspace? : Option (Bytes → ReplySlot → EngineAction σ) := none
  closeWorkspace? : Option (WorkspaceId → ReplySlot → EngineAction σ) := none
  printFile? : Option (WorkspaceId → JsonObject → (parser file code : Bytes) →
    ReplySlot → EngineAction σ) := none
  printTagged? : Option (JsonObject → (tag code : Bytes) → ReplySlot → EngineAction σ) := none

/-- The error of an operation whose request has no answer. -/
def EngineError.ofWait (operation : EngineOperation) : WaitError → EngineError
  | .notAccepted => .notAccepted operation
  | .rejected reason => .rejected operation reason
  | .stoppedWhileWaiting => .rejected operation "engine runtime stopped while waiting"

/-- A request of an operation: a program that calls it and goes on with the result. -/
abbrev EngineRequest (σ : Type) :=
  (next : EngineResult EngineReply → EngineAction σ) → EngineAction σ

namespace EngineHandlers

variable {σ : Type}

/-- Calls an operation, if the engine has it, and waits for the answer. -/
def request (operation : EngineOperation) (handler? : Option (ReplySlot → EngineAction σ)) :
    EngineRequest σ := fun next =>
  match handler? with
  | none => next (.error (.missing operation))
  | some handler =>
    .await handler fun outcome => next (outcome.mapError (EngineError.ofWait operation))

/-- Starts the engine. -/
def start (handlers : EngineHandlers σ) (threads : UInt32) : EngineRequest σ :=
  request .start (handlers.start?.map fun operation => operation threads)

/-- Opens a workspace. -/
def openWorkspace (handlers : EngineHandlers σ) (directory : Bytes) : EngineRequest σ :=
  request (.openWorkspace directory)
    (handlers.openWorkspace?.map fun operation => operation directory)

/-- Closes a workspace. -/
def closeWorkspace (handlers : EngineHandlers σ) (workspace : WorkspaceId) :
    EngineRequest σ :=
  request (.closeWorkspace workspace)
    (handlers.closeWorkspace?.map fun operation => operation workspace)

/-- Formats a file. -/
def printFile (handlers : EngineHandlers σ) (workspace : WorkspaceId)
    (options : JsonObject) (parser file code : Bytes) : EngineRequest σ :=
  request (.printFile file parser)
    (handlers.printFile?.map fun operation => operation workspace options parser file code)

/-- Formats the code in a tagged literal. -/
def printTagged (handlers : EngineHandlers σ) (options : JsonObject) (tag code : Bytes) :
    EngineRequest σ :=
  request (.printTagged tag)
    (handlers.printTagged?.map fun operation => operation options tag code)

end EngineHandlers

/-- The state of an engine, and the result of the last call that the server made of it. -/
structure HostedState (σ : Type) where
  engine : σ
  result : Option (EngineResult EngineReply) := none

/-- A scheduler with an engine on it, and whether the server calls the engine from `inside` one of
the handlers. -/
structure EngineHost (σ : Type) where
  scheduler : Scheduler (HostedState σ) EngineReply
  inside : Bool := false

namespace EngineHost

variable {σ : Type}

/-- Runs a program from where the server is, in at most `limit` steps. -/
def run (host : EngineHost σ) (limit : Nat) (program : EngineAction (HostedState σ)) :
    EngineHost σ :=
  { host with
    scheduler :=
      if host.inside then host.scheduler.runInside limit program
      else host.scheduler.runOutside limit program }

/-- Notes the result of a call. -/
def note (result : EngineResult EngineReply) : EngineAction (HostedState σ) :=
  .read fun state => .write { state with result := some result } .done

/-- Makes a request and waits for its result, in at most `limit` steps. What the scheduler logs goes
to the log of the server. -/
def call (limit : Nat) (operation : EngineOperation) (request : EngineRequest (HostedState σ)) :
    Session (EngineHost σ) (EngineResult EngineReply) := fun session =>
  let host := session.engine.run limit (request note)
  let state := host.scheduler.state
  let scheduler := { host.scheduler with state := { state with result := none }, log := [] }
  (state.result.getD (.error (.rejected operation Scheduler.noResponse)),
    { engine := { host with scheduler }, log := session.log ++ host.scheduler.log })

end EngineHost

/-- The engine with the given handlers, as the server sees it. Every call takes at most `limit`
steps of the scheduler. -/
def ExternalEngine.ofHandlers {σ : Type} (limit : Nat)
    (handlers : EngineHandlers (HostedState σ)) : ExternalEngine (EngineHost σ) where
  start? := some fun threads => do
    return (← EngineHost.call limit .start (handlers.start threads)).map EngineReply.toLanguages
  openWorkspace? := some fun directory => do
    return (← EngineHost.call limit (.openWorkspace directory)
      (handlers.openWorkspace directory)).map EngineReply.toWorkspace
  closeWorkspace? := some fun workspace => do
    return (← EngineHost.call limit (.closeWorkspace workspace)
      (handlers.closeWorkspace workspace)).map fun _ => ()
  printFile? := some fun workspace options parser file code => do
    return (← EngineHost.call limit (.printFile file parser)
      (handlers.printFile workspace options parser file code)).map EngineReply.toText
  printTagged? := some fun options tag code => do
    return (← EngineHost.call limit (.printTagged tag)
      (handlers.printTagged options tag code)).map EngineReply.toText

end FormatServer
