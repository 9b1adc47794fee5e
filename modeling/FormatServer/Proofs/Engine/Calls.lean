import FormatServer.Engine.Native

namespace FormatServer

/-- A call of an engine over native programs `π`. -/
inductive EngineCall (π : Type) where
  | parse (source : Bytes) (kind : ScriptKind)
  | format (program : π) (options : NativeOptions) (embeds : Bool)
  | start (threads : UInt32) (answer : EngineResult (List Bytes))
  | openWorkspace (directory : Bytes) (answer : EngineResult WorkspaceId)
  | closeWorkspace (workspace : WorkspaceId) (answer : EngineResult Unit)
  | printFile (workspace : WorkspaceId) (options : JsonObject) (parser file code : Bytes)
      (answer : EngineResult Bytes)
  | printTagged (options : JsonObject) (tag code : Bytes) (answer : EngineResult Bytes)

/-- The state of the engines beside the calls that they have received, oldest first. -/
structure Noted (π σ : Type) where
  engine : σ
  calls : List (EngineCall π)

variable {σ π α : Type}

/-- A state beside noted calls. -/
def SessionState.noted (state : SessionState σ) (calls : List (EngineCall π)) :
    SessionState (Noted π σ) :=
  { engine := { engine := state.engine, calls }, log := state.log }

/-- The state without the notes. -/
def SessionState.unnoted (state : SessionState (Noted π σ)) : SessionState σ :=
  { engine := state.engine.engine, log := state.log }

namespace Session

/-- Notes a call. -/
def note (call : EngineCall π) : Session (Noted π σ) Unit :=
  modify fun state => state.unnoted.noted (state.engine.calls ++ [call])

/-- Computes beside the notes and notes a call with the answer. -/
def noting (call : α → EngineCall π) (compute : Session σ α) : Session (Noted π σ) α :=
  fun state =>
    let (answer, after) := compute.run state.unnoted
    (answer, after.noted (state.engine.calls ++ [call answer]))

end Session

/-- The external engine with its calls noted. A request that the engine lacks the operation for is
noted too. -/
def ExternalEngine.noted (engine : ExternalEngine σ) : ExternalEngine (Noted π σ) where
  start? := some fun threads => Session.noting (.start threads) (engine.start threads)
  openWorkspace? := some fun directory =>
    Session.noting (.openWorkspace directory) (engine.openWorkspace directory)
  closeWorkspace? := some fun workspace =>
    Session.noting (.closeWorkspace workspace) (engine.closeWorkspace workspace)
  printFile? := some fun workspace options parser file code =>
    Session.noting (.printFile workspace options parser file code)
      (engine.printFile workspace options parser file code)
  printTagged? := some fun options tag code =>
    Session.noting (.printTagged options tag code) (engine.printTagged options tag code)

/-- A native engine with its calls noted, before what it asks of the external one. -/
def NativeEngine.noted (native : NativeEngine (Noted π σ) π) : NativeEngine (Noted π σ) π where
  parse source kind := do
    Session.note (.parse source kind)
    native.parse source kind
  format program options embedded := do
    Session.note (.format program options embedded.isSome)
    native.format program options embedded

end FormatServer
