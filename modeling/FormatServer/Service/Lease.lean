import FormatServer.Engine.External
import FormatServer.Routing.Route

namespace FormatServer

/-- The number of threads that an engine is started with unless another is asked for. -/
def defaultThreads : UInt32 := 1

/-- The stage that a lease has reached. -/
inductive LeaseStage where
  | idle
  | held
  | failed
  | released
  deriving DecidableEq, Repr

/-- How a stage is written. -/
def LeaseStage.name : LeaseStage → Bytes
  | idle => "uninitialized"
  | held => "active"
  | failed => "disabled"
  | released => "torn down"

/-- The lease of a workspace: `idle` before anything has been tried, when there may be no engine,
and `failed` when the engine is not used. A released lease remembers the languages. -/
inductive WorkspaceLease (σ : Type) where
  | idle (engine? : Option (ExternalEngine σ))
  | held (engine : ExternalEngine σ) (workspace : WorkspaceId) (languages : PluginLanguages)
  | failed
  | released (languages : PluginLanguages)

namespace WorkspaceLease

variable {σ : Type}

/-- The stage of a lease. -/
def stage : WorkspaceLease σ → LeaseStage
  | idle _ => .idle
  | held _ _ _ => .held
  | failed => .failed
  | released _ => .released

/-- The open workspace. -/
def workspace? : WorkspaceLease σ → Option WorkspaceId
  | held _ workspace _ => some workspace
  | _ => none

/-- The engine, while the workspace is open. -/
def engine? : WorkspaceLease σ → Option (ExternalEngine σ)
  | held engine _ _ => some engine
  | _ => none

/-- The languages that the engine has reported. -/
def languages : WorkspaceLease σ → PluginLanguages
  | held _ _ languages => languages
  | released languages => languages
  | _ => {}

/-- Starts the engine and opens a workspace for a directory, if that has not been tried before. -/
def acquire (lease : WorkspaceLease σ) (root : Bytes) (threads : UInt32) :
    Session σ (WorkspaceLease σ) :=
  match lease with
  | idle none => return failed
  | idle (some engine) => do
    match ← engine.start threads with
    | .error error =>
      Session.write (.verbose ["Failed to initialize external formatter: ", error.message])
      return failed
    | .ok reported =>
      match ← engine.openWorkspace root with
      | .error error =>
        Session.write
          (.verbose ["Failed to create external formatter workspace: ", error.message])
        return failed
      | .ok workspace =>
        Session.write (.info
          ["external formatter workspace ", Bytes.ofNat workspace.toNat, " created for ", root])
        return held engine workspace (PluginLanguages.ofReport reported)
  | other => return other

/-- Closes the workspace, if one is open. A failure is only logged. -/
def release (lease : WorkspaceLease σ) : Session σ (WorkspaceLease σ) :=
  match lease with
  | held engine workspace languages => do
    match ← engine.closeWorkspace workspace with
    | .ok () => pure ()
    | .error error =>
      Session.write (.error
        ["Failed to delete external formatter workspace ", Bytes.ofNat workspace.toNat, ": ",
          error.message])
    return released languages
  | other => return other

end WorkspaceLease

end FormatServer
