import FormatServer.Engine.Native
import Mathlib

namespace FormatServer

/-- A workspace of one of several external engines: the name of the engine, and the number by which
the engine knows the workspace. -/
abbrev EngineWorkspace (ι : Type) := ι × WorkspaceId

/-- What happens to a workspace: the engine answers a request with it, or is asked to close it or to
format a file in it. -/
inductive WorkspaceCall (ι : Type) where
  | opened (workspace : EngineWorkspace ι)
  | closing (workspace : EngineWorkspace ι)
  | printing (workspace : EngineWorkspace ι)
  deriving DecidableEq

/-- The state of engines beside a record of calls, oldest first. -/
structure Recorded (ι σ : Type) where
  engine : σ
  calls : List (WorkspaceCall ι)

variable {ι σ π : Type} {α β γ δ : Type}

/-- A state beside a record of calls. -/
def SessionState.recorded (state : SessionState σ) (calls : List (WorkspaceCall ι)) :
    SessionState (Recorded ι σ) :=
  { engine := { engine := state.engine, calls }, log := state.log }

/-- The state without the record. -/
def SessionState.plain (state : SessionState (Recorded ι σ)) : SessionState σ :=
  { engine := state.engine.engine, log := state.log }

namespace Session

/-- Computes beside a record, which stays as it is. -/
def beside (compute : Session σ α) : Session (Recorded ι σ) α := fun state =>
  let (value, after) := compute.run state.plain
  (value, after.recorded state.engine.calls)

/-- Computes with the given record and drops what is recorded. -/
def dropping (calls : List (WorkspaceCall ι)) (compute : Session (Recorded ι σ) α) :
    Session σ α := fun state =>
  let (value, after) := compute.run (state.recorded calls)
  (value, after.plain)

/-- Records a call. -/
def record (call : WorkspaceCall ι) : Session (Recorded ι σ) Unit :=
  modify fun state => state.plain.recorded (state.engine.calls ++ [call])

/-- A recorded computation does what a plain one does: the same state is left, the record grows by
some calls, and the two results and those calls are related. -/
def Records (recorded : Session (Recorded ι σ) α) (plain : Session σ β)
    (related : α → β → List (WorkspaceCall ι) → Prop) : Prop :=
  ∀ state before, ∃ calls,
    (recorded.run (state.recorded before)).2 = (plain.run state).2.recorded (before ++ calls) ∧
      related (recorded.run (state.recorded before)).1 (plain.run state).1 calls

namespace Records

theorem pure {value : α} {plain : β} {related : α → β → List (WorkspaceCall ι) → Prop}
    (same : related value plain []) :
    Records (Pure.pure value : Session (Recorded ι σ) α) (Pure.pure plain : Session σ β)
      related := by
  intro state before
  exact ⟨[], by rw [List.append_nil]; rfl, same⟩

theorem beside (compute : Session σ α) :
    Records (compute.beside : Session (Recorded ι σ) α) compute fun value plain calls =>
      value = plain ∧ calls = [] := by
  intro state before
  exact ⟨[], by rw [List.append_nil]; rfl, rfl, rfl⟩

theorem mono {recorded : Session (Recorded ι σ) α} {plain : Session σ β}
    {related weaker : α → β → List (WorkspaceCall ι) → Prop}
    (records : Records recorded plain related)
    (weaken : ∀ value plain calls, related value plain calls → weaker value plain calls) :
    Records recorded plain weaker := by
  intro state before
  obtain ⟨calls, left, same⟩ := records state before
  exact ⟨calls, left, weaken _ _ _ same⟩

/-- What two computations record one after the other. -/
theorem bind {first : Session (Recorded ι σ) α} {plainFirst : Session σ β}
    {next : α → Session (Recorded ι σ) γ} {plainNext : β → Session σ δ}
    {related : α → β → List (WorkspaceCall ι) → Prop}
    {relatedAfter : γ → δ → List (WorkspaceCall ι) → Prop}
    (records : Records first plainFirst related)
    (rest : ∀ value plain calls, related value plain calls →
      Records (next value) (plainNext plain) fun result plainResult more =>
        relatedAfter result plainResult (calls ++ more)) :
    Records (first >>= next) (plainFirst >>= plainNext) relatedAfter := by
  intro state before
  obtain ⟨calls, left, same⟩ := records state before
  obtain ⟨more, leftAfter, sameAfter⟩ :=
    rest _ _ _ same (plainFirst.run state).2 (before ++ calls)
  refine ⟨calls ++ more, ?_, ?_⟩
  · rw [run_bind, run_bind, left, leftAfter, List.append_assoc]
  · rw [run_bind, run_bind, left]
    exact sameAfter

/-- A computation that records nothing does not matter to what is recorded after it. -/
theorem beside_bind {first : Session σ α} {next : α → Session (Recorded ι σ) β}
    {plainNext : α → Session σ γ} {related : β → γ → List (WorkspaceCall ι) → Prop}
    (rest : ∀ value, Records (next value) (plainNext value) related) :
    Records (first.beside >>= next) (first >>= plainNext) related := by
  refine (beside first).bind ?_
  rintro value _ _ ⟨rfl, rfl⟩
  exact rest value

theorem write_bind {entry : LogEntry} {next : Unit → Session (Recorded ι σ) α}
    {plainNext : Unit → Session σ β} {related : α → β → List (WorkspaceCall ι) → Prop}
    (rest : Records (next ()) (plainNext ()) related) :
    Records (write entry >>= next) (write entry >>= plainNext) related := by
  intro state before
  exact rest { state with log := state.log ++ [entry] } before

theorem logged_bind {result : Logged α} {next : α → Session (Recorded ι σ) β}
    {plainNext : α → Session σ γ} {related : β → γ → List (WorkspaceCall ι) → Prop}
    (rest : Records (next result.value) (plainNext result.value) related) :
    Records (logged result >>= next) (logged result >>= plainNext) related := by
  intro state before
  exact rest { state with log := state.log ++ result.entries } before

/-- What is recorded after a call. -/
theorem record_bind {call : WorkspaceCall ι} {next : Unit → Session (Recorded ι σ) α}
    {plain : Session σ β} {related : α → β → List (WorkspaceCall ι) → Prop}
    (rest : Records (next ()) plain fun value plainValue calls =>
      related value plainValue (call :: calls)) :
    Records (record call >>= next) plain related := by
  intro state before
  obtain ⟨calls, left, same⟩ := rest state (before ++ [call])
  refine ⟨call :: calls, ?_, same⟩
  rw [← List.append_cons] at left
  exact left

end Records

end Session

/-- The engine with what happens to its workspaces recorded under a name. A request that the engine
lacks the operation for is recorded too. -/
def ExternalEngine.recorded (engine : ExternalEngine σ) (name : ι) :
    ExternalEngine (Recorded ι σ) where
  start? := some fun threads => (engine.start threads).beside
  openWorkspace? := some fun directory => do
    let answer ← (engine.openWorkspace directory).beside
    if let .ok workspace := answer then Session.record (.opened (name, workspace))
    return answer
  closeWorkspace? := some fun workspace => do
    Session.record (.closing (name, workspace))
    (engine.closeWorkspace workspace).beside
  printFile? := some fun workspace options parser file code => do
    Session.record (.printing (name, workspace))
    (engine.printFile workspace options parser file code).beside
  printTagged? := some fun options tag code => (engine.printTagged options tag code).beside

/-- The native engine beside a record. All that it asks of the external one is code in tagged
literals, and no workspace has a part in that. -/
def NativeEngine.recorded (native : NativeEngine σ π) : NativeEngine (Recorded ι σ) π where
  parse source kind := (native.parse source kind).beside
  format program options embedded := fun state =>
    let plain := embedded.map fun tagged tag code => (tagged tag code).dropping state.engine.calls
    (native.format program options plain).beside.run state

/-- The native engine is given the formatter for tagged literals that it has without the record. -/
theorem NativeEngine.format_recorded (native : NativeEngine σ π) (program : π)
    (options : NativeOptions) (engine? : Option (ExternalEngine σ)) (name : ι)
    (external : JsonObject) :
    native.recorded.format program options
        ((engine?.map fun engine => engine.recorded name).map fun engine =>
          engine.toTagged external) =
      (native.format program options
        (engine?.map fun engine => engine.toTagged external)).beside := by
  cases engine? <;> rfl

namespace ExternalEngine

/-- An opening is recorded with the workspace that it ends in. -/
theorem records_openWorkspace (engine : ExternalEngine σ) (name : ι) (directory : Bytes) :
    Session.Records ((engine.recorded name).openWorkspace directory)
      (engine.openWorkspace directory) fun answer plain calls =>
        answer = plain ∧
          calls = plain.toOption.toList.map fun workspace => .opened (name, workspace) := by
  rw [← bind_pure (engine.openWorkspace directory)]
  refine .beside_bind fun answer => ?_
  cases answer with
  | error error => exact .pure ⟨rfl, rfl⟩
  | ok workspace => exact .record_bind (.pure ⟨rfl, rfl⟩)

theorem records_closeWorkspace (engine : ExternalEngine σ) (name : ι) (workspace : WorkspaceId) :
    Session.Records ((engine.recorded name).closeWorkspace workspace)
      (engine.closeWorkspace workspace) fun answer plain calls =>
        answer = plain ∧ calls = [.closing (name, workspace)] := by
  refine .record_bind ((Session.Records.beside _).mono ?_)
  rintro _ _ _ ⟨rfl, rfl⟩
  exact ⟨rfl, rfl⟩

theorem records_printFile (engine : ExternalEngine σ) (name : ι) (workspace : WorkspaceId)
    (options : JsonObject) (parser file code : Bytes) :
    Session.Records ((engine.recorded name).printFile workspace options parser file code)
      (engine.printFile workspace options parser file code) fun answer plain calls =>
        answer = plain ∧ calls = [.printing (name, workspace)] := by
  refine .record_bind ((Session.Records.beside _).mono ?_)
  rintro _ _ _ ⟨rfl, rfl⟩
  exact ⟨rfl, rfl⟩

end ExternalEngine

end FormatServer
