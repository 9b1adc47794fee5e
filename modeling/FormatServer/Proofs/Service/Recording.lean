import FormatServer.Proofs.Engine.Recording
import FormatServer.Service.Setup

namespace FormatServer

open Session

variable {ι σ π : Type}

/-- A lease of a recorded engine. -/
def WorkspaceLease.recorded (lease : WorkspaceLease σ) (name : ι) :
    WorkspaceLease (Recorded ι σ) :=
  match lease with
  | idle engine? => .idle (engine?.map fun engine => engine.recorded name)
  | held engine workspace languages => .held (engine.recorded name) workspace languages
  | failed => .failed
  | released languages => .released languages

/-- A formatter over recorded engines. -/
def TreeFormatter.recorded (formatter : TreeFormatter σ π) (name : ι) :
    TreeFormatter (Recorded ι σ) π where
  config := formatter.config
  ignored := formatter.ignored
  lease := formatter.lease.recorded name
  native := formatter.native.map NativeEngine.recorded

/-- What formatters over recorded engines are built with. -/
def EngineSet.recorded (engines : EngineSet σ π) (name : ι) : EngineSet (Recorded ι σ) π where
  external := engines.external.map fun engine => engine.recorded name
  native := engines.native.map NativeEngine.recorded

namespace WorkspaceLease

/-- The workspace that a lease of a named engine holds. -/
def holding (lease : WorkspaceLease σ) (name : ι) : Option (EngineWorkspace ι) :=
  lease.workspace?.map fun workspace => (name, workspace)

@[simp] theorem languages_recorded (lease : WorkspaceLease σ) (name : ι) :
    (lease.recorded name).languages = lease.languages := by
  cases lease <;> rfl

theorem engine?_recorded (lease : WorkspaceLease σ) (name : ι) :
    (lease.recorded name).engine? = lease.engine?.map fun engine => engine.recorded name := by
  cases lease <;> rfl

/-- Acquiring a fresh lease opens the workspace that it then holds, and no other. -/
theorem records_acquire (engine? : Option (ExternalEngine σ)) (name : ι) (root : Bytes)
    (threads : UInt32) :
    Records (((idle engine?).recorded name).acquire root threads)
      ((idle engine?).acquire root threads) fun lease plain calls =>
        lease = plain.recorded name ∧ calls = (plain.holding name).toList.map .opened := by
  cases engine? with
  | none => exact .pure ⟨rfl, rfl⟩
  | some engine =>
      refine .beside_bind fun reported => ?_
      cases reported with
      | error error => exact .write_bind (.pure ⟨rfl, rfl⟩)
      | ok reported =>
          refine (engine.records_openWorkspace name root).bind ?_
          rintro answer _ _ ⟨rfl, rfl⟩
          cases answer with
          | error error => exact .write_bind (.pure ⟨rfl, rfl⟩)
          | ok workspace => exact .write_bind (.pure ⟨rfl, rfl⟩)

/-- Releasing a lease closes the workspace that it holds, and no other. -/
theorem records_release (lease : WorkspaceLease σ) (name : ι) :
    Records (lease.recorded name).release lease.release fun _ _ calls =>
      calls = (lease.holding name).toList.map .closing := by
  cases lease with
  | idle engine? => exact .pure rfl
  | failed => exact .pure rfl
  | released languages => exact .pure rfl
  | held engine workspace languages =>
      refine (engine.records_closeWorkspace name workspace).bind ?_
      rintro answer _ _ ⟨rfl, rfl⟩
      cases answer with
      | error error => exact .write_bind (.pure rfl)
      | ok done => exact .pure rfl

/-- Calls that format a file in the workspace that a lease holds, if any. -/
def MayPrint (lease : WorkspaceLease σ) (name : ι) (calls : List (WorkspaceCall ι)) : Prop :=
  calls = [] ∨ ∃ workspace, lease.holding name = some workspace ∧ calls = [.printing workspace]

end WorkspaceLease

namespace TreeFormatter

/-- Computations with the same result, while the workspace of a formatter may have been used. -/
abbrev RecordsPrinting {α : Type} (formatter : TreeFormatter σ π) (name : ι)
    (recorded : Session (Recorded ι σ) α) (plain : Session σ α) : Prop :=
  Records recorded plain fun result plainResult calls =>
    result = plainResult ∧ formatter.lease.MayPrint name calls

variable (formatter : TreeFormatter σ π) (name : ι)

theorem records_skip {α : Type} (parts : List Bytes) :
    formatter.RecordsPrinting name (skip (α := α) parts) (skip parts) :=
  .write_bind (.pure ⟨rfl, .inl rfl⟩)

/-- The native engine has no part in workspaces. -/
theorem records_printScript (path : Bytes) (kind : ScriptKind) (options : NativeOptions)
    (external : JsonObject) (newline : Bool) (source : Bytes) :
    formatter.RecordsPrinting name
      ((formatter.recorded name).printScript path kind options external newline source)
      (formatter.printScript path kind options external newline source) := by
  unfold printScript
  cases present : formatter.native with
  | none =>
      simp only [recorded, present, Option.map_none]
      exact formatter.records_skip name _
  | some native =>
      simp only [recorded, present, Option.map_some, WorkspaceLease.engine?_recorded,
        NativeEngine.format_recorded]
      refine .beside_bind fun parsed => ?_
      obtain ⟨_ | program, _ | ⟨error, errors⟩⟩ := parsed
      · exact formatter.records_skip name _
      · exact formatter.records_skip name _
      · exact .beside_bind fun code => .pure ⟨rfl, .inl rfl⟩
      · exact formatter.records_skip name _

/-- The external engine is asked in the workspace that it is given. -/
theorem records_askEngine {engine : ExternalEngine σ} {workspace : WorkspaceId}
    {languages : PluginLanguages} (held : formatter.lease = .held engine workspace languages)
    (path parser : Bytes) (options : JsonObject) (newline : Bool) (source : Bytes) :
    formatter.RecordsPrinting name
      (askEngine (engine.recorded name) workspace path parser options newline source)
      (askEngine engine workspace path parser options newline source) := by
  have uses : formatter.lease.MayPrint name [.printing (name, workspace)] :=
    .inr ⟨_, by rw [held]; rfl, rfl⟩
  refine (engine.records_printFile name workspace options parser _ source).bind ?_
  rintro answer _ _ ⟨rfl, rfl⟩
  cases answer with
  | error error => exact .write_bind (.pure ⟨rfl, uses⟩)
  | ok code => exact .pure ⟨rfl, uses⟩

theorem records_askForManifest {engine : ExternalEngine σ} {workspace : WorkspaceId}
    {languages : PluginLanguages} (held : formatter.lease = .held engine workspace languages)
    (path parser : Bytes) (options : JsonObject) (sorted newline : Bool) (source : Bytes) :
    formatter.RecordsPrinting name
      (askForManifest (engine.recorded name) workspace path parser options sorted newline source)
      (askForManifest engine workspace path parser options sorted newline source) := by
  unfold askForManifest
  split
  · split
    · exact formatter.records_askEngine name held path parser options newline _
    · exact formatter.records_skip name _
  · exact formatter.records_askEngine name held path parser options newline source

/-- Formatting on a route uses no workspace but the formatter's own. -/
theorem records_formatWith (route : Route) (options : FileOptions) (source : Bytes) :
    formatter.RecordsPrinting name ((formatter.recorded name).formatWith route options source)
      (formatter.formatWith route options source) := by
  have lease : (formatter.recorded name).lease = formatter.lease.recorded name := rfl
  unfold formatWith
  rw [lease]
  -- Options of another shape than the route, and a lease that holds nothing, lead to a message.
  cases route with
  | native path kind =>
      cases options
      case native => exact formatter.records_printScript name _ _ _ _ _ source
      all_goals exact formatter.records_skip name _
  | untouched path =>
      cases formatter.lease <;> exact formatter.records_skip name _
  | external path parser =>
      cases held : formatter.lease with
      | held engine workspace languages =>
          cases options
          case external => exact formatter.records_askEngine name held _ _ _ _ source
          all_goals exact formatter.records_skip name _
      | _ => cases options <;> exact formatter.records_skip name _
  | manifest path parser =>
      cases held : formatter.lease with
      | held engine workspace languages =>
          cases options
          case manifest => exact formatter.records_askForManifest name held _ _ _ _ _ source
          all_goals exact formatter.records_skip name _
      | _ => cases options <;> exact formatter.records_skip name _

theorem records_formatText (route : Route) (source : Bytes) :
    formatter.RecordsPrinting name ((formatter.recorded name).formatText route source)
      (formatter.formatText route source) := by
  cases route with
  | untouched path => exact .pure ⟨rfl, .inl rfl⟩
  | native path kind => exact .logged_bind (formatter.records_formatWith name _ _ source)
  | external path parser => exact .logged_bind (formatter.records_formatWith name _ _ source)
  | manifest path parser => exact .logged_bind (formatter.records_formatWith name _ _ source)

theorem records_formatContent (path source : Bytes) :
    formatter.RecordsPrinting name ((formatter.recorded name).formatContent path source)
      (formatter.formatContent path source) := by
  unfold formatContent
  rw [recorded, WorkspaceLease.languages_recorded]
  split
  · exact formatter.records_skip name _
  · next route _ =>
    refine (formatter.records_formatText name route source).bind ?_
    rintro formatted _ calls ⟨rfl, printing⟩
    cases formatted with
    | none => exact .pure ⟨rfl, by rwa [List.append_nil]⟩
    | some formatted =>
        dsimp only
        split
        · exact .pure ⟨rfl, by rwa [List.append_nil]⟩
        · exact .logged_bind (.pure ⟨rfl, by rwa [List.append_nil]⟩)

/-- A request uses no workspace but the formatter's own. -/
theorem records_formatDocument (files : FileTree) (document : FileUri) (content : Option Bytes) :
    formatter.RecordsPrinting name
      ((formatter.recorded name).formatDocument files document content)
      (formatter.formatDocument files document content) := by
  unfold formatDocument
  dsimp only
  split
  · exact .pure ⟨rfl, .inl rfl⟩
  · have same : (formatter.recorded name).ignores files = formatter.ignores files := rfl
    rw [same]
    split
    · exact formatter.records_skip name _
    · split
      · exact formatter.records_formatContent name _ _
      · split
        · exact formatter.records_formatContent name _ _
        · exact formatter.records_skip name _

/-- Ending a formatter closes its workspace. -/
theorem records_close :
    Records (formatter.recorded name).close formatter.close fun _ _ calls =>
      calls = (formatter.lease.holding name).toList.map .closing := by
  refine (formatter.lease.records_release name).bind fun _ _ calls closed => ?_
  exact .pure (by rw [List.append_nil, closed])

end TreeFormatter

namespace EngineSet

variable (engines : EngineSet σ π) (name : ι)

/-- A formatter that may have been obtained, and with it the opening of the workspace that it holds
and of no other. -/
def Obtains (recorded : Option (TreeFormatter (Recorded ι σ) π))
    (plain : Option (TreeFormatter σ π)) (calls : List (WorkspaceCall ι)) : Prop :=
  recorded = plain.map (fun formatter => formatter.recorded name) ∧
    calls = (plain.bind fun formatter => formatter.lease.holding name).toList.map .opened

/-- Building a formatter opens the workspace that it then holds. -/
theorem records_build (files : FileTree) (root : FileUri) (options : Json) :
    Records ((engines.recorded name).build files root options) (engines.build files root options)
      fun formatter plain => Obtains name (some formatter) (some plain) := by
  unfold build
  refine .logged_bind (.logged_bind ?_)
  have acquires := WorkspaceLease.records_acquire engines.external name root.path defaultThreads
  dsimp only
  split
  · simp only [pure_bind]
    refine acquires.bind ?_
    rintro _ lease calls ⟨rfl, opened⟩
    exact .pure ⟨rfl, by rw [List.append_nil, opened]; rfl⟩
  · simp only [pure_bind]
    refine .write_bind (acquires.bind ?_)
    rintro _ lease calls ⟨rfl, opened⟩
    exact .pure ⟨rfl, by rw [List.append_nil, opened]; rfl⟩

theorem records_afterOptions (files : FileTree) (root : FileUri) (oldOptions newOptions : Json) :
    Records ((engines.recorded name).afterOptions files root oldOptions newOptions)
      (engines.afterOptions files root oldOptions newOptions)
      fun replacement plain => Obtains name replacement.formatter plain.formatter := by
  unfold afterOptions
  refine .logged_bind (.logged_bind ?_)
  split
  · exact .pure ⟨rfl, rfl⟩
  · refine (engines.records_build name files root newOptions).bind fun _ _ calls obtains => ?_
    exact .logged_bind (.pure (by rwa [List.append_nil]))

theorem records_afterFile (files : FileTree) (changed root : FileUri) (options : Json) :
    Records ((engines.recorded name).afterFile files changed root options)
      (engines.afterFile files changed root options)
      fun replacement plain => Obtains name replacement.formatter plain.formatter := by
  refine .write_bind ((engines.records_build name files root options).bind ?_)
  intro _ _ calls obtains
  exact .pure (by rwa [List.append_nil])

end EngineSet

/-- A formatter that comes with something else is recorded as one that comes alone. -/
theorem Session.Records.obtained {name : ι} {α β : Type} {recorded : Session (Recorded ι σ) α}
    {plain : Session σ β} {formatter : α → Option (TreeFormatter (Recorded ι σ) π)}
    {plainFormatter : β → Option (TreeFormatter σ π)}
    (records : Records recorded plain fun value plainValue =>
      EngineSet.Obtains name (formatter value) (plainFormatter plainValue)) :
    Records (do return formatter (← recorded)) (do return plainFormatter (← plain))
      (EngineSet.Obtains name) := by
  refine records.bind ?_
  intro _ _ calls obtains
  exact .pure (by rwa [List.append_nil])

end FormatServer
