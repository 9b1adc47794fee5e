import FormatServer.Proofs.Config.Agreement
import FormatServer.Proofs.Engine.Calls
import FormatServer.Proofs.Service.Answers

namespace FormatServer

namespace Session

variable {σ α β γ : Type}

/-- A computation without a result that leaves the engines alone. It may write to the log. -/
def Declines (compute : Session σ (Option α)) : Prop :=
  ∀ state, (compute.run state).1 = none ∧ (compute.run state).2.engine = state.engine

/-- A computation with a result that leaves the engines alone. It may write to the log. -/
def Answers (compute : Session σ (Option α)) : Prop :=
  ∀ state, (compute.run state).1 ≠ none ∧ (compute.run state).2.engine = state.engine

/-- A computation that asks an engine for one thing, leaves the engines alone otherwise, and lacks a
result exactly if the engine fails. -/
def AsksOnce (compute : Session σ (Option α)) (ask : Session σ (EngineResult β)) : Prop :=
  ∀ state, ∃ written,
    let asked := ask.run { state with log := state.log ++ written }
    (compute.run state).2.engine = asked.2.engine ∧
      ((compute.run state).1 = none ↔ ∃ error, asked.1 = .error error)

/-- What is logged first does not matter. -/
theorem Declines.logged_bind {result : Logged β} {next : β → Session σ (Option α)}
    (declines : Declines (next result.value)) : Declines (logged result >>= next) :=
  fun state => declines { state with log := state.log ++ result.entries }

theorem Declines.bind {compute : Session σ (Option α)} {next : Option α → Session σ (Option β)}
    (declines : Declines compute) (after : Declines (next none)) :
    Declines (compute >>= next) := by
  intro state
  obtain ⟨lacks, engine⟩ := declines state
  obtain ⟨lacksAfter, engineAfter⟩ := after (compute.run state).2
  rw [run_bind, lacks]
  exact ⟨lacksAfter, engineAfter.trans engine⟩

theorem AsksOnce.logged_bind {result : Logged γ} {next : γ → Session σ (Option α)}
    {ask : Session σ (EngineResult β)} (asks : AsksOnce (next result.value) ask) :
    AsksOnce (logged result >>= next) ask := by
  intro state
  obtain ⟨written, asked⟩ := asks { state with log := state.log ++ result.entries }
  refine ⟨result.entries ++ written, ?_⟩
  rw [← List.append_assoc]
  exact asked

/-- A request to an engine, and what is made of its answer. -/
theorem asksOnce_bind {ask : Session σ (EngineResult β)}
    {next : EngineResult β → Session σ (Option α)} (answers : ∀ value, Answers (next (.ok value)))
    (declines : ∀ error, Declines (next (.error error))) : AsksOnce (ask >>= next) ask := by
  intro state
  refine ⟨[], ?_⟩
  rw [List.append_nil, run_bind]
  change (StateT.run (next (ask.run state).1) (ask.run state).2).2.engine = (ask.run state).2.engine ∧
    (_ ↔ ∃ error, (ask.run state).1 = .error error)
  cases answer : (ask.run state).1 with
  | ok value =>
      obtain ⟨answered, engine⟩ := answers value (ask.run state).2
      exact ⟨engine, ⟨fun lacks => absurd lacks answered, fun ⟨_, fails⟩ => nomatch fails⟩⟩
  | error error =>
      obtain ⟨lacks, engine⟩ := declines error (ask.run state).2
      exact ⟨engine, ⟨fun _ => ⟨error, rfl⟩, fun _ => lacks⟩⟩

/-- What is made of the result of a request. -/
theorem AsksOnce.bind {compute : Session σ (Option α)} {next : Option α → Session σ (Option γ)}
    {ask : Session σ (EngineResult β)} (asks : AsksOnce compute ask)
    (answers : ∀ value, Answers (next (some value))) (declines : Declines (next none)) :
    AsksOnce (compute >>= next) ask := by
  intro state
  obtain ⟨written, engine, lacks⟩ := asks state
  refine ⟨written, ?_⟩
  rw [run_bind]
  cases result : (compute.run state).1 with
  | none =>
      obtain ⟨lacksAfter, engineAfter⟩ := declines (compute.run state).2
      exact ⟨engineAfter.trans engine, ⟨fun _ => lacks.mp result, fun _ => lacksAfter⟩⟩
  | some value =>
      obtain ⟨answered, engineAfter⟩ := answers value (compute.run state).2
      refine ⟨engineAfter.trans engine, ⟨fun missing => absurd missing answered, fun fails => ?_⟩⟩
      rw [result] at lacks
      exact nomatch lacks.mpr fails

end Session

/-- Whether files on a route are formatted by the external engine. -/
def Route.IsExternal : Route → Prop
  | external _ _ | manifest _ _ => True
  | native _ _ | untouched _ => False

theorem Route.IsExternal.ne_untouched {route : Route} (external : route.IsExternal)
    (path : Bytes) : route ≠ .untouched path := by
  rintro rfl
  exact external

/-- A lease of an engine whose calls are noted. -/
def WorkspaceLease.noted {σ π : Type} (lease : WorkspaceLease σ) : WorkspaceLease (Noted π σ) :=
  match lease with
  | idle engine? => .idle (engine?.map ExternalEngine.noted)
  | held engine workspace languages => .held engine.noted workspace languages
  | failed => .failed
  | released languages => .released languages

theorem WorkspaceLease.noted_eq_held {σ π : Type} {lease : WorkspaceLease σ}
    {noted : ExternalEngine (Noted π σ)} {workspace : WorkspaceId} {languages : PluginLanguages}
    (held : lease.noted = .held noted workspace languages) :
    ∃ engine, lease = .held engine workspace languages ∧ noted = engine.noted := by
  cases lease with
  | held engine workspace languages =>
      cases held
      exact ⟨engine, rfl, rfl⟩
  | _ => exact nomatch held

namespace TreeFormatter

open Session

variable {σ π : Type} {formatter : TreeFormatter σ π} {files : FileTree} {document : FileUri}
  {content : Option Bytes} {route : Route} {engine : ExternalEngine σ} {workspace : WorkspaceId}
  {languages : PluginLanguages} {parser source code : Bytes} {options : JsonObject}

/-- The text of a request: the content that comes with it, or else that of its file. -/
def IsText (files : FileTree) (document : FileUri) (content : Option Bytes) (source : Bytes) :
    Prop :=
  content = some source ∨ content = none ∧ files.read document.path = .ok source

theorem IsText.unique {first second : Bytes} (text : IsText files document content first)
    (other : IsText files document content second) : first = second := by
  rcases text with given | ⟨absent, read⟩
  · rcases other with same | ⟨absent, _⟩
    · exact Option.some.inj (given.symm.trans same)
    · exact nomatch absent.symm.trans given
  · rcases other with given | ⟨_, same⟩
    · exact nomatch absent.symm.trans given
    · exact Except.ok.inj (read.symm.trans same)

/-- What the external engine is told about a text on a route: the options, the parser and the code.
The text of a manifest is sorted if the configuration asks for it; its scripts never are. -/
inductive Sends (config : LoadedConfig) : Route → (source : Bytes) → (options : JsonObject) →
    (parser code : Bytes) → Prop
  | external {path parser source : Bytes} {options : JsonObject} {newline : Bool}
      (told : (config.optionsFor (.external path parser)).value = .external options newline) :
      Sends config (.external path parser) source options parser source
  | unsorted {path parser source : Bytes} {options : JsonObject} {newline : Bool}
      (told : (config.optionsFor (.manifest path parser)).value = .manifest options false newline) :
      Sends config (.manifest path parser) source options parser source
  | sorted {path parser source code : Bytes} {options : JsonObject} {newline : Bool}
      (told : (config.optionsFor (.manifest path parser)).value = .manifest options true newline)
      (sorts : Manifest.sort source false = .ok code) :
      Sends config (.manifest path parser) source options parser code

/-- Why a request is declined before any engine is asked. -/
inductive IsDeclined (formatter : TreeFormatter σ π) (files : FileTree) (document : FileUri)
    (content : Option Bytes) : Prop
  | unnamed (empty : document.path = [])
  | ignored (ignores : formatter.ignores files document.path = true)
  | unreadable {error : FileError} (absent : content = none)
      (fails : files.read document.path = .error error)
  | unrouted (nowhere : Route.ofPath? document.path formatter.lease.languages = none)
  | untouched {path : Bytes}
      (routed : Route.ofPath? document.path formatter.lease.languages = some (.untouched path))
  | notHeld {route : Route}
      (routed : Route.ofPath? document.path formatter.lease.languages = some route)
      (external : route.IsExternal) (notHeld : formatter.lease.stage ≠ .held)
  | unsortable {path parser source : Bytes} {options : JsonObject} {newline : Bool}
      {error : Manifest.SortError}
      (routed :
        Route.ofPath? document.path formatter.lease.languages = some (.manifest path parser))
      (told : (formatter.config.optionsFor (.manifest path parser)).value =
        .manifest options true newline)
      (text : IsText files document content source)
      (fails : Manifest.sort source false = .error error)

/-- Formats a text on a route with the settings in force. Options of another shape than the route have
no place here. -/
def formatFitted (formatter : TreeFormatter σ π) (source : Bytes) (route : Route) :
    Session σ (Option Bytes) :=
  let settings := formatter.config.settings
  match route, formatter.lease with
  | .native path kind, _ =>
    formatter.printScript path kind formatter.config.inForce.native settings.forExternal
      settings.insertFinalNewline source
  | .external path parser, .held engine workspace _ =>
    askEngine engine workspace path parser settings.forExternal settings.insertFinalNewline source
  | .manifest path parser, .held engine workspace _ =>
    askForManifest engine workspace path parser settings.forExternal settings.sortManifest
      settings.insertFinalNewline source
  | .untouched _, _ => return none
  | _, _ => skip ["External formatter bridge not available for ", route.path]

/-- The options for a route have its shape, so a mismatch is never met. -/
theorem formatText_eq_formatFitted (formatter : TreeFormatter σ π) {route : Route}
    (touched : ∀ path, route ≠ .untouched path) (source : Bytes) :
    formatter.formatText route source =
      (logged (formatter.config.optionsFor route) >>= fun _ =>
        formatter.formatFitted source route) := by
  have told := formatter.config.value_optionsFor route
  have text : formatter.formatText route source =
      (logged (formatter.config.optionsFor route) >>= fun _ =>
        formatter.formatWith route (formatter.config.optionsFor route).value source) := by
    cases route with
    | untouched path => exact absurd rfl (touched path)
    | _ => rfl
  rw [text, told]
  congr 1
  funext _
  unfold formatWith formatFitted
  cases route with
  | native path kind => rfl
  | untouched path => exact absurd rfl (touched path)
  | external path parser => cases formatter.lease <;> rfl
  | manifest path parser => cases formatter.lease <;> rfl

theorem declines_skip {α : Type} (parts : List Bytes) :
    Declines (skip parts : Session σ (Option α)) :=
  fun _ => ⟨rfl, rfl⟩

/-- Without a workspace nothing is sent. -/
theorem declines_formatFitted (external : route.IsExternal)
    (notHeld : formatter.lease.stage ≠ .held) :
    Declines (formatter.formatFitted source route) := by
  unfold formatFitted
  cases lease : formatter.lease with
  | held engine workspace languages =>
      rw [lease] at notHeld
      exact absurd rfl notHeld
  | _ =>
      cases route with
      | external path parser => exact declines_skip _
      | manifest path parser => exact declines_skip _
      | native path kind => exact external.elim
      | untouched path => exact external.elim

/-- A manifest that should be sorted and cannot be is not sent. -/
theorem declines_formatFitted_of_sort {path : Bytes} {newline : Bool} {error : Manifest.SortError}
    (told : (formatter.config.optionsFor (.manifest path parser)).value =
      .manifest options true newline)
    (fails : Manifest.sort source false = .error error) :
    Declines (formatter.formatFitted source (.manifest path parser)) := by
  rw [LoadedConfig.value_optionsFor] at told
  injection told with _ sorts
  unfold formatFitted
  cases formatter.lease with
  | held engine workspace languages =>
      dsimp only
      unfold askForManifest
      rw [sorts, if_pos rfl, fails]
      exact declines_skip _
  | _ => exact declines_skip _

/-- A text is sent once. -/
theorem asksOnce_askEngine {path : Bytes} {newline : Bool} :
    AsksOnce (askEngine engine workspace path parser options newline source)
      (engine.printFile workspace options parser (Path.filename path) source) :=
  asksOnce_bind (fun _ _ => ⟨Option.some_ne_none _, rfl⟩) (fun _ => declines_skip _)

/-- A text for the external engine is sent once, while a workspace is held. -/
theorem asksOnce_formatFitted (held : formatter.lease = .held engine workspace languages)
    (sends : Sends formatter.config route source options parser code) :
    AsksOnce (formatter.formatFitted source route)
      (engine.printFile workspace options parser (Path.filename route.path) code) := by
  unfold formatFitted
  rw [held]
  cases sends with
  | external told =>
      rw [LoadedConfig.value_optionsFor] at told
      cases told
      exact asksOnce_askEngine
  | unsorted told =>
      rw [LoadedConfig.value_optionsFor] at told
      injection told with told sorted
      dsimp only
      unfold askForManifest
      rw [sorted, ← told]
      exact asksOnce_askEngine
  | sorted told sorts =>
      rw [LoadedConfig.value_optionsFor] at told
      injection told with told sorted
      dsimp only
      unfold askForManifest
      rw [sorted, ← told, if_pos rfl, sorts]
      exact asksOnce_askEngine

/-- A request on a route that is declined has no answer. -/
theorem declines_formatContent {path : Bytes}
    (routed : Route.ofPath? path formatter.lease.languages = some route)
    (declines : Declines (formatter.formatText route source)) :
    Declines (formatter.formatContent path source) := by
  unfold formatContent
  simp only [routed]
  exact declines.bind fun _ => ⟨rfl, rfl⟩

/-- A request on a route that is sent once has an answer exactly if the sending succeeds. -/
theorem asksOnce_formatContent {path : Bytes} {ask : Session σ (EngineResult Bytes)}
    (routed : Route.ofPath? path formatter.lease.languages = some route)
    (asks : AsksOnce (formatter.formatText route source) ask) :
    AsksOnce (formatter.formatContent path source) ask := by
  unfold formatContent
  simp only [routed]
  refine asks.bind (fun formatted => ?_) fun _ => ⟨rfl, rfl⟩
  dsimp only
  split
  · exact fun _ => ⟨Option.some_ne_none _, rfl⟩
  · exact fun _ => ⟨Option.some_ne_none _, rfl⟩

/-- A request is declined if its text is, should there be one. -/
theorem declines_formatDocument_of_formatContent
    (declines : ∀ source, IsText files document content source →
      Declines (formatter.formatContent document.path source)) :
    Declines (formatter.formatDocument files document content) := by
  unfold formatDocument
  dsimp only
  split
  · exact fun _ => ⟨rfl, rfl⟩
  split
  · exact declines_skip _
  cases content with
  | some source => exact declines source (.inl rfl)
  | none =>
      cases read : files.read document.path with
      | ok source => exact declines source (.inr ⟨rfl, read⟩)
      | error error => exact declines_skip _

/-- A request that is declined has no answer and reaches no engine. -/
theorem IsDeclined.declines (declined : formatter.IsDeclined files document content) :
    Declines (formatter.formatDocument files document content) := by
  cases declined with
  | unnamed empty =>
      unfold formatDocument
      rw [if_pos empty]
      exact fun _ => ⟨rfl, rfl⟩
  | ignored ignores =>
      unfold formatDocument
      simp only [ignores, if_true]
      split
      · exact fun _ => ⟨rfl, rfl⟩
      · exact declines_skip _
  | unreadable absent fails =>
      apply declines_formatDocument_of_formatContent
      rintro source (given | ⟨_, read⟩)
      · rw [absent] at given
        exact nomatch given
      · rw [fails] at read
        exact nomatch read
  | unrouted nowhere =>
      apply declines_formatDocument_of_formatContent
      intro source _
      unfold formatContent
      simp only [nowhere]
      exact declines_skip _
  | untouched routed =>
      apply declines_formatDocument_of_formatContent
      intro source _
      exact declines_formatContent routed fun _ => ⟨rfl, rfl⟩
  | notHeld routed external notHeld =>
      apply declines_formatDocument_of_formatContent
      intro source _
      apply declines_formatContent routed
      rw [formatText_eq_formatFitted _ (external.ne_untouched)]
      exact (declines_formatFitted external notHeld).logged_bind
  | unsortable routed told text fails =>
      apply declines_formatDocument_of_formatContent
      intro source given
      apply declines_formatContent routed
      rw [formatText_eq_formatFitted _ (by simp), given.unique text]
      exact (declines_formatFitted_of_sort told fails).logged_bind

/-- What the external engine would be told about a text, unless it is a manifest that cannot be
sorted. -/
theorem exists_sends (config : LoadedConfig) (external : route.IsExternal) (source : Bytes)
    (sortable : ∀ path parser options newline error, route = .manifest path parser →
      (config.optionsFor route).value = .manifest options true newline →
        Manifest.sort source false ≠ .error error) :
    ∃ options parser code, Sends config route source options parser code := by
  cases route with
  | native path kind => exact external.elim
  | untouched path => exact external.elim
  | external path parser =>
      exact ⟨_, _, _, .external (config.value_optionsFor _)⟩
  | manifest path parser =>
      have told := config.value_optionsFor (.manifest path parser)
      cases sorts : config.settings.sortManifest with
      | false =>
          rw [sorts] at told
          exact ⟨_, _, _, .unsorted told⟩
      | true =>
          rw [sorts] at told
          cases sorted : Manifest.sort source false with
          | ok code => exact ⟨_, _, _, .sorted told sorted⟩
          | error error => exact absurd sorted (sortable _ _ _ _ _ rfl told)

/-- A request for the external engine that is not declined: its text is there, the workspace is held,
and the engine is asked once. -/
theorem asksOnce_formatDocument
    (routed : Route.ofPath? document.path formatter.lease.languages = some route)
    (external : route.IsExternal) (accepted : ¬formatter.IsDeclined files document content) :
    ∃ engine workspace languages source options parser code,
      formatter.lease = .held engine workspace languages ∧ IsText files document content source ∧
        Sends formatter.config route source options parser code ∧
        AsksOnce (formatter.formatDocument files document content)
          (engine.printFile workspace options parser (Path.filename document.path) code) := by
  have named : document.path ≠ [] := fun empty => accepted (.unnamed empty)
  have notIgnored : formatter.ignores files document.path = false :=
    Bool.eq_false_iff.mpr fun ignores => accepted (.ignored ignores)
  obtain ⟨source, text⟩ : ∃ source, IsText files document content source := by
    cases content with
    | some source => exact ⟨source, .inl rfl⟩
    | none =>
        cases read : files.read document.path with
        | ok source => exact ⟨source, .inr ⟨rfl, read⟩⟩
        | error error => exact absurd (.unreadable rfl read) accepted
  obtain ⟨engine, workspace, languages, held⟩ : ∃ engine workspace languages,
      formatter.lease = .held engine workspace languages := by
    cases lease : formatter.lease with
    | held engine workspace languages => exact ⟨engine, workspace, languages, rfl⟩
    | _ => exact absurd (.notHeld routed external (by rw [lease]; exact nofun)) accepted
  obtain ⟨options, parser, code, sends⟩ := exists_sends formatter.config external source (by
    rintro path parser options newline error rfl told fails
    exact accepted (.unsortable routed told text fails))
  refine ⟨engine, workspace, languages, source, options, parser, code, held, text, sends, ?_⟩
  rw [formatDocument_eq_formatContent formatter named notIgnored text]
  apply asksOnce_formatContent routed
  rw [formatText_eq_formatFitted _ external.ne_untouched, ← Route.path_of_ofPath? routed]
  exact (asksOnce_formatFitted held sends).logged_bind

/-- Whatever the state of a formatter, the files and the request: a request that is declined has no
answer and reaches no engine. Any other request for the external engine finds its text and an open
workspace; the engine receives one call and no other, to format the file with the options that the
configuration has for its route, and there is no answer exactly if this call fails. Formatting a text
never meets options of another shape than its route. -/
theorem request_reaches_external_engine_once (config : LoadedConfig) (ignored : Option IgnoreRules)
    (lease : WorkspaceLease σ) (native : Option (NativeEngine (Noted π σ) π)) (files : FileTree)
    (document : FileUri) (content : Option Bytes) (state : SessionState σ) :
    let formatter : TreeFormatter (Noted π σ) π :=
      { config, ignored, lease := lease.noted, native := native.map NativeEngine.noted }
    let outcome := (formatter.formatDocument files document content).run (state.noted [])
    (formatter.IsDeclined files document content →
      outcome.1 = none ∧ outcome.2.engine.calls = []) ∧
    (∀ route, Route.ofPath? document.path formatter.lease.languages = some route →
      route.IsExternal → ¬formatter.IsDeclined files document content →
      ∃ engine workspace languages source options parser code answer,
        lease = .held engine workspace languages ∧ IsText files document content source ∧
          Sends config route source options parser code ∧
          outcome.2.engine.calls =
            [.printFile workspace options parser (Path.filename document.path) code answer] ∧
          (outcome.1 = none ↔ ∃ error, answer = .error error)) ∧
    ∀ route source, (∀ path, route ≠ .untouched path) →
      formatter.formatText route source =
        (logged (config.optionsFor route) >>= fun _ => formatter.formatFitted source route) := by
  intro formatter outcome
  refine ⟨fun declined => ?_, fun route routed external accepted => ?_,
    fun _ source touched => formatter.formatText_eq_formatFitted touched source⟩
  · obtain ⟨lacks, engine⟩ := declined.declines (state.noted [])
    exact ⟨lacks, congrArg Noted.calls engine⟩
  · obtain ⟨_, workspace, languages, source, options, parser, code, held, text, sends, asks⟩ :=
      asksOnce_formatDocument routed external accepted
    obtain ⟨engine, isHeld, rfl⟩ := WorkspaceLease.noted_eq_held held
    obtain ⟨written, left, lacks⟩ := asks (state.noted [])
    exact ⟨engine, workspace, languages, source, options, parser, code, _, isHeld, text, sends,
      congrArg Noted.calls left, lacks⟩

/-- A manifest with unsorted members in a file, for an engine that returns what it gets. -/
theorem request_reaches_external_engine_once_manifest :
    let engine : ExternalEngine Unit :=
      { printFile? := some fun _ _ _ _ code => return .ok code }
    let lease : WorkspaceLease Unit := .held engine 7 {}
    let files := ({} : FileTree).insert "/w/package.json" (.file "\x7b\"b\":1,\"name\":2\x7d")
    let formatter : TreeFormatter (Noted Unit Unit) Unit :=
      { config := { root := "/w" }, ignored := none, lease := lease.noted, native := none }
    let outcome := (formatter.formatDocument files ⟨"/w/package.json"⟩ none).run
      (SessionState.noted ⟨(), []⟩ [])
    ¬formatter.IsDeclined files ⟨"/w/package.json"⟩ none ∧
      ∃ options answer, outcome.2.engine.calls =
        [.printFile 7 options "json-stringify" "package.json"
          "\x7b\"name\":2,\"b\":1\x7d" answer] ∧
        (outcome.1 = none ↔ ∃ error, answer = .error error) := by
  intro engine lease files formatter outcome
  have routed : Route.ofPath? "/w/package.json" {} =
      some (.manifest "/w/package.json" "json-stringify") := by decide
  have read : files.read "/w/package.json" = .ok "\x7b\"b\":1,\"name\":2\x7d" := by rfl
  have sorts : Manifest.sort "\x7b\"b\":1,\"name\":2\x7d" false =
      .ok "\x7b\"name\":2,\"b\":1\x7d" := by
    let first : Manifest.Member := ⟨"b", "\"b\"", "1"⟩
    let second : Manifest.Member := ⟨"name", "\"name\"", "2"⟩
    have parsed : Json.parse? "\x7b\"b\":1,\"name\":2\x7d" =
        some (.object [("b", .ofInt 1), ("name", .ofInt 2)]) := by cbv
    have scanned : Manifest.scan "\x7b\"b\":1,\"name\":2\x7d" = .ok [first, second] := by cbv
    have before : Manifest.precedes second.key first.key = true := by decide +kernel
    have ordered : Manifest.sortBy Manifest.precedes [first, second] = [second, first] := by
      simp [Manifest.sortBy, List.mergeSort, List.MergeSort.Internal.splitInTwo, before]
    rw [Manifest.sort, parsed]
    simp only [scanned, ordered]
    rfl
  have unique {source : Bytes} (text : IsText files ⟨"/w/package.json"⟩ none source) :
      source = "\x7b\"b\":1,\"name\":2\x7d" := text.unique (.inr ⟨rfl, read⟩)
  have accepted : ¬formatter.IsDeclined files ⟨"/w/package.json"⟩ none := by
    intro declined
    cases declined with
    | unnamed empty => cases empty
    | ignored ignores => cases ignores
    | unreadable absent fails => cases read.symm.trans fails
    | unrouted nowhere => cases routed.symm.trans nowhere
    | untouched untouched => cases routed.symm.trans untouched
    | notHeld _ _ notHeld => exact notHeld rfl
    | unsortable _ _ text fails =>
        rw [unique text] at fails
        cases sorts.symm.trans fails
  obtain ⟨_, _, _, source, options, parser, code, answer, held, text, sends, calls, lacks⟩ :=
    (request_reaches_external_engine_once { root := "/w" } none lease none files
      ⟨"/w/package.json"⟩ none ⟨(), []⟩).2.1 _ routed trivial accepted
  change WorkspaceLease.held engine 7 {} = _ at held
  cases held
  refine ⟨accepted, options, answer, ?_, lacks⟩
  cases sends with
  | unsorted told => cases told
  | sorted told sorted =>
      rw [unique text, sorts] at sorted
      cases sorted
      exact calls

end TreeFormatter

end FormatServer
