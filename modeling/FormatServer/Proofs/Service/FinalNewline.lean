import FormatServer.Proofs.Config.Acceptance
import FormatServer.Proofs.Service.Requests
import Mathlib.Data.List.DropRight

namespace FormatServer

/-- Whether two objects are equal but for the members with one key. -/
def JsonObject.SameExcept (key : Bytes) (first second : JsonObject) : Prop :=
  first.filter (·.1 ≠ key) = second.filter (·.1 ≠ key)

namespace JsonObject.SameExcept

variable {key : Bytes} {first second : JsonObject}

theorem get?_eq (same : SameExcept key first second) {other : Bytes} (differ : other ≠ key) :
    first.get? other = second.get? other := by
  have rest (members : JsonObject) : get? (members.filter (·.1 ≠ key)) other = get? members other :=
    get?_filter fun _ => decide_eq_true differ
  rw [← rest first, ← rest second, same]

theorem filter_eq (same : SameExcept key first second) {test : Bytes × Json → Bool}
    (drops : ∀ pair, test pair = true → pair.1 ≠ key) : first.filter test = second.filter test := by
  have later (members : JsonObject) :
      members.filter test = (members.filter (·.1 ≠ key)).filter test := by
    rw [List.filter_filter]
    refine List.filter_congr fun pair _ => ?_
    cases passes : test pair with
    | false => rfl
    | true => simp [drops pair passes]
  rw [later first, later second, same]

/-- A field with another key is decoded to the same value. -/
theorem optional_unique {α : Type} (same : SameExcept key first second) {name : String}
    (differ : (name : Bytes) ≠ key) {decode : Json → Decoded α} {default value other : α}
    (read : first.optional name decode default = .ok value)
    (otherRead : second.optional name decode default = .ok other) : value = other := by
  rw [optional, same.get?_eq differ] at read
  exact Except.ok.inj (read.symm.trans otherRead)

end JsonObject.SameExcept

namespace Settings

/-- The settings with the line end of results kept. -/
def keepingBlanks (settings : Settings) : Settings :=
  { settings with insertFinalNewline := true }

/-- Files that are equal but for the setting give the same other settings. -/
theorem Reads.keepingBlanks_unique {first second : JsonObject} {settings other : Settings}
    (reads : Reads first settings) (otherReads : Reads second other)
    (same : JsonObject.SameExcept "insertFinalNewline" first second) :
    settings.keepingBlanks = other.keepingBlanks := by
  have useTabs := same.optional_unique (by decide) reads.useTabs otherReads.useTabs
  have tabWidth := same.optional_unique (by decide) reads.tabWidth otherReads.tabWidth
  have printWidth := same.optional_unique (by decide) reads.printWidth otherReads.printWidth
  have endOfLine := same.optional_unique (by decide) reads.endOfLine otherReads.endOfLine
  have semi := same.optional_unique (by decide) reads.semi otherReads.semi
  have singleQuote := same.optional_unique (by decide) reads.singleQuote otherReads.singleQuote
  have jsxSingleQuote :=
    same.optional_unique (by decide) reads.jsxSingleQuote otherReads.jsxSingleQuote
  have quoteProps := same.optional_unique (by decide) reads.quoteProps otherReads.quoteProps
  have trailingComma :=
    same.optional_unique (by decide) reads.trailingComma otherReads.trailingComma
  have bracketSpacing :=
    same.optional_unique (by decide) reads.bracketSpacing otherReads.bracketSpacing
  have bracketSameLine :=
    same.optional_unique (by decide) reads.bracketSameLine otherReads.bracketSameLine
  have arrowParens := same.optional_unique (by decide) reads.arrowParens otherReads.arrowParens
  have sortManifest := same.optional_unique (by decide) reads.sortManifest otherReads.sortManifest
  have ignorePatterns :=
    same.optional_unique (by decide) reads.ignorePatterns otherReads.ignorePatterns
  have unknown := reads.unknown.trans otherReads.unknown.symm
  cases settings
  cases other
  simp_all only [keepingBlanks]

/-- The setting is off exactly if the file says so. -/
theorem Reads.insertFinalNewline_eq_false_iff {raw : JsonObject} {settings : Settings}
    (reads : Reads raw settings) :
    settings.insertFinalNewline = false ↔ raw.get? "insertFinalNewline" = some (.bool false) := by
  obtain ⟨present, absent⟩ := JsonObject.optional_eq_ok_iff.mp reads.insertFinalNewline
  constructor
  · intro off
    cases found : raw.get? "insertFinalNewline" with
    | none =>
        rw [absent found] at off
        contradiction
    | some member => rw [Json.decodeBool_eq_ok_iff.mp (present member found), off]
  · intro off
    exact (Json.bool.inj (Json.decodeBool_eq_ok_iff.mp (present _ off))).symm

end Settings

namespace LoadedConfig

/-- The configuration with the line end of results kept. -/
def keepingBlanks (config : LoadedConfig) : LoadedConfig :=
  { config with
    accepted := config.accepted.map fun accepted =>
      { accepted with settings := accepted.settings.keepingBlanks } }

@[simp] theorem settings_keepingBlanks (config : LoadedConfig) :
    config.keepingBlanks.settings = config.settings.keepingBlanks := by
  unfold settings inForce keepingBlanks
  cases config.accepted <;> rfl

@[simp] theorem native_keepingBlanks (config : LoadedConfig) :
    config.keepingBlanks.inForce.native = config.inForce.native := by
  unfold inForce keepingBlanks
  cases config.accepted <;> rfl

/-- Only settings that have not been accepted are logged. -/
theorem entries_optionsFor (config : LoadedConfig) (route : Route) :
    (config.optionsFor route).entries =
      if config.accepted.isNone then
        [.verbose ["resolving options of ", route.path, " from unvalidated configuration"]]
      else [] := by
  unfold optionsFor
  by_cases unchecked : config.accepted.isNone
  · rw [if_pos unchecked, if_pos unchecked]
    cases route <;> rfl
  · rw [if_neg unchecked, if_neg unchecked]
    cases route <;> rfl

/-- The setting changes nothing that is logged. -/
theorem entries_optionsFor_keepingBlanks (config : LoadedConfig) (route : Route) :
    (config.keepingBlanks.optionsFor route).entries = (config.optionsFor route).entries := by
  rw [entries_optionsFor, entries_optionsFor, keepingBlanks, Option.isNone_map]

theorem accepted_putInForce {config : LoadedConfig} {accepted : AcceptedConfig}
    (accepts : config.accept = .ok accepted) : config.putInForce.2.accepted = some accepted := by
  rw [putInForce, accepts]

/-- Files that are equal but for the setting are in force alike with the line end kept. -/
theorem keepingBlanks_unique {first second : LoadedConfig}
    {firstAccepted secondAccepted : AcceptedConfig} (firstAccepts : first.accept = .ok firstAccepted)
    (secondAccepts : second.accept = .ok secondAccepted)
    (same : JsonObject.SameExcept "insertFinalNewline" first.raw second.raw) :
    first.putInForce.2.keepingBlanks.accepted = second.putInForce.2.keepingBlanks.accepted := by
  obtain ⟨settings, reads, told, equal⟩ := accept_eq_ok_iff.mp firstAccepts
  obtain ⟨other, otherReads, otherTold, otherEqual⟩ := accept_eq_ok_iff.mp secondAccepts
  have settingsEqual := reads.keepingBlanks_unique otherReads same
  have nativeEqual : firstAccepted.native = secondAccepted.native := by
    -- The native engine is never told about the setting.
    have alike : settings.keepingBlanks.forNative = other.keepingBlanks.forNative := by
      rw [settingsEqual]
    exact Except.ok.inj (told.symm.trans (alike.trans otherTold))
  have unknownEqual : first.raw.filter (fun pair => !Settings.keys.contains pair.1) =
      second.raw.filter fun pair => !Settings.keys.contains pair.1 := by
    refine same.filter_eq fun pair unknown isKey => ?_
    rw [isKey] at unknown
    exact absurd unknown (by decide)
  rw [keepingBlanks, keepingBlanks, accepted_putInForce firstAccepts,
    accepted_putInForce secondAccepts, Option.map_some, Option.map_some, equal, otherEqual,
    nativeEqual, unknownEqual]
  exact congrArg (fun settings : Settings => some (AcceptedConfig.mk
    { settings with unknown := second.raw.filter fun pair => !Settings.keys.contains pair.1 }
    secondAccepted.native)) settingsEqual

/-- The setting in force is off exactly if the file says so. -/
theorem insertFinalNewline_eq_false_iff {config : LoadedConfig} {accepted : AcceptedConfig}
    (accepts : config.accept = .ok accepted) :
    config.putInForce.2.settings.insertFinalNewline = false ↔
      config.raw.get? "insertFinalNewline" = some (.bool false) := by
  obtain ⟨settings, reads, _, equal⟩ := accept_eq_ok_iff.mp accepts
  rw [← reads.insertFinalNewline_eq_false_iff, LoadedConfig.settings, inForce,
    accepted_putInForce accepts, Option.getD_some, equal]

end LoadedConfig

/-- A text without its blank end: blank bytes and no other are cut off, and no blank byte is last in
what is left. -/
theorem Bytes.exists_trimEnd (text : Bytes) :
    ∃ blanks, text = text.trimEnd ++ blanks ∧ (∀ byte ∈ blanks, Ascii.isSpace byte = true) ∧
      ∀ last ∈ text.trimEnd.getLast?, Ascii.isSpace last = false := by
  refine ⟨text.rtakeWhile Ascii.isSpace, (List.rdropWhile_append_rtakeWhile).symm,
    fun byte member => List.mem_rtakeWhile_imp member, fun last isLast => ?_⟩
  have remains : text.trimEnd ≠ [] := by
    intro empty
    rw [empty] at isLast
    contradiction
  rw [List.getLast?_eq_some_getLast remains] at isLast
  cases isLast
  exact Bool.eq_false_iff.mpr (List.rdropWhile_last_not _ _ remains)

/-- Of a value that nothing reads only its log matters. -/
theorem Session.logged_bind_congr {σ α β γ : Type} {first : Logged α} {second : Logged β}
    (entries : first.entries = second.entries) (next : Session σ γ) :
    (logged first >>= fun _ => next) = (logged second >>= fun _ => next) := by
  funext state
  change next.run { state with log := state.log ++ first.entries } = next.run _
  rw [entries]

namespace TreeFormatter

open Session

variable {σ π : Type} {engine : ExternalEngine σ} {workspace : WorkspaceId}
  {path parser source text : Bytes} {options : JsonObject} {state : SessionState σ}

/-- The formatter with the line end of results kept. -/
def keepingBlanks (formatter : TreeFormatter σ π) : TreeFormatter σ π :=
  { formatter with config := formatter.config.keepingBlanks }

/-- What the engines print for a text on a route, in a state of theirs: the native engine for a script
that it parses without errors, the external one for a text that it is sent. -/
inductive EnginePrints (formatter : TreeFormatter σ π) (source : Bytes) (state : SessionState σ) :
    Route → (text : Bytes) → Prop
  | script {path text : Bytes} {kind : ScriptKind} {native : NativeEngine σ π} {program : π}
      (present : formatter.native = some native)
      (parses : ((native.parse source kind.allowTags).run state).1 = ⟨some program, []⟩)
      (prints : ((native.format program formatter.config.inForce.native
          (formatter.lease.engine?.map (·.toTagged formatter.config.settings.forExternal))).run
        ((native.parse source kind.allowTags).run state).2).1 = text) :
      EnginePrints formatter source state (.native path kind) text
  | file {route : Route} {options : JsonObject} {parser code text : Bytes}
      {engine : ExternalEngine σ} {workspace : WorkspaceId} {languages : PluginLanguages}
      (held : formatter.lease = .held engine workspace languages)
      (sends : Sends formatter.config route source options parser code)
      (prints : ((engine.printFile workspace options parser (Path.filename route.path) code).run
        state).1 = .ok text) : EnginePrints formatter source state route text

/-- A script is printed first and loses its blank end then. -/
theorem printScript_eq_map (formatter : TreeFormatter σ π) (kind : ScriptKind)
    (native : NativeOptions) (newline : Bool) :
    formatter.printScript path kind native options newline source =
      Option.map (withFinalNewline newline) <$>
        formatter.printScript path kind native options true source := by
  unfold printScript
  cases formatter.native with
  | none => rfl
  | some engine =>
      dsimp only
      rw [map_bind]
      congr 1
      funext parsed
      split
      · rfl
      · rfl

/-- A file is printed first and loses its blank end then. -/
theorem askEngine_eq_map (newline : Bool) :
    askEngine engine workspace path parser options newline source =
      Option.map (withFinalNewline newline) <$>
        askEngine engine workspace path parser options true source := by
  unfold askEngine
  rw [map_bind]
  congr 1
  funext answer
  cases answer <;> rfl

theorem askForManifest_eq_map (sorted newline : Bool) :
    askForManifest engine workspace path parser options sorted newline source =
      Option.map (withFinalNewline newline) <$>
        askForManifest engine workspace path parser options sorted true source := by
  unfold askForManifest
  split
  · split
    · exact askEngine_eq_map newline
    · rfl
  · exact askEngine_eq_map newline

/-- The setting matters only once a text is printed. -/
theorem formatFitted_eq_map (formatter : TreeFormatter σ π) (route : Route) :
    formatter.formatFitted source route =
      Option.map (withFinalNewline formatter.config.settings.insertFinalNewline) <$>
        formatter.keepingBlanks.formatFitted source route := by
  unfold formatFitted
  simp only [keepingBlanks, LoadedConfig.settings_keepingBlanks, LoadedConfig.native_keepingBlanks]
  cases route with
  | native path kind => exact formatter.printScript_eq_map kind _ _
  | untouched path => rfl
  | external path parser =>
      cases formatter.lease with
      | held engine workspace languages => exact askEngine_eq_map _
      | _ => rfl
  | manifest path parser =>
      cases formatter.lease with
      | held engine workspace languages => exact askForManifest_eq_map _ _
      | _ => rfl

/-- A result is what it is with the line end kept, without its blank end if the setting is off. -/
theorem formatText_eq_map (formatter : TreeFormatter σ π) (route : Route) (source : Bytes) :
    formatter.formatText route source =
      Option.map (withFinalNewline formatter.config.settings.insertFinalNewline) <$>
        formatter.keepingBlanks.formatText route source := by
  by_cases touched : ∀ path, route ≠ .untouched path
  · rw [formatText_eq_formatFitted _ touched, formatText_eq_formatFitted _ touched, map_bind,
      formatFitted_eq_map]
    exact logged_bind_congr (formatter.config.entries_optionsFor_keepingBlanks route).symm _
  · simp only [not_forall, not_not] at touched
    obtain ⟨path, rfl⟩ := touched
    rfl

/-- A text that is sent to the external engine has the result that the engine gives. -/
theorem askEngine_eq_some_iff :
    ((askEngine engine workspace path parser options true source).run state).1 = some text ↔
      ((engine.printFile workspace options parser (Path.filename path) source).run state).1 =
        .ok text := by
  unfold askEngine
  rw [run_bind]
  cases answer : ((engine.printFile workspace options parser (Path.filename path) source).run
    state).1 with
  | ok code =>
      change some (withFinalNewline true code) = some text ↔ _
      simp [withFinalNewline]
  | error error => simp [skip]

/-- A manifest that is sent has the result that the engine gives for what is sent. -/
theorem askForManifest_eq_some_iff {sorted : Bool} :
    ((askForManifest engine workspace path parser options sorted true source).run state).1 =
        some text ↔
      ∃ code, (sorted = false ∧ code = source ∨
          sorted = true ∧ Manifest.sort source false = .ok code) ∧
        ((engine.printFile workspace options parser (Path.filename path) code).run state).1 =
          .ok text := by
  unfold askForManifest
  cases sorted with
  | false => simp [askEngine_eq_some_iff]
  | true =>
      cases sorts : Manifest.sort source false with
      | ok code => simp [askEngine_eq_some_iff]
      | error error => simp [skip]

/-- A script has the result that the native engine prints for its program. -/
theorem printScript_eq_some_iff (formatter : TreeFormatter σ π) {kind : ScriptKind}
    {native : NativeOptions} :
    ((formatter.printScript path kind native options true source).run state).1 = some text ↔
      ∃ engine program, formatter.native = some engine ∧
        ((engine.parse source kind.allowTags).run state).1 = ⟨some program, []⟩ ∧
        ((engine.format program native (formatter.lease.engine?.map (·.toTagged options))).run
          ((engine.parse source kind.allowTags).run state).2).1 = text := by
  unfold printScript
  cases present : formatter.native with
  | none => simp [skip]
  | some engine =>
      dsimp only
      rw [run_bind]
      rcases parsed : (engine.parse source kind.allowTags).run state with
        ⟨⟨_ | program, errors⟩, after⟩
      · simp [skip, parsed]
      · cases errors with
        | nil =>
            change some (withFinalNewline true ((engine.format program native _).run after).1) =
              some text ↔ _
            simp [withFinalNewline, parsed]
        | cons error errors => simp [skip, parsed]

/-- With the line end kept a script has the result that the native engine prints. -/
theorem formatFitted_native_eq_some_iff (formatter : TreeFormatter σ π) {kind : ScriptKind} :
    ((formatter.keepingBlanks.formatFitted source (.native path kind)).run state).1 = some text ↔
      formatter.EnginePrints source state (.native path kind) text := by
  unfold formatFitted
  simp only [keepingBlanks, LoadedConfig.settings_keepingBlanks, LoadedConfig.native_keepingBlanks]
  refine (printScript_eq_some_iff _).trans ⟨?_, fun prints => ?_⟩
  · rintro ⟨engine, program, present, parses, prints⟩
    exact .script present parses prints
  · cases prints with
    | script present parses prints => exact ⟨_, _, present, parses, prints⟩
    | file _ sends _ => cases sends

/-- With the line end kept a file has the result that the external engine prints. -/
theorem formatFitted_external_eq_some_iff (formatter : TreeFormatter σ π) :
    ((formatter.keepingBlanks.formatFitted source (.external path parser)).run state).1 =
        some text ↔
      formatter.EnginePrints source state (.external path parser) text := by
  have told := formatter.config.value_optionsFor (.external path parser)
  unfold formatFitted
  simp only [keepingBlanks, LoadedConfig.settings_keepingBlanks]
  cases held : formatter.lease with
  | held engine workspace languages =>
      refine askEngine_eq_some_iff.trans ⟨.file held (.external told), fun prints => ?_⟩
      cases prints with
      | file sameLease sends prints =>
          cases held.symm.trans sameLease
          cases sends with
          | external sameOptions =>
              cases told.symm.trans sameOptions
              exact prints
  | _ =>
      refine ⟨nofun, fun prints => ?_⟩
      cases prints with
      | file sameLease _ _ => exact nomatch held.symm.trans sameLease

/-- With the line end kept a manifest has the result that the external engine prints. -/
theorem formatFitted_manifest_eq_some_iff (formatter : TreeFormatter σ π) :
    ((formatter.keepingBlanks.formatFitted source (.manifest path parser)).run state).1 =
        some text ↔
      formatter.EnginePrints source state (.manifest path parser) text := by
  have told := formatter.config.value_optionsFor (.manifest path parser)
  unfold formatFitted
  simp only [keepingBlanks, LoadedConfig.settings_keepingBlanks]
  cases held : formatter.lease with
  | held engine workspace languages =>
      refine askForManifest_eq_some_iff.trans ⟨?_, fun prints => ?_⟩
      · rintro ⟨code, ⟨off, rfl⟩ | ⟨on, sorts⟩, prints⟩
        · exact .file held (.unsorted (told.trans (by rw [← off]; rfl))) prints
        · exact .file held (.sorted (told.trans (by rw [← on]; rfl)) sorts) prints
      · cases prints with
        | file sameLease sends prints =>
            cases held.symm.trans sameLease
            cases sends with
            | unsorted sameOptions =>
                injection told.symm.trans sameOptions with options sorted
                exact ⟨_, .inl ⟨sorted, rfl⟩, options ▸ prints⟩
            | sorted sameOptions sorts =>
                injection told.symm.trans sameOptions with options sorted
                exact ⟨_, .inr ⟨sorted, sorts⟩, options ▸ prints⟩
  | _ =>
      refine ⟨nofun, fun prints => ?_⟩
      cases prints with
      | file sameLease _ _ => exact nomatch held.symm.trans sameLease

/-- With an accepted configuration nothing is logged about it. -/
theorem formatText_of_accepted {formatter : TreeFormatter σ π}
    (accepted : formatter.config.accepted.isNone = false) {route : Route}
    (touched : ∀ path, route ≠ .untouched path) (source : Bytes) :
    formatter.formatText route source = formatter.formatFitted source route := by
  have entries : (formatter.config.optionsFor route).entries = (pure () : Logged Unit).entries := by
    rw [LoadedConfig.entries_optionsFor, accepted]
    rfl
  rw [formatText_eq_formatFitted _ touched, logged_bind_congr entries]
  funext state
  change (formatter.formatFitted source route).run { state with log := state.log ++ [] } = _
  rw [List.append_nil]
  rfl

/-- With an accepted configuration and the line end kept a result is what the engines print. -/
theorem formatText_keepingBlanks_eq_some_iff (formatter : TreeFormatter σ π)
    (accepted : formatter.config.accepted.isNone = false) (route : Route) :
    ((formatter.keepingBlanks.formatText route source).run state).1 = some text ↔
      formatter.EnginePrints source state route text := by
  have keeps : formatter.keepingBlanks.config.accepted.isNone = false := by
    rw [keepingBlanks, LoadedConfig.keepingBlanks, Option.isNone_map, accepted]
  cases route with
  | untouched path =>
      refine ⟨nofun, fun prints => ?_⟩
      cases prints with
      | file _ sends _ => cases sends
  | native path kind =>
      rw [formatText_of_accepted keeps (by simp), formatFitted_native_eq_some_iff]
  | external path parser =>
      rw [formatText_of_accepted keeps (by simp), formatFitted_external_eq_some_iff]
  | manifest path parser =>
      rw [formatText_of_accepted keeps (by simp), formatFitted_manifest_eq_some_iff]

/-- Two formatters with the same accepted configuration, engines and workspace format alike. -/
theorem formatText_congr (first second : TreeFormatter σ π)
    (config : first.config.accepted = second.config.accepted) (lease : first.lease = second.lease)
    (native : first.native = second.native) (route : Route) (source : Bytes) :
    first.formatText route source = second.formatText route source := by
  have inForce : first.config.inForce = second.config.inForce := by
    rw [LoadedConfig.inForce, config]
    rfl
  by_cases touched : ∀ path, route ≠ .untouched path
  · have entries : (first.config.optionsFor route).entries =
        (second.config.optionsFor route).entries := by
      rw [LoadedConfig.entries_optionsFor, LoadedConfig.entries_optionsFor, config]
    rw [formatText_eq_formatFitted _ touched, formatText_eq_formatFitted _ touched,
      logged_bind_congr entries]
    unfold formatFitted printScript LoadedConfig.settings
    rw [inForce, lease, native]
  · simp only [not_forall, not_not] at touched
    obtain ⟨path, rfl⟩ := touched
    rfl

/-- A result is what it is with the line end kept, or that without its blank end. -/
theorem map_withFinalNewline (newline : Bool) (printed : Option Bytes) :
    (newline = true → printed.map (withFinalNewline newline) = printed) ∧
      (newline = false → (printed = none → printed.map (withFinalNewline newline) = none) ∧
        ∀ text, printed = some text → ∃ kept blanks,
          printed.map (withFinalNewline newline) = some kept ∧ text = kept ++ blanks ∧
            (∀ byte ∈ blanks, Ascii.isSpace byte = true) ∧
            ∀ last ∈ kept.getLast?, Ascii.isSpace last = false) := by
  constructor
  · rintro rfl
    cases printed <;> rfl
  · rintro rfl
    refine ⟨fun none => by rw [none]; rfl, ?_⟩
    rintro text rfl
    obtain ⟨blanks, parts, areBlank, ends⟩ := Bytes.exists_trimEnd text
    exact ⟨text.trimEnd, blanks, rfl, parts, areBlank, ends⟩

/-- Two configuration files are accepted and equal but for the setting that keeps the line end of
results. Then formatting a text makes the same calls of the engines under both, which leave the same
state and the same log, and has a result under both or neither. The result is what the engines print,
and if the setting is off, that without the blank bytes at its end. -/
theorem final_newline_setting_changes_only_end {first second : LoadedConfig}
    (firstAccepts : ∃ accepted, first.accept = .ok accepted)
    (secondAccepts : ∃ accepted, second.accept = .ok accepted)
    (same : JsonObject.SameExcept "insertFinalNewline" first.raw second.raw)
    (ignored : Option IgnoreRules) (lease : WorkspaceLease σ)
    (native : Option (NativeEngine (Noted π σ) π)) (route : Route) (source : Bytes)
    (state : SessionState σ) :
    let formatter (config : LoadedConfig) : TreeFormatter (Noted π σ) π :=
      { config := config.putInForce.2, ignored, lease := lease.noted
        native := native.map NativeEngine.noted }
    let outcome (config : LoadedConfig) :=
      ((formatter config).formatText route source).run (state.noted [])
    (outcome first).2 = (outcome second).2 ∧
      ∃ printed : Option Bytes, ∀ config ∈ [first, second],
        (∀ text, printed = some text ↔
          (formatter config).EnginePrints source (state.noted []) route text) ∧
        (config.raw.get? "insertFinalNewline" ≠ some (.bool false) →
          (outcome config).1 = printed) ∧
        (config.raw.get? "insertFinalNewline" = some (.bool false) →
          (printed = none → (outcome config).1 = none) ∧
          ∀ text, printed = some text → ∃ kept blanks, (outcome config).1 = some kept ∧
            text = kept ++ blanks ∧ (∀ byte ∈ blanks, Ascii.isSpace byte = true) ∧
            ∀ last ∈ kept.getLast?, Ascii.isSpace last = false) := by
  intro formatter outcome
  let printing (config : LoadedConfig) :=
    ((formatter config).keepingBlanks.formatText route source).run (state.noted [])
  have alike : printing first = printing second := by
    obtain ⟨_, firstAccepts⟩ := firstAccepts
    obtain ⟨_, secondAccepts⟩ := secondAccepts
    have inForce := LoadedConfig.keepingBlanks_unique firstAccepts secondAccepts same
    exact congrArg (fun compute => compute.run (state.noted []))
      (formatText_congr (formatter first).keepingBlanks (formatter second).keepingBlanks inForce
        rfl rfl route source)
  have changed (config : LoadedConfig) : outcome config =
      ((printing config).1.map
        (withFinalNewline config.putInForce.2.settings.insertFinalNewline), (printing config).2) :=
    congrArg (fun compute => compute.run (state.noted []))
      ((formatter config).formatText_eq_map route source)
  have described (config : LoadedConfig) (member : config ∈ [first, second]) :
      (∃ accepted, config.accept = .ok accepted) ∧ printing first = printing config := by
    rcases List.mem_cons.mp member with rfl | inRest
    · exact ⟨firstAccepts, rfl⟩
    · obtain rfl := List.mem_singleton.mp inRest
      exact ⟨secondAccepts, alike⟩
  refine ⟨by rw [changed first, changed second, alike], (printing first).1,
    fun config member => ?_⟩
  obtain ⟨⟨accepted, accepts⟩, isPrinting⟩ := described config member
  have inForce := LoadedConfig.accepted_putInForce accepts
  have off := LoadedConfig.insertFinalNewline_eq_false_iff accepts
  obtain ⟨keeps, cuts⟩ := map_withFinalNewline
    config.putInForce.2.settings.insertFinalNewline (printing config).1
  rw [changed config, isPrinting]
  refine ⟨fun text => ?_, fun on => keeps ?_, fun isOff => cuts (off.mpr isOff)⟩
  · exact (formatter config).formatText_keepingBlanks_eq_some_iff (by rw [inForce]; rfl) route
  · exact Bool.eq_true_of_not_eq_false fun isOff => on (off.mp isOff)

/-- A style sheet for an engine that returns what it gets: its blank end goes if the setting is off. -/
theorem final_newline_setting_changes_only_end_style_sheet :
    let first : LoadedConfig := { root := "/w", raw := [("insertFinalNewline", .bool false)] }
    let second : LoadedConfig := { root := "/w" }
    let engine : ExternalEngine Unit :=
      { printFile? := some fun _ _ _ _ code => return .ok code }
    let lease : WorkspaceLease Unit := .held engine 7 {}
    let outcome (config : LoadedConfig) :=
      (formatText
        ({ config := config.putInForce.2, ignored := none, lease := lease.noted, native := none } :
          TreeFormatter (Noted Unit Unit) Unit)
        (.external "/w/a.css" "css") "a \n").run (SessionState.noted ⟨(), []⟩ [])
    (∃ accepted, first.accept = .ok accepted) ∧ (∃ accepted, second.accept = .ok accepted) ∧
      JsonObject.SameExcept "insertFinalNewline" first.raw second.raw ∧
      (outcome first).2 = (outcome second).2 ∧ (outcome second).1 = some "a \n" ∧
      ∃ kept blanks, (outcome first).1 = some kept ∧ Bytes.ofString "a \n" = kept ++ blanks ∧
        (∀ byte ∈ blanks, Ascii.isSpace byte = true) ∧
        ∀ last ∈ kept.getLast?, Ascii.isSpace last = false := by
  intro first second engine lease outcome
  have firstAccepts : ∃ accepted, first.accept = .ok accepted := ⟨_, rfl⟩
  have secondAccepts : ∃ accepted, second.accept = .ok accepted := ⟨_, rfl⟩
  have same : JsonObject.SameExcept "insertFinalNewline" first.raw second.raw := rfl
  obtain ⟨sameState, printed, described⟩ := final_newline_setting_changes_only_end firstAccepts
    secondAccepts same none lease (none : Option (NativeEngine (Noted Unit Unit) Unit))
    (.external "/w/a.css" "css") "a \n" ⟨(), []⟩
  obtain ⟨_, _, cut⟩ := described first (by simp)
  obtain ⟨_, whole, _⟩ := described second (by simp)
  have result : (outcome second).1 = some (Bytes.ofString "a \n") := rfl
  exact ⟨firstAccepts, secondAccepts, same, sameState, result,
    (cut rfl).2 _ ((whole nofun).symm.trans result)⟩

end TreeFormatter

end FormatServer
