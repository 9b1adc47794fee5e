import FormatServer.Config.Loaded
import FormatServer.Proofs.Json.Objects

namespace FormatServer

namespace Settings

/-- The members by which the external engine is told the settings. -/
def members (settings : Settings) : List (Bytes × Json) :=
  [("useTabs", .bool settings.useTabs),
    ("tabWidth", .number (.signed settings.tabWidth)),
    ("printWidth", .number (.signed settings.printWidth)),
    ("endOfLine", .string settings.endOfLine),
    ("semi", .bool settings.semi),
    ("singleQuote", .bool settings.singleQuote),
    ("jsxSingleQuote", .bool settings.jsxSingleQuote),
    ("quoteProps", .string settings.quoteProps),
    ("trailingComma", .string settings.trailingComma),
    ("bracketSpacing", .bool settings.bracketSpacing),
    ("bracketSameLine", .bool settings.bracketSameLine),
    ("arrowParens", .string settings.arrowParens)]

/-- The settings that the external engine is told have the first of the keys. -/
theorem map_fst_members (settings : Settings) : settings.members.map (·.1) = keys.take 12 := rfl

/-- The external engine is told the settings, and over them the members of the file that are none. -/
theorem forExternal_eq (settings : Settings) :
    settings.forExternal = (settings.unknown.filter fun pair => !serverKeys.contains pair.1).foldl
      (fun options pair => options.insert pair.1 pair.2) (JsonObject.ofMembers settings.members) :=
  rfl

/-- Members of the file that are no settings do not hide a setting from the external engine. -/
theorem get?_forExternal {settings : Settings}
    (unknown : ∀ pair ∈ settings.unknown, pair.1 ∉ keys) {key : Bytes} {value : Json}
    (member : (key, value) ∈ settings.members) :
    JsonObject.get? settings.forExternal key = some value := by
  have isKey : key ∈ keys := by
    have found : key ∈ settings.members.map (·.1) := List.mem_map_of_mem member
    rw [map_fst_members] at found
    exact List.mem_of_mem_take found
  have absent : (settings.unknown.filter fun pair => !serverKeys.contains pair.1).filter
      (·.1 = key) = [] := by
    refine List.filter_eq_nil_iff.mpr fun pair inFile same => ?_
    exact unknown pair (List.mem_filter.mp inFile).1 (of_decide_eq_true same ▸ isKey)
  have distinct : (settings.members.map (·.1)).Nodup := by
    rw [map_fst_members]
    decide
  rw [forExternal_eq, JsonObject.get?_foldl_insert, absent, List.getLast?_nil, Option.map_none,
    Option.none_or]
  exact JsonObject.get?_ofMembers_of_mem distinct member

/-- Settings that the native engine is told about have positive widths and listed spellings. -/
theorem forNative_eq_ok {settings : Settings} {native : NativeOptions}
    (accepted : settings.forNative = .ok native) :
    0 < settings.tabWidth ∧ 0 < settings.printWidth ∧
      native = {
        useTabs := settings.useTabs
        tabWidth := settings.tabWidth.toInt32
        printWidth := settings.printWidth.toInt32
        endOfLine := native.endOfLine
        semi := settings.semi
        singleQuote := settings.singleQuote
        jsxSingleQuote := settings.jsxSingleQuote
        quoteProps := native.quoteProps
        trailingComma := native.trailingComma
        bracketSpacing := settings.bracketSpacing
        bracketSameLine := settings.bracketSameLine
        arrowParens := native.arrowParens } ∧
      native.endOfLine.spelling = settings.endOfLine ∧
      native.quoteProps.spelling = settings.quoteProps ∧
      native.trailingComma.spelling = settings.trailingComma ∧
      native.arrowParens.spelling = settings.arrowParens := by
  simp only [forNative] at accepted
  split at accepted
  · exact nomatch accepted
  next tabWidth =>
  split at accepted
  · exact nomatch accepted
  next printWidth =>
  -- Each choice is made or ends the check.
  split at accepted
  rotate_left
  · exact nomatch accepted
  next endOfLine =>
  split at accepted
  rotate_left
  · exact nomatch accepted
  next quoteProps =>
  split at accepted
  rotate_left
  · exact nomatch accepted
  next trailingComma =>
  split at accepted
  rotate_left
  · exact nomatch accepted
  next arrowParens =>
  cases accepted
  exact ⟨Int64.not_le.mp tabWidth, Int64.not_le.mp printWidth, rfl,
    EndOfLine.spelling_of_ofSpelling? endOfLine, QuoteProps.spelling_of_ofSpelling? quoteProps,
    TrailingComma.spelling_of_ofSpelling? trailingComma,
    ArrowParens.spelling_of_ofSpelling? arrowParens⟩

end Settings

/-- Whether a width means the same to both engines: it is positive, and equal to the one that the
external engine is told. -/
structure SameWidth (native : Int32) (sent : Int64) : Prop where
  positive : 0 < native.toInt
  equal : native.toInt = sent.toInt

/-- A positive width stays the same if it fits into 32 bits with a sign, and only then. -/
theorem sameWidth_toInt32_iff {sent : Int64} (positive : 0 < sent.toInt) :
    SameWidth sent.toInt32 sent ↔ sent.toInt < 2 ^ 31 := by
  constructor
  · rintro ⟨_, equal⟩
    exact equal ▸ sent.toInt32.toInt_lt
  · intro fits
    have kept : sent.toInt32.toInt = sent.toInt := by
      rw [Int64.toInt_toInt32]
      exact Int.bmod_eq_of_le (by omega) (by omega)
    exact ⟨kept ▸ positive, kept⟩

/-- Whether the engines are told the same about all switches and choices. -/
structure SameSettings (native : NativeOptions) (external : JsonObject) : Prop where
  useTabs : external.get? "useTabs" = some (.bool native.useTabs)
  semi : external.get? "semi" = some (.bool native.semi)
  singleQuote : external.get? "singleQuote" = some (.bool native.singleQuote)
  jsxSingleQuote : external.get? "jsxSingleQuote" = some (.bool native.jsxSingleQuote)
  bracketSpacing : external.get? "bracketSpacing" = some (.bool native.bracketSpacing)
  bracketSameLine : external.get? "bracketSameLine" = some (.bool native.bracketSameLine)
  endOfLine : external.get? "endOfLine" = some (.string native.endOfLine.spelling)
  quoteProps : external.get? "quoteProps" = some (.string native.quoteProps.spelling)
  trailingComma : external.get? "trailingComma" = some (.string native.trailingComma.spelling)
  arrowParens : external.get? "arrowParens" = some (.string native.arrowParens.spelling)

/-- Settings that the native engine is told about say the same to the external one. -/
theorem Settings.sameSettings {settings : Settings} {native : NativeOptions}
    (accepted : settings.forNative = .ok native)
    (unknown : ∀ pair ∈ settings.unknown, pair.1 ∉ keys) :
    SameSettings native settings.forExternal := by
  obtain ⟨_, _, equal, endOfLine, quoteProps, trailingComma, arrowParens⟩ :=
    forNative_eq_ok accepted
  have sent {key : Bytes} {value : Json} (member : (key, value) ∈ settings.members) :=
    get?_forExternal unknown member
  rw [equal]
  constructor
  all_goals
    simp only [endOfLine, quoteProps, trailingComma, arrowParens]
    exact sent (by simp [members])

namespace LoadedConfig

/-- What is accepted: settings that the native engine is told about, and members of the file that
are no settings. -/
theorem settings_of_accept {config : LoadedConfig} {accepted : AcceptedConfig}
    (accepts : config.accept = .ok accepted) :
    accepted.settings.forNative = .ok accepted.native ∧
      ∀ pair ∈ accepted.settings.unknown, pair.1 ∉ Settings.keys := by
  unfold accept at accepts
  cases decoded : Settings.decode (.object config.raw) with
  | error error =>
      rw [decoded] at accepts
      exact nomatch accepts
  | ok settings =>
      rw [decoded] at accepts
      cases told : settings.forNative with
      | error error =>
          simp only [Except.mapError, bind, Except.bind, told] at accepts
          exact nomatch accepts
      | ok native =>
          simp only [Except.mapError, bind, Except.bind, told] at accepts
          cases accepts
          refine ⟨told, fun pair member => ?_⟩
          have notKey := (List.mem_filter.mp member).2
          simpa using notKey

/-- What is in force after an acceptance is what was accepted. -/
theorem exists_accepted_of_putInForce {config inForce : LoadedConfig} {patterns : List Bytes}
    (putsInForce : config.putInForce = (.ok patterns, inForce)) :
    config.accept = .ok inForce.inForce := by
  unfold putInForce at putsInForce
  split at putsInForce
  · next accepted accepts =>
    cases putsInForce
    exact accepts
  · exact nomatch putsInForce

/-- The options for a file do not depend on the log that is written for them. -/
theorem value_optionsFor (config : LoadedConfig) (route : Route) :
    (config.optionsFor route).value =
      match route with
      | .native _ _ =>
        .native config.inForce.native config.settings.forExternal config.settings.insertFinalNewline
      | .untouched _ => .untouched
      | .external _ _ =>
        .external config.settings.forExternal config.settings.insertFinalNewline
      | .manifest _ _ =>
        .manifest config.settings.forExternal config.settings.sortManifest
          config.settings.insertFinalNewline := by
  unfold optionsFor
  by_cases unchecked : config.accepted.isNone <;> cases route <;> simp [unchecked]

/-- After a configuration has been accepted, the options for a script and those for the other files
agree: the external engine is told the same for all of them, both engines are told the same about
switches and choices, and a width is positive for the external engine and the same for the native
one exactly if it fits into 32 bits with a sign. -/
theorem engines_agree_on_accepted_configuration {config inForce : LoadedConfig}
    {patterns : List Bytes} (accepted : config.putInForce = (.ok patterns, inForce)) :
    ∃ native external newline sorted,
      (∀ path kind,
        (inForce.optionsFor (.native path kind)).value = .native native external newline) ∧
      (∀ path parser,
        (inForce.optionsFor (.external path parser)).value = .external external newline) ∧
      (∀ path parser,
        (inForce.optionsFor (.manifest path parser)).value = .manifest external sorted newline) ∧
      SameSettings native external ∧
      ∃ tabWidth printWidth : Int64,
        external.get? "tabWidth" = some (.number (.signed tabWidth)) ∧
        external.get? "printWidth" = some (.number (.signed printWidth)) ∧
        0 < tabWidth.toInt ∧ 0 < printWidth.toInt ∧
        (SameWidth native.tabWidth tabWidth ↔ tabWidth.toInt < 2 ^ 31) ∧
        (SameWidth native.printWidth printWidth ↔ printWidth.toInt < 2 ^ 31) := by
  obtain ⟨told, unknown⟩ := settings_of_accept (exists_accepted_of_putInForce accepted)
  obtain ⟨tabWidth, printWidth, equal, _⟩ := Settings.forNative_eq_ok told
  have sent {key : Bytes} {value : Json}
      (member : (key, value) ∈ inForce.inForce.settings.members) :=
    Settings.get?_forExternal unknown member
  rw [Int64.lt_iff_toInt_lt] at tabWidth printWidth
  refine ⟨inForce.inForce.native, inForce.inForce.settings.forExternal,
    inForce.settings.insertFinalNewline, inForce.settings.sortManifest,
    fun _ _ => value_optionsFor inForce _, fun _ _ => value_optionsFor inForce _,
    fun _ _ => value_optionsFor inForce _, Settings.sameSettings told unknown,
    inForce.inForce.settings.tabWidth, inForce.inForce.settings.printWidth,
    sent (by simp [Settings.members]), sent (by simp [Settings.members]), tabWidth, printWidth,
    ?_, ?_⟩
  · rw [equal]
    exact sameWidth_toInt32_iff tabWidth
  · rw [equal]
    exact sameWidth_toInt32_iff printWidth

theorem engines_agree_on_accepted_configuration_narrow :
    ∃ inForce, ({ root := "/p", raw := [("tabWidth", .number (.signed 4))] } :
        LoadedConfig).putInForce = (.ok [], inForce) ∧
      ∃ native external newline sorted, ∃ tabWidth : Int64,
        (inForce.optionsFor (.manifest "/p/package.json" "json-stringify")).value =
          .manifest external sorted newline ∧
        SameSettings native external ∧
        external.get? "tabWidth" = some (.number (.signed tabWidth)) ∧
        (SameWidth native.tabWidth tabWidth ↔ tabWidth.toInt < 2 ^ 31) := by
  let config : LoadedConfig := { root := "/p", raw := [("tabWidth", .number (.signed 4))] }
  have accepted : config.putInForce = (.ok [], config.putInForce.2) := rfl
  obtain ⟨native, external, newline, sorted, _, _, manifest, same, tabWidth, _, sent, _, _, _,
    fits, _⟩ := engines_agree_on_accepted_configuration accepted
  exact ⟨_, accepted, native, external, newline, sorted, tabWidth, manifest _ _, same, sent, fits⟩

/-- A width of 2³¹ is accepted, and the native engine is told a negative one. -/
theorem exists_accepted_width_beyond_native :
    ∃ patterns inForce native external newline,
      ({ root := "/p", raw := [("tabWidth", .number (.signed 2147483648))] } :
        LoadedConfig).putInForce = (.ok patterns, inForce) ∧
      (inForce.optionsFor (.native "/p/a.ts" { language := .typeScript })).value =
        .native native external newline ∧
      external.get? "tabWidth" = some (.number (.signed 2147483648)) ∧
      native.tabWidth = -2147483648 ∧ ¬ SameWidth native.tabWidth 2147483648 := by
  refine ⟨_, _, _, _, _, rfl, rfl, rfl, rfl, ?_⟩
  rintro ⟨positive, _⟩
  exact absurd positive (by decide)

end LoadedConfig

end FormatServer
