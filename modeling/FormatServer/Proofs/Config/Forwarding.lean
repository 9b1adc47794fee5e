import FormatServer.Proofs.Config.Acceptance

namespace FormatServer

namespace Settings

/-- The settings that the external engine is told about, with the values for a file that leaves them
out. -/
def sharedDefaults : List (Bytes × Json) :=
  [("useTabs", .bool false),
    ("tabWidth", .number (.signed 2)),
    ("printWidth", .number (.signed 100)),
    ("endOfLine", .string "lf"),
    ("semi", .bool true),
    ("singleQuote", .bool false),
    ("jsxSingleQuote", .bool false),
    ("quoteProps", .string "as-needed"),
    ("trailingComma", .string "all"),
    ("bracketSpacing", .bool true),
    ("bracketSameLine", .bool false),
    ("arrowParens", .string "always")]

/-- These are the defaults of the settings. -/
theorem sharedDefaults_eq : sharedDefaults = ({} : Settings).members := rfl

/-- The members of the options that a file stands for: settings that it gives, where a number that
equals a whole number is written as one, settings that it leaves out, and what is no setting. -/
inductive Forwards (raw : JsonObject) : Bytes → Json → Prop where
  | given {key : Bytes} {default value : Json} (isShared : (key, default) ∈ sharedDefaults)
      (found : raw.get? key = some value) : Forwards raw key value.withWholeNumber
  | default {key : Bytes} {value : Json} (isShared : (key, value) ∈ sharedDefaults)
      (absent : raw.get? key = none) : Forwards raw key value
  | unknown {key : Bytes} {value : Json} (notKey : key ∉ keys)
      (found : raw.get? key = some value) : Forwards raw key value

theorem exists_mem_sharedDefaults_iff {key : Bytes} :
    (∃ value, (key, value) ∈ sharedDefaults) ↔ key ∈ keys ∧ key ∉ serverKeys := by
  have shared : (∃ value, (key, value) ∈ sharedDefaults) ↔ key ∈ keys.take 12 := by
    rw [sharedDefaults_eq, ← map_fst_members {}]
    simp
  have separate : ∀ key ∈ keys.take 12, key ∉ serverKeys := by decide
  rw [shared]
  exact ⟨fun inShared => ⟨List.mem_of_mem_take inShared, separate key inShared⟩,
    fun kept => mem_take_of_notMem key kept.1 kept.2⟩

/-- A shared setting has the value of the file, or else the default. -/
theorem given_of_mem_sharedDefaults (raw : JsonObject) {key : Bytes} {default : Json}
    (isShared : (key, default) ∈ sharedDefaults) :
    given raw key = some (((raw.get? key).map Json.withWholeNumber).getD default) := by
  rw [sharedDefaults_eq] at isShared
  exact given_of_mem (List.mem_append_left _ isShared)

theorem ordered_forExternal (settings : Settings) : JsonObject.Ordered settings.forExternal := by
  have empty : JsonObject.Ordered [] := List.Pairwise.nil
  rw [forExternal_eq]
  exact (empty.foldl_insert settings.members).foldl_insert _

/-- The external engine is not told about the settings that the server keeps for itself. -/
theorem get?_forExternal_of_mem_serverKeys (settings : Settings) {key : Bytes}
    (inServer : key ∈ serverKeys) : JsonObject.get? settings.forExternal key = none := by
  have separate : ∀ key ∈ serverKeys, key ∉ keys.take 12 := by decide
  have dropped : (settings.unknown.filter fun pair => !serverKeys.contains pair.1).filter
      (·.1 = key) = [] := by
    refine List.filter_eq_nil_iff.mpr fun pair kept same => ?_
    have notServer := (List.mem_filter.mp kept).2
    rw [of_decide_eq_true same] at notServer
    simp [inServer] at notServer
  rw [forExternal_eq, JsonObject.get?_foldl_insert, dropped, List.getLast?_nil, Option.map_none,
    Option.none_or]
  exact settings.get?_members_eq_none (separate key inServer)

/-- Options in which the settings of a file are in effect have the members that the file stands
for. -/
theorem InEffect.get?_eq_some_iff {raw external : JsonObject} {native : NativeOptions}
    {newline sorted : Bool} {patterns : List Bytes}
    (inEffect : InEffect raw native external newline sorted patterns)
    (clean : ∀ key ∈ serverKeys, external.get? key = none) {key : Bytes} {value : Json} :
    external.get? key = some value ↔ Forwards raw key value := by
  constructor
  · intro found
    by_cases isKey : key ∈ keys
    · by_cases inServer : key ∈ serverKeys
      · rw [clean key inServer] at found
        contradiction
      · obtain ⟨default, isShared⟩ := exists_mem_sharedDefaults_iff.mpr ⟨isKey, inServer⟩
        rw [inEffect.shared key isKey inServer, given_of_mem_sharedDefaults raw isShared] at found
        cases inFile : raw.get? key with
        | none =>
            rw [inFile] at found
            cases found
            exact .default isShared inFile
        | some member =>
            rw [inFile] at found
            cases found
            exact .given isShared inFile
    · rw [inEffect.unknown key isKey] at found
      exact .unknown isKey found
  · intro forwards
    cases forwards with
    | given isShared inFile =>
        obtain ⟨isKey, notServer⟩ := exists_mem_sharedDefaults_iff.mp ⟨_, isShared⟩
        rw [inEffect.shared key isKey notServer, given_of_mem_sharedDefaults raw isShared, inFile]
        rfl
    | default isShared absent =>
        obtain ⟨isKey, notServer⟩ := exists_mem_sharedDefaults_iff.mp ⟨_, isShared⟩
        rw [inEffect.shared key isKey notServer, given_of_mem_sharedDefaults raw isShared, absent]
        rfl
    | unknown notKey inFile =>
        rw [inEffect.unknown key notKey, inFile]

/-- Whether a value is a positive whole number of 64 bits with a sign or a double that equals one. -/
def IsWidth (value : Json) : Prop :=
  ∃ whole : Int64, 0 < whole ∧ (value = .number (.signed whole) ∨
    ∃ double, value = .number (.binary double) ∧ double.toInt? = some whole.toInt)

theorem allows_iff_isWidth {key : Bytes} (isWidth : key ∈ widthKeys) {value : Json} :
    Allows key value ↔ IsWidth value := by
  have other : ∀ key ∈ widthKeys, key ∉ switchKeys ∧ key ≠ "endOfLine" ∧ key ≠ "quoteProps" ∧
      key ≠ "trailingComma" ∧ key ≠ "arrowParens" ∧ key ≠ "ignorePatterns" := by decide
  obtain ⟨notSwitch, notEnd, notQuote, notComma, notParens, notPatterns⟩ := other key isWidth
  constructor
  · intro allows
    obtain ⟨whole, equal, positive⟩ := allows.width isWidth
    exact ⟨whole, positive, Json.toInt64?_eq_some_iff.mp equal⟩
  · rintro ⟨whole, positive, written⟩
    exact ⟨fun switch => absurd switch notSwitch,
      fun _ => ⟨whole, Json.toInt64?_eq_some_iff.mpr written, positive⟩,
      fun same => absurd same notEnd, fun same => absurd same notQuote,
      fun same => absurd same notComma, fun same => absurd same notParens,
      fun same => absurd same notPatterns⟩

/-- No setting may be null. -/
theorem not_allows_null {key : Bytes} (isKey : key ∈ keys) : ¬Allows key .null := by
  have kinds : ∀ key ∈ keys, key ∈ switchKeys ∨ key ∈ widthKeys ∨ key = "endOfLine" ∨
      key = "quoteProps" ∨ key = "trailingComma" ∨ key = "arrowParens" ∨
      key = "ignorePatterns" := by decide
  intro allows
  rcases kinds key isKey with switch | width | same | same | same | same | same
  · exact nomatch allows.switch switch
  · obtain ⟨_, none, _⟩ := allows.width width
    exact nomatch none
  · exact nomatch allows.endOfLine same
  · exact nomatch allows.quoteProps same
  · exact nomatch allows.trailingComma same
  · exact nomatch allows.arrowParens same
  · exact nomatch allows.ignorePatterns same

end Settings

namespace LoadedConfig

/-- A configuration is put in force exactly if it is accepted. -/
theorem exists_putInForce_iff (config : LoadedConfig) :
    (∃ patterns inForce, config.putInForce = (.ok patterns, inForce)) ↔
      ∃ accepted, config.accept = .ok accepted := by
  constructor
  · rintro ⟨patterns, inForce, putsInForce⟩
    exact ⟨_, exists_accepted_of_putInForce putsInForce⟩
  · rintro ⟨accepted, accepts⟩
    exact ⟨_, _, by rw [putInForce, accepts]⟩

/-- A configuration is accepted exactly if each of its members is allowed: a width if it is a
positive whole number, and no setting if it is null. Then the external engine is told the same for
every file: each shared setting as the configuration gives it or else with its default, every
member that is no setting as it stands there, and nothing else. -/
theorem external_options_are_effective_configuration {config : LoadedConfig}
    (ordered : config.raw.Ordered) :
    ((∃ patterns inForce, config.putInForce = (.ok patterns, inForce)) ↔
      ∀ key value, config.raw.get? key = some value → Settings.Allows key value) ∧
    (∀ key ∈ Settings.widthKeys, ∀ value,
      Settings.Allows key value ↔ Settings.IsWidth value) ∧
    (∀ key ∈ Settings.keys, ¬Settings.Allows key .null) ∧
    ∀ patterns inForce, config.putInForce = (.ok patterns, inForce) →
      ∃ native external newline sorted,
        (∀ path kind,
          (inForce.optionsFor (.native path kind)).value = .native native external newline) ∧
        (∀ path parser,
          (inForce.optionsFor (.external path parser)).value = .external external newline) ∧
        (∀ path parser,
          (inForce.optionsFor (.manifest path parser)).value =
            .manifest external sorted newline) ∧
        external.Ordered ∧
        (∀ key value, (key, value) ∈ external ↔ Settings.Forwards config.raw key value) ∧
        ∀ key ∈ Settings.serverKeys, external.get? key = none := by
  refine ⟨config.exists_putInForce_iff.trans config.accept_isOk_iff,
    fun _ isWidth _ => Settings.allows_iff_isWidth isWidth, fun _ => Settings.not_allows_null,
    fun patterns inForce putsInForce => ?_⟩
  let settings := inForce.inForce.settings
  have inEffect := inEffect_of_accept ordered (exists_accepted_of_putInForce putsInForce)
  have clean : ∀ key ∈ Settings.serverKeys, JsonObject.get? settings.forExternal key = none :=
    fun _ => settings.get?_forExternal_of_mem_serverKeys
  refine ⟨inForce.inForce.native, settings.forExternal, settings.insertFinalNewline,
    settings.sortManifest, fun _ _ => value_optionsFor inForce _,
    fun _ _ => value_optionsFor inForce _, fun _ _ => value_optionsFor inForce _,
    settings.ordered_forExternal, fun key value => ?_, clean⟩
  rw [← settings.ordered_forExternal.get?_eq_some_iff]
  exact inEffect.get?_eq_some_iff clean

/-- The width 4.0 reaches the external engine as a whole number, and a member for a plugin with
everything in it. -/
theorem external_options_are_effective_configuration_plugin :
    let width : Json := .number (.binary (.finite false 4503599627370496 (-50)))
    let plugin : Json := .object [("depth", .array [.null, width])]
    let config : LoadedConfig := { root := "/p", raw := [("plugin", plugin), ("tabWidth", width)] }
    config.raw.Ordered ∧
      ∃ inForce external newline sorted,
        config.putInForce = (.ok [], inForce) ∧
        (inForce.optionsFor (.manifest "/p/package.json" "json-stringify")).value =
          .manifest external sorted newline ∧
        (Bytes.ofString "plugin", plugin) ∈ external ∧
        (Bytes.ofString "tabWidth", Json.number (.signed 4)) ∈ external ∧
        (Bytes.ofString "semi", Json.bool true) ∈ external := by
  intro width plugin config
  have ordered : config.raw.Ordered := by
    refine List.pairwise_pair.mpr ?_
    decide
  have accepted : config.putInForce = (.ok [], config.putInForce.2) := rfl
  have tabWidth : (Bytes.ofString "tabWidth", .number (.signed 2)) ∈ Settings.sharedDefaults := by
    simp [Settings.sharedDefaults]
  have semi : (Bytes.ofString "semi", .bool true) ∈ Settings.sharedDefaults := by
    simp [Settings.sharedDefaults]
  have found : config.raw.get? "tabWidth" = some width := rfl
  have whole : width.withWholeNumber = .number (.signed 4) := rfl
  obtain ⟨native, external, newline, sorted, _, _, manifest, _, members, _⟩ :=
    (external_options_are_effective_configuration ordered).2.2.2 _ _ accepted
  refine ⟨ordered, _, external, newline, sorted, accepted, manifest _ _, ?_, ?_, ?_⟩
  · exact (members _ _).mpr (.unknown (by decide) rfl)
  · exact (members _ _).mpr (whole ▸ .given tabWidth found)
  · exact (members _ _).mpr (.default semi rfl)

end LoadedConfig

end FormatServer
