import FormatServer.Proofs.Config.Agreement
import FormatServer.Proofs.Json.Decoding

namespace FormatServer

/-- A value in which a number that equals a whole number is written as one. -/
def Json.withWholeNumber (value : Json) : Json :=
  match value.toInt64? with
  | some whole => .number (.signed whole)
  | none => value

namespace Settings

/-- All settings as members of a configuration file. -/
def entries (settings : Settings) : List (Bytes × Json) :=
  let serverEntries : List (Bytes × Json) :=
    [("insertFinalNewline", .bool settings.insertFinalNewline),
      ("experimentalSortPackageJson", .bool settings.sortManifest),
      ("ignorePatterns", .array (settings.ignorePatterns.map .string))]
  settings.members ++ serverEntries

/-- What a file says about a setting with a default. -/
def said (raw : JsonObject) (entry : Bytes × Json) : Json :=
  ((raw.get? entry.1).map Json.withWholeNumber).getD entry.2

theorem said_of_optional {α : Type} {decode : Json → Decoded α} (encode : α → Json)
    (written : ∀ member value, decode member = .ok value → member.withWholeNumber = encode value)
    {raw : JsonObject} {key : String} {default value : α}
    (read : raw.optional key decode default = .ok value) :
    said raw (key, encode default) = encode value := by
  obtain ⟨present, absent⟩ := JsonObject.optional_eq_ok_iff.mp read
  unfold said
  cases found : raw.get? key with
  | none =>
    rw [absent found]
    rfl
  | some member =>
    exact written member value (present member found)

theorem said_of_bool {raw : JsonObject} {key : String} {default on : Bool}
    (read : raw.optional key Json.decodeBool default = .ok on) :
    said raw (key, .bool default) = .bool on := by
  apply said_of_optional Json.bool _ read
  intro member value decoded
  rw [Json.decodeBool_eq_ok_iff.mp decoded]
  rfl

theorem said_of_int64 {raw : JsonObject} {key : String} {default width : Int64}
    (read : raw.optional key Json.decodeInt64 default = .ok width) :
    said raw (key, .number (.signed default)) = .number (.signed width) := by
  apply said_of_optional (fun width => .number (.signed width)) _ read
  intro member value decoded
  rw [Json.withWholeNumber, Json.decodeInt64_eq_ok_iff.mp decoded]

theorem said_of_string {raw : JsonObject} {key : String} {default text : Bytes}
    (read : raw.optional key Json.decodeString default = .ok text) :
    said raw (key, .string default) = .string text := by
  apply said_of_optional Json.string _ read
  intro member value decoded
  rw [Json.decodeString_eq_ok_iff.mp decoded]
  rfl

/-- Whether settings are what each member of a file decodes to. -/
structure Reads (raw : JsonObject) (settings : Settings) : Prop where
  useTabs : raw.optional "useTabs" Json.decodeBool false = .ok settings.useTabs
  tabWidth : raw.optional "tabWidth" Json.decodeInt64 2 = .ok settings.tabWidth
  printWidth : raw.optional "printWidth" Json.decodeInt64 100 = .ok settings.printWidth
  endOfLine :
    raw.optional "endOfLine" Json.decodeString EndOfLine.lf.spelling = .ok settings.endOfLine
  semi : raw.optional "semi" Json.decodeBool true = .ok settings.semi
  singleQuote : raw.optional "singleQuote" Json.decodeBool false = .ok settings.singleQuote
  jsxSingleQuote :
    raw.optional "jsxSingleQuote" Json.decodeBool false = .ok settings.jsxSingleQuote
  quoteProps :
    raw.optional "quoteProps" Json.decodeString QuoteProps.asNeeded.spelling =
      .ok settings.quoteProps
  trailingComma :
    raw.optional "trailingComma" Json.decodeString TrailingComma.all.spelling =
      .ok settings.trailingComma
  bracketSpacing :
    raw.optional "bracketSpacing" Json.decodeBool true = .ok settings.bracketSpacing
  bracketSameLine :
    raw.optional "bracketSameLine" Json.decodeBool false = .ok settings.bracketSameLine
  arrowParens :
    raw.optional "arrowParens" Json.decodeString ArrowParens.always.spelling =
      .ok settings.arrowParens
  insertFinalNewline :
    raw.optional "insertFinalNewline" Json.decodeBool true = .ok settings.insertFinalNewline
  sortManifest :
    raw.optional "experimentalSortPackageJson" Json.decodeBool true = .ok settings.sortManifest
  ignorePatterns :
    raw.optional "ignorePatterns" (Json.decodeArray Json.decodeString) [] =
      .ok settings.ignorePatterns
  unknown : settings.unknown = []

theorem decode_eq_ok_iff {raw : JsonObject} {settings : Settings} :
    decode (.object raw) = .ok settings ↔ Reads raw settings := by
  have object : (Json.object raw).decodeObject = .ok raw := rfl
  simp only [decode, object, bind_eq_ok_iff]
  constructor
  · rintro ⟨_, same, _, useTabs, _, tabWidth, _, printWidth, _, endOfLine, _, semi, _, singleQuote,
      _, jsxSingleQuote, _, quoteProps, _, trailingComma, _, bracketSpacing, _, bracketSameLine,
      _, arrowParens, _, newline, _, sorted, _, patterns, result⟩
    cases same
    cases result
    exact ⟨useTabs, tabWidth, printWidth, endOfLine, semi, singleQuote, jsxSingleQuote, quoteProps,
      trailingComma, bracketSpacing, bracketSameLine, arrowParens, newline, sorted, patterns, rfl⟩
  · intro reads
    exact ⟨_, rfl, _, reads.useTabs, _, reads.tabWidth, _, reads.printWidth, _, reads.endOfLine, _,
      reads.semi, _, reads.singleQuote, _, reads.jsxSingleQuote, _, reads.quoteProps, _,
      reads.trailingComma, _, reads.bracketSpacing, _, reads.bracketSameLine, _,
      reads.arrowParens, _, reads.insertFinalNewline, _, reads.sortManifest, _,
      reads.ignorePatterns, by rw [← reads.unknown]; rfl⟩

theorem said_of_patterns {raw : JsonObject} {key : String} {default patterns : List Bytes}
    (read : raw.optional key (Json.decodeArray Json.decodeString) default = .ok patterns) :
    said raw (key, .array (default.map .string)) = .array (patterns.map .string) := by
  apply said_of_optional (fun patterns => .array (patterns.map .string)) _ read
  intro member value decoded
  rw [Json.decodeArray_eq_ok_iff.mp decoded]
  rfl

/-- The settings that are read are what the file says. -/
theorem Reads.entries {raw : JsonObject} {settings : Settings} (reads : Reads raw settings) :
    settings.entries =
      ({} : Settings).entries.map fun entry => (entry.1, said raw entry) := by
  have patterns := said_of_patterns reads.ignorePatterns
  simp only [List.map_nil] at patterns
  simp only [Settings.entries, members, List.cons_append, List.nil_append, List.map_cons,
    List.map_nil, said_of_bool reads.useTabs, said_of_int64 reads.tabWidth,
    said_of_int64 reads.printWidth, said_of_string reads.endOfLine, said_of_bool reads.semi,
    said_of_bool reads.singleQuote, said_of_bool reads.jsxSingleQuote,
    said_of_string reads.quoteProps, said_of_string reads.trailingComma,
    said_of_bool reads.bracketSpacing, said_of_bool reads.bracketSameLine,
    said_of_string reads.arrowParens, said_of_bool reads.insertFinalNewline,
    said_of_bool reads.sortManifest, patterns]

/-- The keys of the settings. -/
theorem map_fst_entries (settings : Settings) : settings.entries.map (·.1) = keys := rfl

/-- The value of a setting that a file gives, or else the default one. -/
def given (raw : JsonObject) (key : Bytes) : Option Json :=
  ((raw.get? key).map Json.withWholeNumber).or (JsonObject.get? ({} : Settings).entries key)

/-- A setting with a default has the value that the file says. -/
theorem given_of_mem {raw : JsonObject} {key : Bytes} {default : Json}
    (inDefaults : (key, default) ∈ ({} : Settings).entries) :
    given raw key = some (said raw (key, default)) := by
  have distinct : (({} : Settings).entries.map (·.1)).Nodup := by
    rw [map_fst_entries]
    decide
  rw [given, JsonObject.get?_of_mem distinct inDefaults, said]
  cases raw.get? key <;> rfl

theorem Reads.given {raw : JsonObject} {settings : Settings} (reads : Reads raw settings)
    {key : Bytes} {value : Json} (member : (key, value) ∈ settings.entries) :
    given raw key = some value := by
  rw [reads.entries] at member
  obtain ⟨⟨key, default⟩, inDefaults, same⟩ := List.mem_map.mp member
  cases same
  exact given_of_mem inDefaults

/-- The keys of the settings that are switched on or off. -/
def switchKeys : List Bytes :=
  ["useTabs", "semi", "singleQuote", "jsxSingleQuote", "bracketSpacing", "bracketSameLine",
    "insertFinalNewline", "experimentalSortPackageJson"]

/-- The keys of the settings that are widths. -/
def widthKeys : List Bytes :=
  ["tabWidth", "printWidth"]

/-- Whether a member may stand in a configuration file. A member that is no setting may. -/
structure Allows (key : Bytes) (value : Json) : Prop where
  switch : key ∈ switchKeys → ∃ on, value = .bool on
  width : key ∈ widthKeys → ∃ width, value.toInt64? = some width ∧ 0 < width
  endOfLine : key = "endOfLine" → ∃ choice : EndOfLine, value = .string choice.spelling
  quoteProps : key = "quoteProps" → ∃ choice : QuoteProps, value = .string choice.spelling
  trailingComma : key = "trailingComma" → ∃ choice : TrailingComma, value = .string choice.spelling
  arrowParens : key = "arrowParens" → ∃ choice : ArrowParens, value = .string choice.spelling
  ignorePatterns :
    key = "ignorePatterns" → ∃ patterns : List Bytes, value = .array (patterns.map .string)

/-- Settings that are read from a file and accepted stand in members that are allowed. -/
theorem Reads.allows {raw : JsonObject} {settings : Settings} (reads : Reads raw settings)
    {native : NativeOptions} (told : settings.forNative = .ok native) {key : Bytes} {value : Json}
    (found : raw.get? key = some value) : Allows key value := by
  have decoded {α : Type} {name : String} {decode : Json → Decoded α} {default result : α}
      (read : raw.optional name decode default = .ok result) (same : key = name) :
      decode value = .ok result :=
    (JsonObject.optional_eq_ok_iff.mp read).1 value (same ▸ found)
  have switched {name : String} {default on : Bool}
      (read : raw.optional name Json.decodeBool default = .ok on) (same : key = name) :
      ∃ on, value = .bool on :=
    ⟨on, Json.decodeBool_eq_ok_iff.mp (decoded read same)⟩
  have chosen {name : String} {default text : Bytes}
      (read : raw.optional name Json.decodeString default = .ok text) (same : key = name) :
      value = .string text :=
    Json.decodeString_eq_ok_iff.mp (decoded read same)
  obtain ⟨tabWidth, printWidth, _, endOfLine, quoteProps, trailingComma, arrowParens⟩ :=
    forNative_eq_ok told
  constructor
  · intro isSwitch
    simp only [switchKeys, List.mem_cons, List.not_mem_nil, or_false] at isSwitch
    rcases isSwitch with same | same | same | same | same | same | same | same
    · exact switched reads.useTabs same
    · exact switched reads.semi same
    · exact switched reads.singleQuote same
    · exact switched reads.jsxSingleQuote same
    · exact switched reads.bracketSpacing same
    · exact switched reads.bracketSameLine same
    · exact switched reads.insertFinalNewline same
    · exact switched reads.sortManifest same
  · intro isWidth
    simp only [widthKeys, List.mem_cons, List.not_mem_nil, or_false] at isWidth
    rcases isWidth with same | same
    · exact ⟨_, Json.decodeInt64_eq_ok_iff.mp (decoded reads.tabWidth same), tabWidth⟩
    · exact ⟨_, Json.decodeInt64_eq_ok_iff.mp (decoded reads.printWidth same), printWidth⟩
  · intro same
    exact ⟨native.endOfLine, by rw [endOfLine, chosen reads.endOfLine same]⟩
  · intro same
    exact ⟨native.quoteProps, by rw [quoteProps, chosen reads.quoteProps same]⟩
  · intro same
    exact ⟨native.trailingComma, by rw [trailingComma, chosen reads.trailingComma same]⟩
  · intro same
    exact ⟨native.arrowParens, by rw [arrowParens, chosen reads.arrowParens same]⟩
  · intro same
    exact ⟨_, Json.decodeArray_eq_ok_iff.mp (decoded reads.ignorePatterns same)⟩

/-- A field is decoded if its member, if any, is; a property of the default and of what members
decode to holds of the result. -/
theorem exists_optional {α : Type} {raw : JsonObject} {key : String} {decode : Json → Decoded α}
    {default : α} {property : α → Prop}
    (allowed : ∀ member, raw.get? key = some member →
      ∃ value, decode member = .ok value ∧ property value)
    (byDefault : property default) :
    ∃ value, raw.optional key decode default = .ok value ∧ property value := by
  unfold JsonObject.optional
  cases found : raw.get? key with
  | none => exact ⟨default, rfl, byDefault⟩
  | some member =>
    obtain ⟨value, decoded, holds⟩ := allowed member found
    exact ⟨value, Decoded.below_eq_ok_iff.mpr decoded, holds⟩

/-- Settings with positive widths and listed spellings are accepted. -/
theorem exists_forNative {settings : Settings} (tabWidth : 0 < settings.tabWidth)
    (printWidth : 0 < settings.printWidth)
    (endOfLine : ∃ choice : EndOfLine, settings.endOfLine = choice.spelling)
    (quoteProps : ∃ choice : QuoteProps, settings.quoteProps = choice.spelling)
    (trailingComma : ∃ choice : TrailingComma, settings.trailingComma = choice.spelling)
    (arrowParens : ∃ choice : ArrowParens, settings.arrowParens = choice.spelling) :
    ∃ native, settings.forNative = .ok native := by
  obtain ⟨endOfLine, spelledEnd⟩ := endOfLine
  obtain ⟨quoteProps, spelledQuote⟩ := quoteProps
  obtain ⟨trailingComma, spelledComma⟩ := trailingComma
  obtain ⟨arrowParens, spelledParens⟩ := arrowParens
  simp only [forNative, if_neg (Int64.not_le.mpr tabWidth), if_neg (Int64.not_le.mpr printWidth),
    spelledEnd, EndOfLine.ofSpelling?_spelling, spelledQuote, QuoteProps.ofSpelling?_spelling,
    spelledComma, TrailingComma.ofSpelling?_spelling, spelledParens,
    ArrowParens.ofSpelling?_spelling]
  exact ⟨_, rfl⟩

/-- A file whose members are all allowed has settings, and these are accepted. -/
theorem exists_reads_of_allows {raw : JsonObject}
    (allows : ∀ key value, raw.get? key = some value → Allows key value) :
    ∃ settings native, Reads raw settings ∧ settings.forNative = .ok native := by
  have switched (key : String) (isSwitch : (key : Bytes) ∈ switchKeys) (default : Bool) :
      ∃ on, raw.optional key Json.decodeBool default = .ok on ∧ True := by
    apply exists_optional _ trivial
    intro member found
    obtain ⟨on, rfl⟩ := (allows key member found).switch isSwitch
    exact ⟨on, rfl, trivial⟩
  have sized (key : String) (isWidth : (key : Bytes) ∈ widthKeys) (default : Int64)
      (positive : 0 < default) :
      ∃ width, raw.optional key Json.decodeInt64 default = .ok width ∧ 0 < width := by
    apply exists_optional _ positive
    intro member found
    obtain ⟨width, whole, above⟩ := (allows key member found).width isWidth
    exact ⟨width, Json.decodeInt64_eq_ok_iff.mpr whole, above⟩
  have chosen {choices : Type} (spelling : choices → Bytes) (key : String) (default : choices)
      (listed : ∀ value, raw.get? key = some value → ∃ choice, value = .string (spelling choice)) :
      ∃ text, raw.optional key Json.decodeString (spelling default) = .ok text ∧
        ∃ choice, text = spelling choice := by
    apply exists_optional _ ⟨default, rfl⟩
    intro member found
    obtain ⟨choice, rfl⟩ := listed member found
    exact ⟨_, rfl, choice, rfl⟩
  obtain ⟨useTabs, readTabs, _⟩ := switched "useTabs" (by decide) false
  obtain ⟨semi, readSemi, _⟩ := switched "semi" (by decide) true
  obtain ⟨singleQuote, readSingle, _⟩ := switched "singleQuote" (by decide) false
  obtain ⟨jsxSingleQuote, readJsx, _⟩ := switched "jsxSingleQuote" (by decide) false
  obtain ⟨bracketSpacing, readSpacing, _⟩ := switched "bracketSpacing" (by decide) true
  obtain ⟨bracketSameLine, readSameLine, _⟩ := switched "bracketSameLine" (by decide) false
  obtain ⟨insertFinalNewline, readNewline, _⟩ := switched "insertFinalNewline" (by decide) true
  obtain ⟨sortManifest, readSorted, _⟩ := switched "experimentalSortPackageJson" (by decide) true
  obtain ⟨tabWidth, readTabWidth, tabPositive⟩ :=
    sized "tabWidth" (by decide) 2 (by decide)
  obtain ⟨printWidth, readPrintWidth, printPositive⟩ :=
    sized "printWidth" (by decide) 100 (by decide)
  obtain ⟨endOfLine, readEnd, lineEnd⟩ := chosen EndOfLine.spelling "endOfLine" .lf
    fun value found => (allows _ value found).endOfLine rfl
  obtain ⟨quoteProps, readQuotes, quotes⟩ := chosen QuoteProps.spelling "quoteProps" .asNeeded
    fun value found => (allows _ value found).quoteProps rfl
  obtain ⟨trailingComma, readComma, comma⟩ := chosen TrailingComma.spelling "trailingComma" .all
    fun value found => (allows _ value found).trailingComma rfl
  obtain ⟨arrowParens, readParens, parens⟩ := chosen ArrowParens.spelling "arrowParens" .always
    fun value found => (allows _ value found).arrowParens rfl
  obtain ⟨ignorePatterns, readPatterns, _⟩ : ∃ patterns,
      raw.optional "ignorePatterns" (Json.decodeArray Json.decodeString) [] = .ok patterns ∧
        True := by
    apply exists_optional _ trivial
    intro member found
    obtain ⟨patterns, rfl⟩ := (allows _ member found).ignorePatterns rfl
    exact ⟨patterns, Json.decodeArray_eq_ok_iff.mpr rfl, trivial⟩
  let settings : Settings := {
    useTabs, tabWidth, printWidth, endOfLine, semi, singleQuote, jsxSingleQuote, quoteProps,
    trailingComma, bracketSpacing, bracketSameLine, arrowParens, insertFinalNewline, sortManifest,
    ignorePatterns }
  obtain ⟨native, told⟩ : ∃ native, settings.forNative = .ok native :=
    exists_forNative tabPositive printPositive lineEnd quotes comma parens
  refine ⟨settings, native, ?_, told⟩
  exact ⟨readTabs, readTabWidth, readPrintWidth, readEnd, readSemi, readSingle, readJsx,
    readQuotes, readComma, readSpacing, readSameLine, readParens, readNewline, readSorted,
    readPatterns, rfl⟩

theorem serverKeys_subset : serverKeys ⊆ keys := by decide

/-- Every setting that the server does not keep for itself is one that engines are told about. -/
theorem mem_take_of_notMem : ∀ key ∈ keys, key ∉ serverKeys → key ∈ keys.take 12 := by decide

/-- Of the settings, the external engine is told about those that the server does not keep. -/
theorem get?_members_eq_none (settings : Settings) {key : Bytes} (notShared : key ∉ keys.take 12) :
    JsonObject.get? (JsonObject.ofMembers settings.members) key = none := by
  rw [JsonObject.get?_ofMembers, List.filter_eq_nil_iff.mpr]
  · rfl
  · intro pair member same
    have found : pair.1 ∈ settings.members.map (·.1) := List.mem_map_of_mem member
    rw [map_fst_members, of_decide_eq_true same] at found
    exact notShared found

/-- Members of the file that are no settings reach the external engine as they stand. -/
theorem get?_forExternal_of_notMem {settings : Settings} {raw : JsonObject}
    (ordered : raw.Ordered)
    (unknown : settings.unknown = raw.filter fun pair => !keys.contains pair.1) {key : Bytes}
    (notKey : key ∉ keys) : JsonObject.get? settings.forExternal key = raw.get? key := by
  have notServer : key ∉ serverKeys := fun inServer => notKey (serverKeys_subset inServer)
  have absent := settings.get?_members_eq_none fun shared => notKey (List.mem_of_mem_take shared)
  have distinct : ((settings.unknown.filter fun pair => !serverKeys.contains pair.1).map
      (·.1)).Nodup := by
    rw [unknown]
    exact JsonObject.Ordered.nodup_keys ((ordered.filter _).filter _)
  rw [forExternal_eq, JsonObject.get?_foldl_insert_of_nodup distinct, absent, Option.or_none,
    JsonObject.get?_filter (by simp [notServer]), unknown,
    JsonObject.get?_filter (by simp [notKey])]

/-- Whether what both engines and the server are told is what a file says: every setting has the
value that the file gives it, or else its default, and every other member stands as in the file. A
width has the same value for the native engine if it fits there. -/
structure InEffect (raw : JsonObject) (native : NativeOptions) (external : JsonObject)
    (newline sorted : Bool) (patterns : List Bytes) : Prop where
  shared : ∀ key ∈ keys, key ∉ serverKeys → external.get? key = given raw key
  unknown : ∀ key, key ∉ keys → external.get? key = raw.get? key
  same : SameSettings native external
  tabWidth : ∃ width : Int64, given raw "tabWidth" = some (.number (.signed width)) ∧
    (width.toInt < 2 ^ 31 → SameWidth native.tabWidth width)
  printWidth : ∃ width : Int64, given raw "printWidth" = some (.number (.signed width)) ∧
    (width.toInt < 2 ^ 31 → SameWidth native.printWidth width)
  newline : given raw "insertFinalNewline" = some (.bool newline)
  sorted : given raw "experimentalSortPackageJson" = some (.bool sorted)
  patterns : given raw "ignorePatterns" = some (.array (patterns.map .string))

end Settings

namespace LoadedConfig

/-- What is accepted: the settings that are read, if the native engine is told about them, and the
members of the file that are no settings. -/
theorem accept_eq_ok_iff {config : LoadedConfig} {accepted : AcceptedConfig} :
    config.accept = .ok accepted ↔ ∃ settings, Settings.Reads config.raw settings ∧
      settings.forNative = .ok accepted.native ∧
      accepted.settings = { settings with
        unknown := config.raw.filter fun pair => !Settings.keys.contains pair.1 } := by
  have mapped {ε α : Type} (make : ε → ConfigError) (result : Except ε α) (value : α) :
      result.mapError make = .ok value ↔ result = .ok value := by
    cases result <;> simp [Except.mapError]
  simp only [accept, bind_eq_ok_iff, mapped, Settings.decode_eq_ok_iff]
  constructor
  · rintro ⟨settings, reads, native, told, result⟩
    cases result
    exact ⟨settings, reads, told, rfl⟩
  · rintro ⟨settings, reads, told, same⟩
    refine ⟨settings, reads, accepted.native, told, ?_⟩
    rw [← same]
    rfl

/-- A configuration is accepted exactly if each of its members is allowed. -/
theorem accept_isOk_iff (config : LoadedConfig) :
    (∃ accepted, config.accept = .ok accepted) ↔
      ∀ key value, config.raw.get? key = some value → Settings.Allows key value := by
  constructor
  · rintro ⟨accepted, accepts⟩ key value found
    obtain ⟨settings, reads, told, _⟩ := accept_eq_ok_iff.mp accepts
    exact reads.allows told found
  · intro allows
    obtain ⟨settings, native, reads, told⟩ := Settings.exists_reads_of_allows allows
    exact ⟨{ settings := _, native }, accept_eq_ok_iff.mpr ⟨settings, reads, told, rfl⟩⟩

/-- An accepted configuration is in effect. -/
theorem inEffect_of_accept {config : LoadedConfig} (ordered : config.raw.Ordered)
    {accepted : AcceptedConfig} (accepts : config.accept = .ok accepted) :
    Settings.InEffect config.raw accepted.native accepted.settings.forExternal
      accepted.settings.insertFinalNewline accepted.settings.sortManifest
      accepted.settings.ignorePatterns := by
  obtain ⟨settings, reads, told, equal⟩ := accept_eq_ok_iff.mp accepts
  obtain ⟨toldAll, unknown⟩ := settings_of_accept accepts
  obtain ⟨tabWidth, printWidth, native, _⟩ := Settings.forNative_eq_ok told
  rw [Int64.lt_iff_toInt_lt] at tabWidth printWidth
  constructor
  · intro key isKey notServer
    have isShared : key ∈ accepted.settings.members.map (·.1) := by
      rw [Settings.map_fst_members]
      exact Settings.mem_take_of_notMem key isKey notServer
    obtain ⟨⟨key, value⟩, member, rfl⟩ := List.mem_map.mp isShared
    have inFile : (key, value) ∈ settings.entries := by
      rw [equal] at member
      exact List.mem_append_left _ member
    exact (Settings.get?_forExternal unknown member).trans (reads.given inFile).symm
  · intro key notKey
    exact Settings.get?_forExternal_of_notMem ordered (by rw [equal]) notKey
  · exact Settings.sameSettings toldAll unknown
  · refine ⟨settings.tabWidth, reads.given (by simp [Settings.entries, Settings.members]), ?_⟩
    intro fits
    rw [native]
    exact (sameWidth_toInt32_iff tabWidth).mpr fits
  · refine ⟨settings.printWidth, reads.given (by simp [Settings.entries, Settings.members]), ?_⟩
    intro fits
    rw [native]
    exact (sameWidth_toInt32_iff printWidth).mpr fits
  · rw [equal]
    exact reads.given (by simp [Settings.entries])
  · rw [equal]
    exact reads.given (by simp [Settings.entries])
  · rw [equal]
    exact reads.given (by simp [Settings.entries])

end LoadedConfig

end FormatServer
