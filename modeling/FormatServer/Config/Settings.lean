import FormatServer.Config.NativeOptions
import FormatServer.Json.Schema

namespace FormatServer

/-- The settings of a configuration file, and those of its members that are no setting. -/
structure Settings where
  useTabs : Bool := false
  tabWidth : Int64 := 2
  printWidth : Int64 := 100
  endOfLine : Bytes := EndOfLine.lf.spelling
  semi : Bool := true
  singleQuote : Bool := false
  jsxSingleQuote : Bool := false
  quoteProps : Bytes := QuoteProps.asNeeded.spelling
  trailingComma : Bytes := TrailingComma.all.spelling
  bracketSpacing : Bool := true
  bracketSameLine : Bool := false
  arrowParens : Bytes := ArrowParens.always.spelling
  insertFinalNewline : Bool := true
  sortManifest : Bool := true
  ignorePatterns : List Bytes := []
  unknown : JsonObject := []

/-- Why the value of a setting is refused. -/
inductive SettingError where
  | tabWidth (value : Int64)
  | printWidth (value : Int64)
  | endOfLine (value : Bytes)
  | quoteProps (value : Bytes)
  | trailingComma (value : Bytes)
  | arrowParens (value : Bytes)
  deriving DecidableEq, Repr

/-- The text of a setting error. -/
def SettingError.message : SettingError → Bytes
  | tabWidth value =>
    Bytes.concat ["`tabWidth` must be a positive integer, got ", Bytes.ofInt value.toInt]
  | printWidth value =>
    Bytes.concat ["`printWidth` must be a positive integer, got ", Bytes.ofInt value.toInt]
  | endOfLine value =>
    Bytes.concat ["invalid `endOfLine` value `", value, "`, expected lf, crlf or cr"]
  | quoteProps value =>
    Bytes.concat
      ["invalid `quoteProps` value `", value, "`, expected as-needed, consistent or preserve"]
  | trailingComma value =>
    Bytes.concat ["invalid `trailingComma` value `", value, "`, expected all, es5 or none"]
  | arrowParens value =>
    Bytes.concat ["invalid `arrowParens` value `", value, "`, expected always or avoid"]

namespace Settings

/-- Decodes the settings that a value holds; those it does not hold keep their defaults. -/
def decode (value : Json) : Decoded Settings := do
  let members ← value.decodeObject
  let defaults : Settings := {}
  let useTabs ← members.optional "useTabs" Json.decodeBool defaults.useTabs
  let tabWidth ← members.optional "tabWidth" Json.decodeInt64 defaults.tabWidth
  let printWidth ← members.optional "printWidth" Json.decodeInt64 defaults.printWidth
  let endOfLine ← members.optional "endOfLine" Json.decodeString defaults.endOfLine
  let semi ← members.optional "semi" Json.decodeBool defaults.semi
  let singleQuote ← members.optional "singleQuote" Json.decodeBool defaults.singleQuote
  let jsxSingleQuote ← members.optional "jsxSingleQuote" Json.decodeBool defaults.jsxSingleQuote
  let quoteProps ← members.optional "quoteProps" Json.decodeString defaults.quoteProps
  let trailingComma ← members.optional "trailingComma" Json.decodeString defaults.trailingComma
  let bracketSpacing ← members.optional "bracketSpacing" Json.decodeBool defaults.bracketSpacing
  let bracketSameLine ←
    members.optional "bracketSameLine" Json.decodeBool defaults.bracketSameLine
  let arrowParens ← members.optional "arrowParens" Json.decodeString defaults.arrowParens
  let insertFinalNewline ←
    members.optional "insertFinalNewline" Json.decodeBool defaults.insertFinalNewline
  let sortManifest ←
    members.optional "experimentalSortPackageJson" Json.decodeBool defaults.sortManifest
  let ignorePatterns ←
    members.optional "ignorePatterns" (Json.decodeArray Json.decodeString) defaults.ignorePatterns
  return {
    useTabs, tabWidth, printWidth, endOfLine, semi, singleQuote, jsxSingleQuote, quoteProps,
    trailingComma, bracketSpacing, bracketSameLine, arrowParens, insertFinalNewline, sortManifest,
    ignorePatterns }

/-- The keys of all settings. -/
def keys : List Bytes :=
  ["useTabs", "tabWidth", "printWidth", "endOfLine", "semi", "singleQuote", "jsxSingleQuote",
    "quoteProps", "trailingComma", "bracketSpacing", "bracketSameLine", "arrowParens",
    "insertFinalNewline", "experimentalSortPackageJson", "ignorePatterns"]

/-- The keys of the settings that no engine is told about. -/
def serverKeys : List Bytes :=
  ["insertFinalNewline", "experimentalSortPackageJson", "ignorePatterns"]

/-- The options of the native engine that the settings stand for. -/
def forNative (settings : Settings) : Except SettingError NativeOptions := do
  if settings.tabWidth ≤ 0 then throw (.tabWidth settings.tabWidth)
  if settings.printWidth ≤ 0 then throw (.printWidth settings.printWidth)
  let some endOfLine := EndOfLine.ofSpelling? settings.endOfLine
    | throw (.endOfLine settings.endOfLine)
  let some quoteProps := QuoteProps.ofSpelling? settings.quoteProps
    | throw (.quoteProps settings.quoteProps)
  let some trailingComma := TrailingComma.ofSpelling? settings.trailingComma
    | throw (.trailingComma settings.trailingComma)
  let some arrowParens := ArrowParens.ofSpelling? settings.arrowParens
    | throw (.arrowParens settings.arrowParens)
  return {
    useTabs := settings.useTabs
    tabWidth := settings.tabWidth.toInt32
    printWidth := settings.printWidth.toInt32
    endOfLine
    semi := settings.semi
    singleQuote := settings.singleQuote
    jsxSingleQuote := settings.jsxSingleQuote
    quoteProps
    trailingComma
    bracketSpacing := settings.bracketSpacing
    bracketSameLine := settings.bracketSameLine
    arrowParens }

/-- The options of the external engine: the settings that engines are told about, and every unknown
member as it stands in the file. -/
def forExternal (settings : Settings) : JsonObject :=
  let shared := JsonObject.ofMembers
    [("useTabs", .bool settings.useTabs),
      ("tabWidth", .number (.signed settings.tabWidth)),
      ("printWidth", .number (.signed settings.printWidth)),
      ("endOfLine", .string settings.endOfLine),
      ("semi", .bool settings.semi),
      ("singleQuote", .bool settings.singleQuote),
      ("jsxSingleQuote", .bool settings.jsxSingleQuote),
      ("quoteProps", .string settings.quoteProps),
      ("trailingComma", .string settings.trailingComma),
      ("bracketSpacing", .bool settings.bracketSpacing),
      ("bracketSameLine", .bool settings.bracketSameLine),
      ("arrowParens", .string settings.arrowParens)]
  (settings.unknown.filter fun pair => !serverKeys.contains pair.1).foldl
    (fun options pair => options.insert pair.1 pair.2) shared

end Settings

end FormatServer
