import FormatServer.Config.ClientOptions
import FormatServer.Config.Loaded
import FormatServer.Engine.Native
import FormatServer.Ignore.Rules
import FormatServer.Manifest.Sort
import FormatServer.Service.Lease
import FormatServer.Text.Edit
import FormatServer.Uri

namespace FormatServer

/-- The formatter of a directory tree, over engines with states `σ` and native programs `π`. -/
structure TreeFormatter (σ π : Type) where
  config : LoadedConfig
  ignored : Option IgnoreRules
  lease : WorkspaceLease σ
  native : Option (NativeEngine σ π)

namespace TreeFormatter

variable {σ π : Type}

/-- What the host calls this tool. -/
def name : Bytes := "formatter"

/-- A text as it is answered: without its trailing blanks unless a final line end is kept. -/
def withFinalNewline (insertFinalNewline : Bool) (code : Bytes) : Bytes :=
  if insertFinalNewline then code else code.trimEnd

/-- Whether a path is not to be formatted, by its own name or by a directory above it. -/
def ignores (formatter : TreeFormatter σ π) (files : FileTree) (path : Bytes) : Bool :=
  match formatter.ignored with
  | none => false
  | some rules => rules.verdictWithParents path (files.isDirectory path) == .ignored

/-- Logs a message about a request that has no result. -/
def skip {α : Type} (parts : List Bytes) : Session σ (Option α) := do
  Session.write (.verbose parts)
  return none

/-- Formats a script with the native engine. Embedded code goes to the external one, if it holds a
workspace. -/
def printScript (formatter : TreeFormatter σ π) (path : Bytes) (kind : ScriptKind)
    (options : NativeOptions) (external : JsonObject) (insertFinalNewline : Bool)
    (source : Bytes) : Session σ (Option Bytes) :=
  match formatter.native with
  | none => skip ["native formatter not available for ", path]
  | some native => do
    let parsed ← native.parse source kind.allowTags
    match parsed.program, parsed.errors with
    | some program, [] =>
      let embedded := formatter.lease.engine?.map (·.toTagged external)
      let code ← native.format program options embedded
      return some (withFinalNewline insertFinalNewline code)
    | _, errors =>
      skip [path, " has ", Bytes.ofNat errors.length, " parse errors, not formatting"]

/-- Sends a text to the external engine in a workspace. -/
def askEngine (engine : ExternalEngine σ) (workspace : WorkspaceId)
    (path parser : Bytes) (options : JsonObject) (insertFinalNewline : Bool) (source : Bytes) :
    Session σ (Option Bytes) := do
  match ← engine.printFile workspace options parser (Path.filename path) source with
  | .ok code => return some (withFinalNewline insertFinalNewline code)
  | .error error => skip ["External formatter failed for ", path, ": ", error.message]

/-- Sends a package manifest to the external engine, sorted if the configuration asks for it. -/
def askForManifest (engine : ExternalEngine σ) (workspace : WorkspaceId)
    (path parser : Bytes) (options : JsonObject) (sortManifest insertFinalNewline : Bool)
    (source : Bytes) : Session σ (Option Bytes) :=
  if sortManifest then
    match Manifest.sort source false with
    | .ok sorted => askEngine engine workspace path parser options insertFinalNewline sorted
    | .error error => skip ["Failed to sort package.json ", path, ": ", error.message]
  else askEngine engine workspace path parser options insertFinalNewline source

/-- Logs that options of another shape than the route came with it. -/
def skipMismatch (route : Route) : Session σ (Option Bytes) :=
  let kind : Bytes :=
    match route with
    | .native _ _ => "native"
    | .untouched _ => "passthrough"
    | .external _ _ => "external"
    | .manifest _ _ => "manifest"
  skip ["resolved options do not match ", kind, " strategy for ", route.path]

/-- Formats a text on a route with the options for it. -/
def formatWith (formatter : TreeFormatter σ π) (route : Route)
    (options : FileOptions) (source : Bytes) : Session σ (Option Bytes) :=
  match route, options, formatter.lease with
  | .native path kind, .native options external newline, _ =>
    formatter.printScript path kind options external newline source
  | .native _ _, _, _ => skipMismatch route
  | .external path parser, .external options newline, .held engine workspace _ =>
    askEngine engine workspace path parser options newline source
  | .manifest path parser, .manifest options sorted newline, .held engine workspace _ =>
    askForManifest engine workspace path parser options sorted newline source
  | _, _, .held _ _ _ => skipMismatch route
  | _, _, _ => skip ["External formatter bridge not available for ", route.path]

/-- Formats a text on a route; none if the text is not or cannot be formatted. -/
def formatText (formatter : TreeFormatter σ π) (route : Route)
    (source : Bytes) : Session σ (Option Bytes) :=
  match route with
  | .untouched _ => return none
  | route => do
    let options ← Session.logged (formatter.config.optionsFor route)
    formatter.formatWith route options source

/-- Formats a text that a document holds and answers with the edit of it. -/
def formatContent (formatter : TreeFormatter σ π) (path source : Bytes) :
    Session σ (Option (List TextEdit)) :=
  match Route.ofPath? path formatter.lease.languages with
  | none => skip ["no formatter handles ", path]
  | some route => do
    match ← formatter.formatText route source with
    | none => return none
    | some formatted =>
      if formatted = source then return some []
      else return some (← Session.logged (TextEdit.between source formatted))

/-- Formats a document: the given content, or else that of its file. The answer is none if the
document is not formatted, and empty if it is formatted already. -/
def formatDocument (formatter : TreeFormatter σ π) (files : FileTree) (document : FileUri)
    (content : Option Bytes) : Session σ (Option (List TextEdit)) :=
  let path := document.path
  if path = [] then return none
  else if formatter.ignores files path then skip ["File is ignored: ", path]
  else match content with
    | some source => formatter.formatContent path source
    | none =>
      match files.read path with
      | .ok source => formatter.formatContent path source
      | .error error => skip ["cannot read ", path, ": ", error.message]

/-- The files that the host should watch for the given client options. -/
def watchedFiles (options : Json) : Logged (List Bytes) := do
  let options ← ClientOptions.read options
  return if options.configPath = [] then Route.configFileNames else [options.configPath]

/-- Ends the formatter, which closes its workspace. -/
def close (formatter : TreeFormatter σ π) : Session σ Unit := do
  let _ ← formatter.lease.release

end TreeFormatter

end FormatServer
