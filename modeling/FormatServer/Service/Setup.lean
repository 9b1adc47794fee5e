import FormatServer.Service.Formatter

namespace FormatServer

/-- The files with ignore rules that are read from the root of a tree. -/
def ignoreFiles : List Bytes :=
  [".gitignore", ".prettierignore"]

/-- Why there are no ignore rules: because of a file, or of a pattern of the configuration. -/
inductive IgnoreSetupError where
  | file (path : Bytes) (error : IgnoreError)
  | pattern (line : Bytes) (error : RuleError)
  deriving DecidableEq, Repr

/-- The text of an error of the ignore rules. -/
def IgnoreSetupError.message : IgnoreSetupError → Bytes
  | file path error => Bytes.concat ["Failed to add ignore file ", path, ": ", error.message]
  | pattern line error =>
    Bytes.concat ["Invalid ignore pattern: ", line, ": ", error.message]

namespace LoadedConfig

/-- The path of the explicit configuration file, which may be relative to the root. -/
def explicitPath (root configPath : Bytes) : Bytes :=
  if Path.isAbsolute configPath then configPath else Path.append root configPath

/-- The first default name under which the root holds something. -/
def defaultFile? (files : FileTree) (root : Bytes) : Option Bytes :=
  (Route.configFileNames.map (Path.append root)).find? files.contains

/-- The configuration file: the explicit one, or else one with a default name. -/
def findFile (files : FileTree) (root configPath : Bytes) : Logged (Option Bytes) :=
  if configPath = [] then return defaultFile? files root
  else
    let explicit := explicitPath root configPath
    if files.contains explicit then return some explicit
    else do
      Logged.write (.error
        ["Config file not found: ", explicit, ", searching for `", Route.configFileName, ", ",
          Route.commentedConfigFileName, "` in the root path"])
      return defaultFile? files root

/-- The defaults, put in force. -/
def defaults (root : Bytes) : LoadedConfig :=
  ({ root } : LoadedConfig).putInForce.2

/-- Puts a configuration in force, or the defaults in its place. -/
def inForceOrDefault (config : LoadedConfig) : Logged (LoadedConfig × List Bytes) :=
  match config.putInForce with
  | (.ok patterns, config) => return (config, patterns)
  | (.error error, _) => do
    Logged.write (.error
      ["Failed to parse configuration: ", error.message, ", using default config"])
    return (defaults config.root, [])

/-- Loads a configuration and puts it in force, or the defaults in its place. The patterns of paths
that are not formatted come with it. -/
def loadOrDefault (files : FileTree) (root configPath : Bytes) :
    Logged (LoadedConfig × List Bytes) := do
  let file ← findFile files root configPath
  match LoadedConfig.load files root file with
  | .ok config => config.inForceOrDefault
  | .error error =>
    Logged.write (.error
      ["Failed to load configuration file: ", error.message, ", using default config"])
    LoadedConfig.inForceOrDefault { root }

end LoadedConfig

namespace IgnoreRules

/-- Adds the rules of files that exist. -/
def withFiles (files : FileTree) : IgnoreRules → List Bytes → Except IgnoreSetupError IgnoreRules
  | rules, [] => .ok rules
  | rules, path :: paths =>
    if files.contains path then
      match rules.withFile files path with
      | (rules, none) => withFiles files rules paths
      | (_, some error) => .error (.file path error)
    else withFiles files rules paths

/-- Adds patterns of a configuration. -/
def withPatterns : IgnoreRules → List Bytes → Except IgnoreSetupError IgnoreRules
  | rules, [] => .ok rules
  | rules, pattern :: patterns =>
    match rules.withLine pattern with
    | .ok rules => withPatterns rules patterns
    | .error error => .error (.pattern pattern error)

/-- The rules of a tree: those of its ignore files, then those of its configuration. -/
def ofRoot (files : FileTree) (root : Bytes) (patterns : List Bytes) :
    Except IgnoreSetupError IgnoreRules := do
  let rules ← withFiles files (empty root) (ignoreFiles.map (Path.append root))
  withPatterns rules patterns

end IgnoreRules

/-- What formatters are built with. -/
structure EngineSet (σ π : Type) where
  external : Option (ExternalEngine σ) := none
  native : Option (NativeEngine σ π) := none

/-- What a change asks the host for: the formatter that replaces the one before, and the files to
watch from now on if they changed. -/
structure Replacement (σ π : Type) where
  formatter : Option (TreeFormatter σ π) := none
  watched : Option (List Bytes) := none

namespace EngineSet

variable {σ π : Type}

/-- What the host may tell the editor about formatters. -/
def addCapabilities (capabilities : JsonObject) : JsonObject :=
  capabilities.insert "documentFormattingProvider" (.bool true)

/-- Builds the formatter of a tree. -/
def build (engines : EngineSet σ π) (files : FileTree) (root : FileUri)
    (options : Json) : Session σ (TreeFormatter σ π) := do
  let options ← Session.logged (ClientOptions.read options)
  let (config, patterns) ←
    Session.logged (LoadedConfig.loadOrDefault files root.path options.configPath)
  let ignored ←
    match IgnoreRules.ofRoot files root.path patterns with
    | .ok rules => pure (some rules)
    | .error error => do
      Session.write (.error
        ["Failed to create gitignore globs: ", error.message,
          ", proceeding without ignore globs"])
      pure none
  let lease ←
    (WorkspaceLease.idle engines.external).acquire root.path defaultThreads
  return { config, ignored, lease, native := engines.native }

/-- Answers a change of the client options: if they differ, a new formatter and its watched files.
-/
def afterOptions (engines : EngineSet σ π) (files : FileTree) (root : FileUri)
    (oldOptions newOptions : Json) : Session σ (Replacement σ π) := do
  let old ← Session.logged (ClientOptions.read oldOptions)
  let new ← Session.logged (ClientOptions.read newOptions)
  if old = new then return {}
  else
    let formatter ← engines.build files root newOptions
    let patterns ← Session.logged (TreeFormatter.watchedFiles newOptions)
    return { formatter := some formatter, watched := some patterns }

/-- Answers a change of a watched file with a new formatter, as any of them may hold the
configuration. -/
def afterFile (engines : EngineSet σ π) (files : FileTree) (changed root : FileUri)
    (options : Json) : Session σ (Replacement σ π) := do
  Session.write (.verbose ["watched file ", changed.path, " changed, rebuilding formatter"])
  return { formatter := some (← engines.build files root options) }

end EngineSet

end FormatServer
