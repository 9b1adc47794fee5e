import FormatServer.Config.Settings
import FormatServer.Files
import FormatServer.Json.Comments
import FormatServer.Log
import FormatServer.Routing.Route

namespace FormatServer

/-- Why a configuration is refused. The members at fault need not come from a file. -/
inductive ConfigError where
  | unreadable (file : Bytes) (error : FileError)
  | notJson (file : Bytes)
  | notAnObject (file : Bytes)
  | schema (file : Option Bytes) (error : SchemaError)
  | setting (file : Option Bytes) (error : SettingError)
  deriving DecidableEq, Repr

namespace ConfigError

/-- How the place of a configuration is written. -/
def place (file : Option Bytes) : Bytes :=
  file.getD "<default>"

/-- The text of a configuration error. -/
def message : ConfigError → Bytes
  | unreadable file error => Bytes.concat ["failed to read ", file, ": ", error.message]
  | notJson file => Bytes.concat ["failed to parse ", file, ": ", Json.syntaxErrorMessage]
  | notAnObject file => Bytes.concat [file, ": configuration must be a JSON object"]
  | schema file error => Bytes.concat [place file, ": ", error.message "config"]
  | setting file error => Bytes.concat [place file, ": ", error.message]

end ConfigError

/-- A configuration that has been accepted: the settings and what they mean to the native engine. -/
structure AcceptedConfig where
  settings : Settings := {}
  native : NativeOptions := {}

/-- The options for a file, in the shape of its route. Those for the native engine hold external
options too, which are for embedded code. -/
inductive FileOptions where
  | native (options : NativeOptions) (external : JsonObject) (insertFinalNewline : Bool)
  | untouched
  | external (options : JsonObject) (insertFinalNewline : Bool)
  | manifest (options : JsonObject) (sortManifest insertFinalNewline : Bool)

/-- The configuration of a directory tree: the members of the file that it comes from, and what they
stand for once they have been accepted. -/
structure LoadedConfig where
  root : Bytes
  file : Option Bytes := none
  raw : JsonObject := []
  accepted : Option AcceptedConfig := none

namespace LoadedConfig

/-- Loads a configuration file, or the defaults without one. -/
def load (files : FileTree) (root : Bytes) (file : Option Bytes) :
    Except ConfigError LoadedConfig :=
  match file with
  | none => .ok { root }
  | some path =>
    match files.read path with
    | .error error => .error (.unreadable path error)
    | .ok content =>
      match Jsonc.parse? content with
      | none => .error (.notJson path)
      | some (.object raw) => .ok { root, file, raw }
      | some _ => .error (.notAnObject path)

/-- Checks the types and the values of all settings. -/
def accept (config : LoadedConfig) : Except ConfigError AcceptedConfig := do
  let settings ← (Settings.decode (.object config.raw)).mapError (.schema config.file)
  let native ← settings.forNative.mapError (.setting config.file)
  let unknown := config.raw.filter fun pair => !Settings.keys.contains pair.1
  return { settings := { settings with unknown }, native }

/-- Puts the configuration in force if it is accepted as a whole. The result holds the patterns of
paths that are not formatted. -/
def putInForce (config : LoadedConfig) : Except ConfigError (List Bytes) × LoadedConfig :=
  match config.accept with
  | .ok accepted =>
    (.ok accepted.settings.ignorePatterns, { config with accepted := some accepted })
  | .error error => (.error error, config)

/-- The configuration in force. -/
def inForce (config : LoadedConfig) : AcceptedConfig :=
  config.accepted.getD {}

/-- The settings in force. -/
def settings (config : LoadedConfig) : Settings :=
  config.inForce.settings

/-- The options for a file. -/
def optionsFor (config : LoadedConfig) (route : Route) : Logged FileOptions := do
  if config.accepted.isNone then
    Logged.write (.verbose
      ["resolving options of ", route.path, " from unvalidated configuration"])
  let settings := config.settings
  match route with
  | .native _ _ =>
    return .native config.inForce.native settings.forExternal settings.insertFinalNewline
  | .untouched _ => return .untouched
  | .external _ _ => return .external settings.forExternal settings.insertFinalNewline
  | .manifest _ _ =>
    return .manifest settings.forExternal settings.sortManifest settings.insertFinalNewline

end LoadedConfig

end FormatServer
