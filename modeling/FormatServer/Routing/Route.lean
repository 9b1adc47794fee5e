import FormatServer.Routing.ScriptKind

namespace FormatServer

/-- The languages that plugins of the external engine add, in the order of their bytes and each
once. -/
structure PluginLanguages where
  names : List Bytes := []
  deriving DecidableEq, Repr

namespace PluginLanguages

/-- Puts a name in its place among sorted names. -/
def insertName (name : Bytes) : List Bytes → List Bytes
  | [] => [name]
  | other :: rest =>
    if name = other then other :: rest
    else if name < other then name :: other :: rest
    else other :: insertName name rest

/-- The languages of a report, in which order and repetitions do not count. -/
def ofReport (reported : List Bytes) : PluginLanguages :=
  ⟨reported.foldl (fun names name => insertName name names) []⟩

/-- Whether a plugin adds a language. -/
def contains (languages : PluginLanguages) (name : Bytes) : Bool :=
  languages.names.contains name

end PluginLanguages

/-- How a file is formatted. One that configures the formatter is left untouched. -/
inductive Route where
  | native (path : Bytes) (kind : ScriptKind)
  | untouched (path : Bytes)
  | external (path parser : Bytes)
  | manifest (path parser : Bytes)
  deriving DecidableEq, Repr

namespace Route

/-- The path of the file. -/
def path : Route → Bytes
  | native path _ | untouched path | external path _ | manifest path _ => path

/-- The usual name of the file that configures the formatter. -/
def configFileName : Bytes := ".fmtrc.json"

/-- The name of a configuration file that is marked as holding comments. -/
def commentedConfigFileName : Bytes := ".fmtrc.jsonc"

/-- The files that configure the formatter. -/
def configFileNames : List Bytes :=
  [configFileName, commentedConfigFileName]

/-- The package manifest. -/
def manifestFile : Bytes := "package.json"

/-- The parser of the package manifest. -/
def parserOfManifest : Bytes := "json-stringify"

/-- The language of a plugin for the last extension of a file. -/
def pluginOf? (languages : PluginLanguages) (name : Bytes) : Option Bytes :=
  match Path.extension name with
  | _ :: first :: rest =>
    if languages.contains (first :: rest) then some (first :: rest) else none
  | _ => none

/-- Decides how a file is formatted: configuration files, then the manifest, exact names, the
longest known extension, languages of plugins, and scripts. -/
def ofPath? (path : Bytes) (languages : PluginLanguages) : Option Route :=
  let name := Path.filename path
  if configFileNames.contains name then some (untouched path)
  else if name = manifestFile then some (manifest path parserOfManifest)
  else match ParserTable.parserOfName? name with
    | some parser => some (external path parser)
    | none =>
      match ParserTable.parserOfExtension? name with
      | some parser => some (external path parser)
      | none =>
        match pluginOf? languages name with
        | some language => some (external path language)
        | none => (ScriptKind.ofPath? path).map (native path)

/-- The path of a route is the one that it was decided for. -/
theorem path_of_ofPath? {path : Bytes} {languages : PluginLanguages} {route : Route}
    (found : ofPath? path languages = some route) : route.path = path := by
  unfold ofPath? at found
  dsimp only at found
  repeat' split at found
  all_goals try (simp only [Option.map_eq_some_iff] at found; obtain ⟨_, _, found⟩ := found)
  all_goals simp_all [Route.path]
  all_goals rw [← found]

end Route

end FormatServer
