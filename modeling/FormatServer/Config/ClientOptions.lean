import FormatServer.Json.Schema
import FormatServer.Log

namespace FormatServer

/-- The options that an editor sends. The path of the configuration file is relative to the root,
and empty to search for it. -/
structure ClientOptions where
  configPath : Bytes := []
  deriving DecidableEq, Repr

namespace ClientOptions

/-- The key of the configuration path. -/
def configPathKey : String := "fmt.configPath"

/-- Decodes the options. -/
def decode (value : Json) : Decoded ClientOptions := do
  let members ← value.decodeObject
  let configPath ← members.optional configPathKey Json.decodeString []
  return { configPath }

/-- The options as a value. -/
def toJson (options : ClientOptions) : Json :=
  Json.mkObject [(configPathKey, .string options.configPath)]

/-- Decodes the options, or takes the defaults. An error is logged; null stands for options that are
not set yet. -/
def read (value : Json) : Logged ClientOptions :=
  match value with
  | .null => return {}
  | value =>
    match decode value with
    | .ok options => return options
    | .error error => do
      Logged.write (.error
        ["failed to deserialize format options: ", error.message [],
          ", falling back to default options"])
      return {}

end ClientOptions

end FormatServer
