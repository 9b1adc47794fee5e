import FormatServer.Path
import FormatServer.Routing.Table

namespace FormatServer

/-- The language of a script. -/
inductive ScriptLanguage where
  | javaScript
  | typeScript
  deriving DecidableEq, Repr

/-- How a script is loaded. -/
inductive LoadingKind where
  | ecmaModule
  | script
  | unambiguous
  deriving DecidableEq, Repr

/-- Which syntax beyond the language itself a script may use. -/
inductive SyntaxVariant where
  | standard
  | jsx
  | declaration
  deriving DecidableEq, Repr

/-- What the native parser is told about a script. -/
structure ScriptKind where
  language : ScriptLanguage := .javaScript
  loading : LoadingKind := .ecmaModule
  variant : SyntaxVariant := .standard
  deriving DecidableEq, Repr

namespace ScriptKind

/-- The extensions of declaration files. -/
def declarationExtensions : List Bytes :=
  [".d.ts", ".d.mts", ".d.cts"]

/-- The extensions of scripts in lower case, and the kind of each. -/
def extensions : List (Bytes × ScriptKind) :=
  [(".js", {}), (".mjs", {}),
    (".cjs", { loading := .script }),
    (".jsx", { variant := .jsx }),
    (".ts", { language := .typeScript }), (".mts", { language := .typeScript }),
    (".cts", { language := .typeScript, loading := .script }),
    (".tsx", { language := .typeScript, variant := .jsx })]

/-- The kind of a script, by the name of its file: a declaration file first, then by the last
extension. The case of ASCII letters does not count. -/
def ofPath? (path : Bytes) : Option ScriptKind :=
  let name := Path.filename path
  if declarationExtensions.any (ParserTable.endsWithIgnoringCase name) then
    some { language := .typeScript, variant := .declaration }
  else
    let extension := (Path.extension name).toLower
    (extensions.find? fun row => row.1 = extension).map (·.2)

/-- Allows tags in plain scripts, which may always hold them. -/
def allowTags (kind : ScriptKind) : ScriptKind :=
  if kind.language = .javaScript ∧ kind.variant = .standard then { kind with variant := .jsx }
  else kind

end ScriptKind

end FormatServer
