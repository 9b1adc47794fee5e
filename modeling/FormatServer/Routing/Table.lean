import FormatServer.Text.Bytes

namespace FormatServer

namespace ParserTable

/-- The files known by their exact name, and the parser of each. -/
def fileNames : List (String × String) :=
  [("composer.json", "json-stringify"), ("package-lock.json", "json-stringify"),
    (".all-contributorsrc", "json"), (".arcconfig", "json"), (".auto-changelog", "json"),
    (".c8rc", "json"), (".htmlhintrc", "json"), (".imgbotconfig", "json"), (".nycrc", "json"),
    (".tern-config", "json"), (".tern-project", "json"), (".watchmanconfig", "json"),
    (".babelrc", "json"), (".jscsrc", "json"), (".jshintrc", "json"), (".jslintrc", "json"),
    (".swcrc", "json"), (".clang-format", "yaml"), (".clang-tidy", "yaml"), (".clangd", "yaml"),
    (".gemrc", "yaml"), ("CITATION.cff", "yaml"), ("glide.lock", "yaml"), ("pixi.lock", "yaml"),
    (".prettierrc", "yaml"), (".stylelintrc", "yaml"), (".lintstagedrc", "yaml"),
    ("README", "markdown"), ("contents.lr", "markdown")]

/-- The files known by their extension, and the parser of each. An extension may have several parts.
-/
def extensions : List (String × String) :=
  [(".json", "json"), (".4DForm", "json"), (".4DProject", "json"), (".avsc", "json"),
    (".geojson", "json"), (".gltf", "json"), (".har", "json"), (".ice", "json"),
    (".JSON-tmLanguage", "json"), (".json.example", "json"), (".mcmeta", "json"),
    (".sarif", "json"), (".tact", "json"), (".tfstate", "json"), (".tfstate.backup", "json"),
    (".topojson", "json"), (".webapp", "json"), (".webmanifest", "json"), (".yy", "json"),
    (".yyp", "json"), (".importmap", "json-stringify"), (".jsonc", "jsonc"),
    (".code-snippets", "jsonc"), (".code-workspace", "jsonc"), (".sublime-build", "jsonc"),
    (".sublime-color-scheme", "jsonc"), (".sublime-commands", "jsonc"),
    (".sublime-completions", "jsonc"), (".sublime-keymap", "jsonc"), (".sublime-macro", "jsonc"),
    (".sublime-menu", "jsonc"), (".sublime-mousemap", "jsonc"), (".sublime-project", "jsonc"),
    (".sublime-settings", "jsonc"), (".sublime-theme", "jsonc"), (".sublime-workspace", "jsonc"),
    (".sublime_metrics", "jsonc"), (".sublime_session", "jsonc"), (".json5", "json5"),
    (".css", "css"), (".wxss", "css"), (".pcss", "css"), (".postcss", "css"), (".less", "less"),
    (".scss", "scss"), (".md", "markdown"), (".livemd", "markdown"), (".markdown", "markdown"),
    (".mdown", "markdown"), (".mdwn", "markdown"), (".mkd", "markdown"), (".mkdn", "markdown"),
    (".mkdown", "markdown"), (".ronn", "markdown"), (".scd", "markdown"),
    (".workbook", "markdown"), (".mdx", "mdx"), (".html", "html"), (".htm", "html"),
    (".hta", "html"), (".inc", "html"), (".xht", "html"), (".xhtml", "html"),
    (".component.html", "angular"), (".vue", "vue"), (".mjml", "mjml"), (".graphql", "graphql"),
    (".gql", "graphql"), (".graphqls", "graphql"), (".handlebars", "glimmer"),
    (".hbs", "glimmer"), (".yml", "yaml"), (".yaml", "yaml"), (".mir", "yaml"), (".reek", "yaml"),
    (".rviz", "yaml"), (".sublime-syntax", "yaml"), (".syntax", "yaml"),
    (".yaml-tmlanguage", "yaml")]

/-- Rows of a table as bytes. -/
def toBytes (rows : List (String × String)) : List (Bytes × Bytes) :=
  rows.map fun (name, parser) => (Bytes.ofString name, Bytes.ofString parser)

/-- Whether a name is longer than a suffix and ends with it, where the case of ASCII letters does
not count. -/
def endsWithIgnoringCase (name suffix : Bytes) : Bool :=
  suffix.length < name.length && suffix.toLower.isSuffixOf name.toLower

/-- The parser of a file with an exact name. -/
def parserOfName? (name : Bytes) : Option Bytes :=
  ((toBytes fileNames).find? fun row => row.1 = name).map (·.2)

/-- The longer of two extensions that fit a name, the first one if they are equally long. -/
def longer (best : Option (Bytes × Bytes)) (row : Bytes × Bytes) : Option (Bytes × Bytes) :=
  match best with
  | some (extension, parser) =>
    if extension.length < row.1.length then some row else some (extension, parser)
  | none => some row

/-- The parser of the longest extension in a table that a name ends with. -/
def parserAmong? (rows : List (Bytes × Bytes)) (name : Bytes) : Option Bytes :=
  let fitting := rows.filter fun row => endsWithIgnoringCase name row.1
  (fitting.foldl longer none).map (·.2)

/-- The parser of the longest known extension that a name ends with. -/
def parserOfExtension? (name : Bytes) : Option Bytes :=
  parserAmong? (toBytes extensions) name

end ParserTable

end FormatServer
