import FormatServer.Text.Bytes

namespace FormatServer.Manifest

/-- The names of the fields with a place of their own, in that order. -/
def fieldNames : List String :=
  ["$schema", "name", "displayName", "version", "stableVersion", "gitHead", "private",
    "description", "categories", "keywords", "homepage", "bugs", "repository", "funding",
    "license", "qna", "author", "maintainers", "contributors", "publisher", "sideEffects", "type",
    "imports", "exports", "main", "svelte", "umd:main", "jsdelivr", "unpkg", "module", "source",
    "jsnext:main", "browser", "react-native", "types", "typesVersions", "typings", "style",
    "example", "examplestyle", "assets", "bin", "man", "directories", "files", "workspaces",
    "binary", "scripts", "betterScripts", "l10n", "contributes", "activationEvents", "husky",
    "simple-git-hooks", "pre-commit", "commitlint", "lint-staged", "nano-staged", "config",
    "nodemonConfig", "browserify", "babel", "browserslist", "xo", "prettier", "eslintConfig",
    "eslintIgnore", "npmpackagejsonlint", "release", "remarkConfig", "stylelint", "ava", "jest",
    "jest-junit", "jest-stare", "mocha", "nyc", "c8", "tap", "oclif", "resolutions",
    "dependencies", "devDependencies", "dependenciesMeta", "peerDependencies",
    "peerDependenciesMeta", "optionalDependencies", "bundledDependencies", "bundleDependencies",
    "extensionPack", "extensionDependencies", "flat", "packageManager", "engines", "engineStrict",
    "volta", "languageName", "os", "cpu", "preferGlobal", "publishConfig", "icon", "badges",
    "galleryBanner", "preview", "markdown", "pnpm"]

/-- The fields with a place of their own. -/
def rankedFields : List Bytes :=
  fieldNames.map Bytes.ofString

/-- The fields whose value is a map that is sorted by its keys. -/
def orderedMaps : List Bytes :=
  ["dependencies", "devDependencies", "peerDependencies", "optionalDependencies",
    "peerDependenciesMeta", "dependenciesMeta", "resolutions", "engines"]

/-- The field whose value maps names to scripts. -/
def scriptsField : Bytes := "scripts"

/-- Whether a field stands before another: the conventional fields come first in their order, then
the other fields by their bytes, and last those that start with an underscore. -/
def precedes (left right : Bytes) : Bool :=
  match rankedFields.idxOf? left, rankedFields.idxOf? right with
  | some place, some other => place < other
  | some _, none => true
  | none, some _ => false
  | none, none =>
    match left.head? == some Ascii.underscore, right.head? == some Ascii.underscore with
    | false, true => true
    | true, false => false
    | _, _ => left < right

end FormatServer.Manifest
