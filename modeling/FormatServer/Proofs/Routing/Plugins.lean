import FormatServer.Proofs.Routing.Extensions

namespace FormatServer

open ParserTable

/-- Whether languages claim a file that other ones leave to the native engine or to none: the last
extension of its name, without the dot, is one of the languages and none of the others. -/
structure Claims (path : Bytes) (fewer more : PluginLanguages) (language : Bytes) : Prop where
  unclaimed : Route.ofPath? path fewer = none ∨
    ∃ kind, Route.ofPath? path fewer = some (.native path kind)
  isExtension : Path.extension (Path.filename path) = Ascii.dot :: language
  notEmpty : language ≠ []
  added : more.contains language = true
  new : fewer.contains language = false

section Plugins

variable {path language : Bytes} {fewer more : PluginLanguages}

/-- An extension is empty or starts with a dot. -/
theorem Path.extension_cases (path : Bytes) :
    Path.extension path = [] ∨ ∃ rest, Path.extension path = Ascii.dot :: rest := by
  unfold Path.extension
  dsimp only
  split
  · exact Or.inl rfl
  · exact Or.inr ⟨_, rfl⟩

/-- The language of a file is the last extension of its name, if a plugin has that name. -/
theorem Route.pluginOf?_eq_some_iff {languages : PluginLanguages} {name : Bytes} :
    Route.pluginOf? languages name = some language ↔
      Path.extension name = Ascii.dot :: language ∧ language ≠ [] ∧
        languages.contains language = true := by
  unfold Route.pluginOf?
  rcases Path.extension_cases name with none | ⟨rest, starts⟩
  · simp [none]
  · rw [starts]
    cases rest with
    | nil => simp +contextual
    | cons first rest =>
        by_cases claimed : languages.contains (first :: rest) = true
        · simp only [if_pos claimed, Option.some.injEq, List.cons.injEq, true_and]
          grind
        · simp only [if_neg claimed, List.cons.injEq, true_and]
          grind

/-- A language that is there stays the language of a file when there are more. -/
theorem Route.pluginOf?_mono
    (within : ∀ language, fewer.contains language = true → more.contains language = true)
    {name : Bytes} (found : pluginOf? fewer name = some language) :
    pluginOf? more name = some language := by
  rw [pluginOf?_eq_some_iff] at found ⊢
  exact ⟨found.1, found.2.1, within language found.2.2⟩

/-- What is known of a name decides whatever plugins there are. -/
theorem Route.ofPath?_of_builtIn? {route : Route} (known : builtIn? path = some route)
    (languages : PluginLanguages) : ofPath? path languages = some route := by
  rw [ofPath?_eq, known]
  rfl

/-- Where nothing is known of a name the language of a plugin decides. -/
theorem Route.ofPath?_of_pluginOf? {languages : PluginLanguages} (unknown : builtIn? path = none)
    (plugin : pluginOf? languages (Path.filename path) = some language) :
    ofPath? path languages = some (.external path language) := by
  rw [ofPath?_eq, unknown, plugin]
  rfl

/-- Where there is no such language either only the native engine is left. -/
theorem Route.ofPath?_of_none {languages : PluginLanguages} (unknown : builtIn? path = none)
    (noPlugin : pluginOf? languages (Path.filename path) = none) :
    ofPath? path languages = (ScriptKind.ofPath? path).map (native path) := by
  rw [ofPath?_eq, unknown, noPlugin]
  rfl

/-- What is known of a name is no script. -/
theorem Route.builtIn?_ne_native (path : Bytes) (kind : ScriptKind) :
    builtIn? path ≠ some (.native path kind) := by
  unfold builtIn?
  dsimp only
  split
  · simp
  · split
    · simp
    · simp

/-- A file is left to the native engine or to none if nothing is known of its name and no plugin has
its extension. -/
theorem Route.unclaimed_iff {languages : PluginLanguages} :
    (ofPath? path languages = none ∨ ∃ kind, ofPath? path languages = some (.native path kind)) ↔
      builtIn? path = none ∧ pluginOf? languages (Path.filename path) = none := by
  cases known : builtIn? path with
  | some route =>
      have notNative (kind : ScriptKind) := known ▸ builtIn?_ne_native path kind
      rw [ofPath?_of_builtIn? known]
      simp [notNative]
  | none =>
      cases plugin : pluginOf? languages (Path.filename path) with
      | some language =>
          rw [ofPath?_of_pluginOf? known plugin]
          simp
      | none =>
          rw [ofPath?_of_none known plugin]
          cases ScriptKind.ofPath? path with
          | none => simp
          | some kind => simp

/-- Languages claim a file if nothing is known of its name and they have its extension first. -/
theorem claims_iff : Claims path fewer more language ↔
    Route.builtIn? path = none ∧ Route.pluginOf? fewer (Path.filename path) = none ∧
      Route.pluginOf? more (Path.filename path) = some language := by
  constructor
  · intro claims
    obtain ⟨unknown, noPlugin⟩ := Route.unclaimed_iff.mp claims.unclaimed
    exact ⟨unknown, noPlugin,
      Route.pluginOf?_eq_some_iff.mpr ⟨claims.isExtension, claims.notEmpty, claims.added⟩⟩
  · rintro ⟨unknown, noPlugin, plugin⟩
    obtain ⟨isExtension, notEmpty, added⟩ := Route.pluginOf?_eq_some_iff.mp plugin
    refine ⟨Route.unclaimed_iff.mpr ⟨unknown, noPlugin⟩, isExtension, notEmpty, added, ?_⟩
    rw [← Bool.not_eq_true]
    intro old
    rw [Route.pluginOf?_eq_some_iff.mpr ⟨isExtension, notEmpty, old⟩] at noPlugin
    contradiction

/-- A file that more languages do not claim keeps its route. -/
theorem Route.ofPath?_of_not_claims
    (within : ∀ language, fewer.contains language = true → more.contains language = true)
    (unclaimed : ∀ language, ¬Claims path fewer more language) :
    ofPath? path more = ofPath? path fewer := by
  cases known : builtIn? path with
  | some route => rw [ofPath?_of_builtIn? known, ofPath?_of_builtIn? known]
  | none =>
      cases plugin : pluginOf? fewer (Path.filename path) with
      | some language =>
          rw [ofPath?_of_pluginOf? known plugin,
            ofPath?_of_pluginOf? known (pluginOf?_mono within plugin)]
      | none =>
          cases morePlugin : pluginOf? more (Path.filename path) with
          | some language =>
              exact absurd (claims_iff.mpr ⟨known, plugin, morePlugin⟩) (unclaimed language)
          | none => rw [ofPath?_of_none known plugin, ofPath?_of_none known morePlugin]

/-- A listed name or a known extension is enough for a route. -/
theorem Route.exists_builtIn? (known : (∃ row ∈ toBytes fileNames, row.1 = Path.filename path) ∨
    ∃ row ∈ toBytes extensions, EndsWith (Path.filename path) row.1) :
    ∃ route, builtIn? path = some route := by
  have hasParser : ((parserOfName? (Path.filename path)).or
      (parserOfExtension? (Path.filename path))).isSome := by
    rcases known with ⟨row, isRow, named⟩ | fits
    · have listed : parserOfName? (Path.filename path) ≠ none := fun notListed =>
        parserOfName?_eq_none_iff.mp notListed row isRow named
      simp [Option.isSome_iff_ne_none.mpr listed]
    · obtain ⟨row, _, _, isParser, _⟩ := exists_parserAmong? _ _ fits
      rw [parserOfExtension?, isParser]
      simp
  obtain ⟨parser, isParser⟩ := Option.isSome_iff_exists.mp hasParser
  simp only [builtIn?, isParser]
  split
  · exact ⟨_, rfl⟩
  · split
    · exact ⟨_, rfl⟩
    · exact ⟨_, rfl⟩

end Plugins

/-- More languages change the route of exactly the files that they claim: files that no engine or
only the native one had, and whose extension is one of the new languages, go to the external engine
with it. So whatever languages are reported, a configuration file stays untouched, the manifest
stays the manifest, and a file with a listed name or a known extension keeps its route. -/
theorem more_languages_only_claim_unclaimed_files (path : Bytes) {fewer more : PluginLanguages}
    (within : ∀ language, fewer.contains language = true → more.contains language = true) :
    (∀ language, Claims path fewer more language →
      Route.ofPath? path more = some (.external path language)) ∧
    ((∀ language, ¬Claims path fewer more language) →
      Route.ofPath? path more = Route.ofPath? path fewer) ∧
    ∀ reported,
      (Path.filename path ∈ Route.configFileNames →
        Route.ofPath? path (.ofReport reported) = some (.untouched path)) ∧
      (Path.filename path = Route.manifestFile →
        Route.ofPath? path (.ofReport reported) =
          some (.manifest path Route.parserOfManifest)) ∧
      ((∃ row ∈ toBytes fileNames, row.1 = Path.filename path) ∨
          (∃ row ∈ toBytes extensions, EndsWith (Path.filename path) row.1) →
        Route.ofPath? path (.ofReport reported) = Route.ofPath? path {}) := by
  refine ⟨fun language claims => ?_, Route.ofPath?_of_not_claims within, fun reported =>
    ⟨fun isConfig => ?_, fun isManifest => ?_, fun known => ?_⟩⟩
  · obtain ⟨unknown, _, plugin⟩ := claims_iff.mp claims
    exact Route.ofPath?_of_pluginOf? unknown plugin
  · apply Route.ofPath?_of_builtIn?
    simp [Route.builtIn?, isConfig]
  · have notConfig : Route.manifestFile ∉ Route.configFileNames := by decide +kernel
    apply Route.ofPath?_of_builtIn?
    simp [Route.builtIn?, isManifest, notConfig]
  · obtain ⟨route, isRoute⟩ := Route.exists_builtIn? known
    rw [Route.ofPath?_of_builtIn? isRoute, Route.ofPath?_of_builtIn? isRoute]

/-- A new language takes the files with its extension, and none that is known. -/
theorem more_languages_only_claim_unclaimed_files_svelte :
    Route.ofPath? "/p/App.svelte" ⟨["json", "svelte"]⟩ = some (.external "/p/App.svelte" "svelte") ∧
    Route.ofPath? "/p/a.json" ⟨["json", "svelte"]⟩ = Route.ofPath? "/p/a.json" ⟨["json"]⟩ := by
  have within (language : Bytes) :
      PluginLanguages.contains ⟨["json"]⟩ language = true →
        PluginLanguages.contains ⟨["json", "svelte"]⟩ language = true := by
    simp +contextual [PluginLanguages.contains]
  obtain ⟨claimed, _, _⟩ := more_languages_only_claim_unclaimed_files "/p/App.svelte" within
  obtain ⟨_, kept, _⟩ := more_languages_only_claim_unclaimed_files "/p/a.json" within
  refine ⟨claimed "svelte" ⟨Or.inl (by decide +kernel), by decide +kernel, by decide +kernel,
    by decide +kernel, by decide +kernel⟩, kept fun language claims => ?_⟩
  rcases claims.unclaimed with none | ⟨kind, isNative⟩
  · exact absurd none (by decide +kernel)
  · have isExternal : Route.ofPath? "/p/a.json" ⟨["json"]⟩ =
        some (.external "/p/a.json" "json") := by
      decide +kernel
    rw [isExternal] at isNative
    cases isNative

end FormatServer
