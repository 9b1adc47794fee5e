import FormatServer.Proofs.Service.Configuration

namespace FormatServer

/-- Whether two trees have the same content at a path. -/
structure FileTree.AgreeAt (left right : FileTree) (path : Bytes) : Prop where
  existence : left.contains path = right.contains path
  content : (left.read path).toOption = (right.read path).toOption

namespace LoadedConfig

variable {left right : FileTree} {root configPath : Bytes}

/-- The paths that the watched files of client options name. -/
def watchedPaths (root : Bytes) (options : Json) : List Bytes :=
  (TreeFormatter.watchedFiles options).value.map (explicitPath root)

/-- The paths of the default names in a root. -/
def defaultPaths (root : Bytes) : List Bytes :=
  Route.configFileNames.map (Path.append root)

/-- The default names are relative to the root. -/
theorem map_explicitPath_configFileNames (root : Bytes) :
    Route.configFileNames.map (explicitPath root) = defaultPaths root := by
  have relative : ∀ name ∈ Route.configFileNames, Path.isAbsolute name = false := by decide
  apply List.map_congr_left
  intro name member
  rw [explicitPath, relative name member]
  rfl

/-- Without a path of a configuration file the default names are watched, and else that path. -/
theorem watchedPaths_eq (root : Bytes) (options : Json) :
    watchedPaths root options =
      let configPath := (ClientOptions.read options).value.configPath
      if configPath = [] then defaultPaths root else [explicitPath root configPath] := by
  rw [watchedPaths, TreeFormatter.watchedFiles, Logged.value_bind, Logged.value_pure]
  dsimp only
  split
  · exact map_explicitPath_configFileNames root
  · rfl

/-- The file with a default name is the same in trees that agree at these names. -/
theorem defaultFile?_congr (agree : ∀ path ∈ defaultPaths root, left.AgreeAt right path) :
    defaultFile? left root = defaultFile? right root :=
  List.find?_congr fun path member => (agree path member).existence

/-- The explicit configuration file is taken if there is one, and else one with a default name. -/
theorem value_findFile (files : FileTree) (root configPath : Bytes) :
    (findFile files root configPath).value =
      if configPath ≠ [] ∧ files.contains (explicitPath root configPath) = true then
        some (explicitPath root configPath)
      else defaultFile? files root := by
  unfold findFile
  by_cases unset : configPath = []
  · simp [unset]
  · cases present : files.contains (explicitPath root configPath) <;> simp [unset, present]

/-- A file at which trees agree is loaded from both of them or from none. -/
theorem load_congr {file : Option Bytes} (agree : ∀ path ∈ file, left.AgreeAt right path) :
    (load left root file).toOption = (load right root file).toOption := by
  cases file with
  | none => rfl
  | some path =>
    have same := (agree path rfl).content
    unfold load
    cases fromLeft : left.read path <;> cases fromRight : right.read path <;>
      simp_all [Except.toOption]

/-- Trees that agree wherever the configuration file is searched hold the same one. -/
theorem findFile_congr
    (explicit : configPath ≠ [] → left.AgreeAt right (explicitPath root configPath))
    (byDefault : configPath = [] ∨ left.contains (explicitPath root configPath) = false →
      ∀ path ∈ defaultPaths root, left.AgreeAt right path) :
    (findFile left root configPath).value = (findFile right root configPath).value ∧
      ∀ path ∈ (findFile left root configPath).value, left.AgreeAt right path := by
  rw [value_findFile, value_findFile]
  by_cases named : configPath ≠ [] ∧ left.contains (explicitPath root configPath) = true
  · obtain ⟨set, present⟩ := named
    have alsoRight : right.contains (explicitPath root configPath) = true :=
      (explicit set).existence ▸ present
    rw [if_pos ⟨set, present⟩, if_pos ⟨set, alsoRight⟩]
    refine ⟨rfl, ?_⟩
    intro path same
    cases same
    exact explicit set
  · have absent : configPath = [] ∨ left.contains (explicitPath root configPath) = false := by
      by_cases set : configPath = []
      · exact .inl set
      · exact .inr (by simpa [set] using named)
    have agree := byDefault absent
    have alsoRight :
        ¬(configPath ≠ [] ∧ right.contains (explicitPath root configPath) = true) := by
      rintro ⟨set, present⟩
      exact named ⟨set, (explicit set).existence ▸ present⟩
    rw [if_neg named, if_neg alsoRight]
    refine ⟨defaultFile?_congr agree, ?_⟩
    intro path found
    exact agree path (List.mem_of_find?_eq_some found)

/-- Trees that agree at the watched files give the same configuration, if they also agree at the
default names when these come in place of a file that does not exist. -/
theorem loadOrDefault_congr {options : Json}
    (watched : ∀ path ∈ watchedPaths root options, left.AgreeAt right path)
    (fallback : let configPath := (ClientOptions.read options).value.configPath
      configPath ≠ [] → left.contains (explicitPath root configPath) = false →
        ∀ path ∈ defaultPaths root, left.AgreeAt right path) :
    (loadOrDefault left root (ClientOptions.read options).value.configPath).value =
      (loadOrDefault right root (ClientOptions.read options).value.configPath).value := by
  rw [watchedPaths_eq] at watched
  dsimp only at watched fallback
  generalize (ClientOptions.read options).value.configPath = configPath at watched fallback ⊢
  have explicit : configPath ≠ [] → left.AgreeAt right (explicitPath root configPath) := by
    intro set
    rw [if_neg set] at watched
    exact watched _ (List.mem_singleton.mpr rfl)
  have byDefault : configPath = [] ∨ left.contains (explicitPath root configPath) = false →
      ∀ path ∈ defaultPaths root, left.AgreeAt right path := by
    intro absent
    by_cases set : configPath = []
    · rwa [if_pos set] at watched
    · exact fallback set (absent.resolve_left set)
  obtain ⟨selected, agree⟩ := findFile_congr explicit byDefault
  rw [value_loadOrDefault, value_loadOrDefault, ← selected, load_congr agree]

end LoadedConfig

variable {σ π : Type}

/-- The configuration of a formatter and its patterns are the same for trees that agree at all
watched files. If the editor names a configuration file that does not exist then the trees must also
agree at the default names in the root. -/
theorem EngineSet.configuration_depends_on_searched_files (engines : EngineSet σ π)
    {left right : FileTree} (root : FileUri) (options : Json)
    (watched : ∀ path ∈ LoadedConfig.watchedPaths root.path options, left.AgreeAt right path)
    (fallback : let configPath := (ClientOptions.read options).value.configPath
      configPath ≠ [] → left.contains (LoadedConfig.explicitPath root.path configPath) = false →
        ∀ path ∈ LoadedConfig.defaultPaths root.path, left.AgreeAt right path)
    (leftState rightState : SessionState σ) :
    let leftFormatter := ((engines.build left root options).run leftState).1
    let rightFormatter := ((engines.build right root options).run rightState).1
    let patterns := leftFormatter.config.settings.ignorePatterns
    leftFormatter.config = rightFormatter.config ∧
      leftFormatter.ignored = (IgnoreRules.ofRoot left root.path patterns).toOption ∧
      rightFormatter.ignored = (IgnoreRules.ofRoot right root.path patterns).toOption := by
  intro leftFormatter rightFormatter patterns
  obtain ⟨leftConfig, leftIgnored⟩ := engines.run_build left root options leftState
  obtain ⟨rightConfig, rightIgnored⟩ := engines.run_build right root options rightState
  have same := LoadedConfig.loadOrDefault_congr watched fallback
  have configs : leftFormatter.config = rightFormatter.config :=
    leftConfig.trans (same ▸ rightConfig.symm)
  refine ⟨configs, ?_, ?_⟩
  · rw [leftIgnored, ← leftConfig]
  · rw [rightIgnored, ← rightConfig, ← configs]

theorem EngineSet.configuration_depends_on_searched_files_fallback :
    let engines : EngineSet Unit Unit := {}
    let options : Json := .object [("fmt.configPath", .string "missing.json")]
    let left := ({} : FileTree).insert "/p/.fmtrc.json" (.file "\x7b\"tabWidth\":4\x7d")
    let right := left.insert "/p/a.ts" (.file "a")
    let built (files : FileTree) := ((engines.build files ⟨"/p"⟩ options).run ⟨(), []⟩).1
    (∀ path ∈ LoadedConfig.watchedPaths "/p" options, left.AgreeAt right path) ∧
      (∀ path ∈ LoadedConfig.defaultPaths "/p", left.AgreeAt right path) ∧
      (built left).config.file = some "/p/.fmtrc.json" ∧
      (built left).config = (built right).config := by
  intro engines options left right built
  have watched : ∀ path ∈ LoadedConfig.watchedPaths "/p" options, left.AgreeAt right path := by
    intro path member
    obtain rfl : path = "/p/missing.json" := List.mem_singleton.mp member
    exact ⟨rfl, rfl⟩
  have searched : ∀ path ∈ LoadedConfig.defaultPaths "/p", left.AgreeAt right path := by
    intro path member
    change path ∈ (["/p/.fmtrc.json", "/p/.fmtrc.jsonc"] : List Bytes) at member
    rcases List.mem_pair.mp member with rfl | rfl
    · exact ⟨rfl, rfl⟩
    · exact ⟨rfl, rfl⟩
  obtain ⟨same, _⟩ := engines.configuration_depends_on_searched_files ⟨"/p"⟩ options watched
    (fun _ _ => searched) ⟨(), []⟩ ⟨(), []⟩
  refine ⟨watched, searched, ?_, same⟩
  simp only [built, engines, left, options]
  cbv

/-- A file with a default name decides about the configuration in place of one that does not exist,
and is not watched. -/
theorem EngineSet.exists_configuration_of_unwatched_file :
    let engines : EngineSet Unit Unit := {}
    let options : Json := .object [("fmt.configPath", .string "missing.json")]
    let left := ({} : FileTree).insert "/p/a.ts" (.file "a")
    let right := left.insert "/p/.fmtrc.json" (.file "\x7b\"tabWidth\":4\x7d")
    let told (files : FileTree) :=
      (((engines.build files ⟨"/p"⟩ options).run ⟨(), []⟩).1.config.optionsFor
        (.external "/p/a.md" "markdown")).value
    (∀ path ∈ LoadedConfig.watchedPaths "/p" options, left.AgreeAt right path) ∧
      (∃ external newline, told left = .external external newline ∧
        external.get? "tabWidth" = some (.ofInt 2)) ∧
      ∃ external newline, told right = .external external newline ∧
        external.get? "tabWidth" = some (.ofInt 4) := by
  intro engines options left right told
  refine ⟨?_, ⟨_, _, LoadedConfig.value_optionsFor _ _, ?_⟩,
    ⟨_, _, LoadedConfig.value_optionsFor _ _, ?_⟩⟩
  · intro path member
    obtain rfl : path = "/p/missing.json" := List.mem_singleton.mp member
    exact ⟨rfl, rfl⟩
  · simp only [engines, left, options]
    cbv
  · simp only [engines, right, left, options]
    cbv

end FormatServer
