import FormatServer.Proofs.Config.Acceptance
import FormatServer.Proofs.Json.Grammar
import FormatServer.Service.Setup

namespace FormatServer

/-- The members of an object that is read are in the form of an object. -/
theorem Json.ordered_of_parse? {text : Bytes} {members : JsonObject}
    (read : parse? text = some (.object members)) : members.Ordered := by
  have empty : JsonObject.Ordered [] := List.Pairwise.nil
  unfold parse? at read
  split at read
  · obtain ⟨tokens, _, spelled⟩ := Option.bind_eq_some_iff.mp read
    cases ofTokens?_eq_some_iff.mp spelled with
    | emptyObject => exact empty
    | object _ => exact empty.foldl_insert _
  · contradiction

namespace LoadedConfig

variable {files : FileTree} {root path : Bytes}

/-- What makes a configuration file broken. -/
inductive IsBroken (files : FileTree) (path : Bytes) : Prop where
  | unreadable {error : FileError} (fails : files.read path = .error error)
  | notJson {content : Bytes} (reads : files.read path = .ok content)
      (noValue : Jsonc.parse? content = none)
  | notAnObject {content : Bytes} {value : Json} (reads : files.read path = .ok content)
      (holds : Jsonc.parse? content = some value) (other : ∀ members, value ≠ .object members)
  | refused {content : Bytes} {raw : JsonObject} {key : Bytes} {value : Json}
      (reads : files.read path = .ok content) (holds : Jsonc.parse? content = some (.object raw))
      (member : raw.get? key = some value) (notAllowed : ¬Settings.Allows key value)

/-- Whether a file holds the given members, each of them allowed. -/
structure Holds (files : FileTree) (path : Bytes) (raw : JsonObject) : Prop where
  content : ∃ content, files.read path = .ok content ∧ Jsonc.parse? content = some (.object raw)
  allowed : ∀ key value, raw.get? key = some value → Settings.Allows key value

/-- A file that is not broken holds members that are allowed. -/
theorem exists_holds_of_not_isBroken (sound : ¬IsBroken files path) :
    ∃ raw, Holds files path raw := by
  cases reads : files.read path with
  | error error => exact absurd (.unreadable reads) sound
  | ok content =>
    cases holds : Jsonc.parse? content with
    | none => exact absurd (.notJson reads holds) sound
    | some value =>
      cases value with
      | object raw =>
        refine ⟨raw, ⟨content, reads, holds⟩, fun key value member => ?_⟩
        by_contra notAllowed
        exact sound (.refused reads holds member notAllowed)
      | _ => exact absurd (.notAnObject reads holds nofun) sound

theorem Holds.ordered {raw : JsonObject} (holds : Holds files path raw) : raw.Ordered := by
  obtain ⟨content, _, parsed⟩ := holds.content
  exact Json.ordered_of_parse? parsed

/-- A file with members that are allowed is loaded and accepted. -/
theorem Holds.exists_accepted {raw : JsonObject} (holds : Holds files path raw) (root : Bytes) :
    load files root (some path) = .ok { root, file := some path, raw } ∧
      ∃ accepted, accept { root, file := some path, raw } = .ok accepted := by
  obtain ⟨content, reads, parsed⟩ := holds.content
  exact ⟨by simp [load, reads, parsed], (accept_isOk_iff _).mpr holds.allowed⟩

/-- A broken file is not loaded, or is not accepted. -/
theorem IsBroken.refused_of_load (broken : IsBroken files path) {config : LoadedConfig}
    (loads : load files root (some path) = .ok config) (accepted : AcceptedConfig) :
    config.accept ≠ .ok accepted := by
  cases broken with
  | unreadable fails => simp [load, fails] at loads
  | notJson reads noValue => simp [load, reads, noValue] at loads
  | @notAnObject content value reads holds other =>
    cases value with
    | object members => exact absurd rfl (other members)
    | _ => simp [load, reads, holds] at loads
  | refused reads holds member notAllowed =>
    simp only [load, reads, holds, Except.ok.injEq] at loads
    subst loads
    intro accepts
    exact notAllowed ((accept_isOk_iff _).mp ⟨accepted, accepts⟩ _ _ member)

/-- What is accepted is in force. -/
theorem value_inForceOrDefault_of_accept {config : LoadedConfig} {accepted : AcceptedConfig}
    (accepts : config.accept = .ok accepted) :
    config.inForceOrDefault.value =
      ({ config with accepted := some accepted }, accepted.settings.ignorePatterns) := by
  simp [inForceOrDefault, putInForce, accepts]

/-- In place of what is refused the defaults are in force. -/
theorem value_inForceOrDefault_of_refused {config : LoadedConfig}
    (refused : ∀ accepted, config.accept ≠ .ok accepted) :
    config.inForceOrDefault.value = (defaults config.root, []) := by
  cases accepts : config.accept with
  | ok accepted => exact absurd accepts (refused accepted)
  | error error => simp [inForceOrDefault, putInForce, accepts]

/-- What is loaded is not in force yet, and its members are in the form of an object. -/
theorem fresh_of_load {file : Option Bytes} {config : LoadedConfig}
    (loads : load files root file = .ok config) :
    config = { root, file, raw := config.raw } ∧ config.raw.Ordered := by
  cases file with
  | none =>
    cases loads
    exact ⟨rfl, List.Pairwise.nil⟩
  | some path =>
    cases reads : files.read path with
    | error error => simp [load, reads] at loads
    | ok content =>
      cases parsed : Jsonc.parse? content with
      | none => simp [load, reads, parsed] at loads
      | some value =>
        cases value with
        | object raw =>
          simp only [load, reads, parsed, Except.ok.injEq] at loads
          subst loads
          exact ⟨rfl, Json.ordered_of_parse? parsed⟩
        | _ => simp [load, reads, parsed] at loads

variable {configPath : Bytes}

/-- A file that cannot be loaded counts as none. -/
theorem value_loadOrDefault (files : FileTree) (root configPath : Bytes) :
    (loadOrDefault files root configPath).value =
      ((load files root (findFile files root configPath).value).toOption.getD
        { root }).inForceOrDefault.value := by
  simp only [loadOrDefault, Logged.value_bind]
  cases load files root (findFile files root configPath).value <;> rfl

/-- The patterns that are loaded are those of the configuration. -/
theorem patterns_loadOrDefault (files : FileTree) (root configPath : Bytes) :
    (loadOrDefault files root configPath).value.2 =
      (loadOrDefault files root configPath).value.1.settings.ignorePatterns := by
  rw [value_loadOrDefault]
  generalize (load files root _).toOption.getD _ = config
  cases accepts : config.accept <;> simp [inForceOrDefault, putInForce, accepts] <;> rfl

/-- Without a configuration file the defaults are in force. -/
theorem value_loadOrDefault_of_none (absent : (findFile files root configPath).value = none) :
    (loadOrDefault files root configPath).value = (defaults root, []) := by
  rw [value_loadOrDefault, absent]
  rfl

/-- With a broken configuration file the defaults are in force. -/
theorem value_loadOrDefault_of_isBroken
    (selected : (findFile files root configPath).value = some path) (broken : IsBroken files path) :
    (loadOrDefault files root configPath).value = (defaults root, []) := by
  rw [value_loadOrDefault, selected]
  cases loads : load files root (some path) with
  | error error => rfl
  | ok config =>
    have same : config.root = root := by rw [(fresh_of_load loads).1]
    rw [← same]
    exact value_inForceOrDefault_of_refused (broken.refused_of_load loads)

/-- A configuration file that is not broken is in force. -/
theorem value_loadOrDefault_of_holds {raw : JsonObject}
    (selected : (findFile files root configPath).value = some path) (holds : Holds files path raw) :
    ∃ accepted, accept { root, file := some path, raw } = .ok accepted ∧
      (loadOrDefault files root configPath).value =
        ({ root, file := some path, raw, accepted := some accepted },
          accepted.settings.ignorePatterns) := by
  obtain ⟨loads, accepted, accepts⟩ := holds.exists_accepted root
  refine ⟨accepted, accepts, ?_⟩
  rw [value_loadOrDefault, selected, loads]
  exact value_inForceOrDefault_of_accept accepts

/-- What the options for files of each kind are made of. -/
structure Tells (config : LoadedConfig) (native : NativeOptions) (external : JsonObject)
    (newline sorted : Bool) : Prop where
  script : ∀ path kind,
    (config.optionsFor (.native path kind)).value = .native native external newline
  document : ∀ path parser,
    (config.optionsFor (.external path parser)).value = .external external newline
  manifest : ∀ path parser,
    (config.optionsFor (.manifest path parser)).value = .manifest external sorted newline

/-- Whether the options for files are what a file with the given members says, which gives the
patterns. -/
def Follows (config : LoadedConfig) (raw : JsonObject) (patterns : List Bytes) : Prop :=
  ∃ native external newline sorted, config.Tells native external newline sorted ∧
    Settings.InEffect raw native external newline sorted patterns

theorem follows_of_accept {config inForce : LoadedConfig} (ordered : config.raw.Ordered)
    (accepts : config.accept = .ok inForce.inForce) :
    inForce.Follows config.raw inForce.settings.ignorePatterns := by
  refine ⟨_, _, _, _, ?_, inEffect_of_accept ordered accepts⟩
  constructor
  all_goals exact fun _ _ => value_optionsFor inForce _

theorem follows_defaults (root : Bytes) : (defaults root).Follows [] [] := by
  have accepts : accept { root } = .ok (defaults root).inForce := rfl
  have ordered : ({ root } : LoadedConfig).raw.Ordered := List.Pairwise.nil
  exact follows_of_accept ordered accepts

/-- The configuration after some attempts to put it in force. -/
def afterAttempts (config : LoadedConfig) (count : Nat) : LoadedConfig :=
  (fun config => config.putInForce.2)^[count] config

/-- Attempts leave a configuration as it is, or put it in force if it is accepted. -/
theorem afterAttempts_cases (config : LoadedConfig) (count : Nat) :
    config.afterAttempts count = config ∨ ∃ accepted, config.accept = .ok accepted ∧
      config.afterAttempts count = { config with accepted := some accepted } := by
  induction count with
  | zero => exact .inl rfl
  | succ count ih =>
    have next : config.afterAttempts (count + 1) = (config.afterAttempts count).putInForce.2 :=
      Function.iterate_succ_apply' _ _ _
    rw [next]
    rcases ih with unchanged | ⟨accepted, accepts, inForce⟩
    · rw [unchanged]
      cases accepts : config.accept with
      | error error => exact .inl (by simp [putInForce, accepts])
      | ok accepted => exact .inr ⟨accepted, rfl, by simp [putInForce, accepts]⟩
    · have again : accept { config with accepted := some accepted } = .ok accepted := accepts
      rw [inForce]
      exact .inr ⟨accepted, accepts, by simp [putInForce, again]⟩

/-- A refused attempt changes nothing. -/
theorem putInForce_of_error {config : LoadedConfig} {error : ConfigError}
    (fails : config.putInForce.1 = .error error) :
    config.accept = .error error ∧ config.putInForce.2 = config := by
  cases accepts : config.accept with
  | error other =>
    simp only [putInForce, accepts, Except.error.injEq] at fails ⊢
    exact ⟨fails, trivial⟩
  | ok accepted => simp [putInForce, accepts] at fails

/-- An attempt that succeeds puts in force what is accepted. -/
theorem putInForce_of_ok {config : LoadedConfig} {patterns : List Bytes}
    (succeeds : config.putInForce.1 = .ok patterns) :
    ∃ accepted, config.accept = .ok accepted ∧
      config.putInForce.2 = { config with accepted := some accepted } ∧
      accepted.settings.ignorePatterns = patterns := by
  cases accepts : config.accept with
  | error error => simp [putInForce, accepts] at succeeds
  | ok accepted =>
    simp only [putInForce, accepts, Except.ok.injEq] at succeeds ⊢
    exact ⟨accepted, rfl, rfl, succeeds⟩

/-- What attempts to put a configuration in force leave: the defaults while it is refused, and else
the whole of it. -/
structure IsWhole (config tried : LoadedConfig) : Prop where
  refused : ∀ error, tried.putInForce.1 = .error error →
    tried.putInForce.2 = tried ∧ tried.settings = {} ∧
      ∀ route, (tried.optionsFor route).value = ((defaults config.root).optionsFor route).value
  accepted : ∀ patterns, tried.putInForce.1 = .ok patterns →
    tried.putInForce.2.Follows config.raw patterns
  whole : tried.inForce = {} ∨ ∃ patterns, tried.Follows config.raw patterns

theorem isWhole_afterAttempts {file : Option Bytes} {config : LoadedConfig}
    (loads : load files root file = .ok config) (count : Nat) :
    config.IsWhole (config.afterAttempts count) := by
  obtain ⟨fresh, ordered⟩ := fresh_of_load loads
  have noneInForce : config.inForce = {} := by rw [fresh]; rfl
  constructor
  · intro error fails
    obtain ⟨refused, unchanged⟩ := putInForce_of_error fails
    refine ⟨unchanged, ?_⟩
    rcases config.afterAttempts_cases count with same | ⟨accepted, accepts, inForce⟩
    · rw [same]
      refine ⟨congrArg AcceptedConfig.settings noneInForce, fun route => ?_⟩
      rw [value_optionsFor, value_optionsFor, settings, noneInForce]
      rfl
    · rw [inForce] at refused
      exact nomatch refused.symm.trans accepts
  · intro patterns succeeds
    obtain ⟨accepted, accepts, inForce, rfl⟩ := putInForce_of_ok succeeds
    rw [inForce]
    rcases config.afterAttempts_cases count with same | ⟨_, _, same⟩
    · rw [same] at accepts ⊢
      exact follows_of_accept ordered accepts
    · rw [same] at accepts ⊢
      exact follows_of_accept ordered accepts
  · rcases config.afterAttempts_cases count with same | ⟨accepted, accepts, inForce⟩
    · rw [same]
      exact .inl noneInForce
    · rw [inForce]
      exact .inr ⟨_, follows_of_accept ordered accepts⟩

end LoadedConfig

namespace IgnoreRules

/-- Rules followed by those of lines, if every line holds a rule or none. -/
def withAll? (rules : IgnoreRules) (lines : List Bytes) : Option IgnoreRules :=
  (lines.mapM IgnoreRule.ofLine).toOption.map fun added =>
    { rules with list := rules.list ++ added.reduceOption }

/-- A line in front adds its rule, if it holds one, before those of the other lines. -/
theorem withAll?_cons (rules : IgnoreRules) (line : Bytes) (lines : List Bytes) :
    rules.withAll? (line :: lines) =
      (rules.withLine line).toOption.bind fun rules => rules.withAll? lines := by
  simp only [withAll?, withLine, List.mapM_cons]
  cases IgnoreRule.ofLine line with
  | error error => rfl
  | ok read =>
    cases lines.mapM IgnoreRule.ofLine <;> cases read <;>
      simp [Except.toOption, bind, Except.bind, pure, Except.pure,
        List.reduceOption_cons_of_none, List.reduceOption_cons_of_some]

theorem toOption_withPatterns (rules : IgnoreRules) (patterns : List Bytes) :
    (withPatterns rules patterns).toOption = rules.withAll? patterns := by
  induction patterns generalizing rules with
  | nil =>
    simp [withPatterns, withAll?, Except.toOption, pure, Except.pure, List.reduceOption_nil]
  | cons pattern patterns ih =>
    rw [withAll?_cons, withPatterns]
    cases rules.withLine pattern with
    | error error => rfl
    | ok added => exact ih added

/-- The rules of a tree are those of its ignore files, followed by the patterns. -/
theorem toOption_ofRoot (files : FileTree) (root : Bytes) (patterns : List Bytes) :
    (ofRoot files root patterns).toOption =
      (ofRoot files root []).toOption.bind fun rules => rules.withAll? patterns := by
  unfold ofRoot
  cases withFiles files (empty root) (ignoreFiles.map (Path.append root)) with
  | error error => rfl
  | ok rules => exact toOption_withPatterns rules patterns

end IgnoreRules

variable {σ π : Type}

/-- What a formatter is built from: the configuration that is loaded, and the rules for its
patterns. -/
theorem EngineSet.run_build (engines : EngineSet σ π) (files : FileTree) (root : FileUri)
    (options : Json) (state : SessionState σ) :
    let config := (LoadedConfig.loadOrDefault files root.path
      (ClientOptions.read options).value.configPath).value.1
    let formatter := ((engines.build files root options).run state).1
    formatter.config = config ∧ formatter.ignored =
      (IgnoreRules.ofRoot files root.path config.settings.ignorePatterns).toOption := by
  simp only [build, Session.run_bind, Session.run_logged]
  rw [← LoadedConfig.patterns_loadOrDefault]
  cases IgnoreRules.ofRoot files root.path _ <;> exact ⟨rfl, rfl⟩

namespace TreeFormatter

variable {formatter : TreeFormatter σ π} {files : FileTree} {root path : Bytes}

/-- Whether a formatter has the default configuration, and no patterns beside the ignore files. -/
structure HasDefaults (formatter : TreeFormatter σ π) (files : FileTree) (root : Bytes) : Prop where
  config : formatter.config = LoadedConfig.defaults root
  noFile : formatter.config.file = none
  follows : formatter.config.Follows [] []
  ignored : formatter.ignored = (IgnoreRules.ofRoot files root []).toOption

/-- Whether a formatter has the configuration of a file as a whole. Its patterns come after the
ignore files; there are no rules at all if one of these cannot be read or a line of them is no
rule. -/
structure HasConfig (formatter : TreeFormatter σ π) (files : FileTree) (root path : Bytes) :
    Prop where
  file : formatter.config.file = some path
  follows : ∃ raw patterns, LoadedConfig.Holds files path raw ∧
    formatter.config.Follows raw patterns ∧
    formatter.ignored = (IgnoreRules.ofRoot files root []).toOption.bind fun rules =>
      rules.withAll? patterns

theorem hasDefaults_of_eq (config : formatter.config = LoadedConfig.defaults root)
    (ignored : formatter.ignored = (IgnoreRules.ofRoot files root []).toOption) :
    formatter.HasDefaults files root where
  config := config
  noFile := by rw [config]; rfl
  follows := config ▸ LoadedConfig.follows_defaults root
  ignored := ignored

end TreeFormatter

/-- A configuration applies as a whole or not at all. A formatter that is built without a
configuration file, or with one that is broken, has the defaults. With any other file every setting
is in effect, and the patterns come after the rules of the ignore files. However often a
configuration has been tried: if it is refused then nothing changes, and the defaults are in force;
otherwise the whole of it is. -/
theorem EngineSet.configuration_applies_as_a_whole (engines : EngineSet σ π) (files : FileTree)
    (root : FileUri) (options : Json) (state : SessionState σ) :
    let selected := (LoadedConfig.findFile files root.path
      (ClientOptions.read options).value.configPath).value
    let formatter := ((engines.build files root options).run state).1
    (selected = none → formatter.HasDefaults files root.path) ∧
      (∀ path, selected = some path → LoadedConfig.IsBroken files path →
        formatter.HasDefaults files root.path) ∧
      (∀ path, selected = some path → ¬LoadedConfig.IsBroken files path →
        formatter.HasConfig files root.path path) ∧
      (∀ file config, LoadedConfig.load files root.path file = .ok config →
        ∀ count, config.IsWhole (config.afterAttempts count)) := by
  intro selected formatter
  obtain ⟨config, ignored⟩ := engines.run_build files root options state
  refine ⟨?none, ?broken, ?sound, ?attempts⟩
  case none =>
    intro absent
    rw [LoadedConfig.value_loadOrDefault_of_none absent] at config ignored
    exact TreeFormatter.hasDefaults_of_eq config ignored
  case broken =>
    intro path found broken
    rw [LoadedConfig.value_loadOrDefault_of_isBroken found broken] at config ignored
    exact TreeFormatter.hasDefaults_of_eq config ignored
  case sound =>
    intro path found sound
    obtain ⟨raw, holds⟩ := LoadedConfig.exists_holds_of_not_isBroken sound
    obtain ⟨accepted, accepts, loaded⟩ := LoadedConfig.value_loadOrDefault_of_holds found holds
    rw [loaded] at config ignored
    rw [IgnoreRules.toOption_ofRoot] at ignored
    have inForce : accepted = formatter.config.inForce := by rw [config]; rfl
    rw [inForce] at accepts
    have follows := LoadedConfig.follows_of_accept holds.ordered accepts
    refine ⟨by rw [config], raw, _, holds, follows, ?_⟩
    rw [ignored, config]
  case attempts =>
    intro file config loads count
    exact LoadedConfig.isWhole_afterAttempts loads count

theorem EngineSet.configuration_applies_as_a_whole_width :
    let engines : EngineSet Unit Unit := {}
    let path : Bytes := "/p/.fmtrc.json"
    let holding (content : Bytes) := ({} : FileTree).insert path (.file content)
    let broken := holding "\x7b\"tabWidth\":0\x7d"
    let sound := holding "\x7b\"tabWidth\":4\x7d"
    let built (files : FileTree) := ((engines.build files ⟨"/p"⟩ .null).run ⟨(), []⟩).1
    (built {}).HasDefaults {} "/p" ∧
      LoadedConfig.IsBroken broken path ∧ (built broken).HasDefaults broken "/p" ∧
      ¬LoadedConfig.IsBroken sound path ∧ (built sound).HasConfig sound "/p" path ∧
      ∃ config, LoadedConfig.load broken "/p" (some path) = .ok config ∧
        config.IsWhole (config.afterAttempts 2) := by
  intro engines path holding broken sound built
  have readBroken : broken.read path = .ok "\x7b\"tabWidth\":0\x7d" := by rfl
  have parsedBroken : Jsonc.parse? "\x7b\"tabWidth\":0\x7d" =
      some (.object [("tabWidth", .ofInt 0)]) := by cbv
  have readSound : sound.read path = .ok "\x7b\"tabWidth\":4\x7d" := by rfl
  have parsedSound : Jsonc.parse? "\x7b\"tabWidth\":4\x7d" =
      some (.object [("tabWidth", .ofInt 4)]) := by cbv
  have loadsBroken : LoadedConfig.load broken "/p" (some path) =
      .ok { root := "/p", file := some path, raw := [("tabWidth", .ofInt 0)] } := by
    simp [LoadedConfig.load, readBroken, parsedBroken]
  have loadsSound : LoadedConfig.load sound "/p" (some path) =
      .ok { root := "/p", file := some path, raw := [("tabWidth", .ofInt 4)] } := by
    simp [LoadedConfig.load, readSound, parsedSound]
  have isBroken : LoadedConfig.IsBroken broken path := by
    have member : JsonObject.get? [("tabWidth", .ofInt 0)] "tabWidth" = some (.ofInt 0) := rfl
    apply LoadedConfig.IsBroken.refused readBroken parsedBroken member
    intro allows
    obtain ⟨width, whole, positive⟩ := allows.width (by decide)
    cases whole
    exact absurd positive (by decide)
  have isSound : ¬LoadedConfig.IsBroken sound path := fun broken =>
    broken.refused_of_load loadsSound _ rfl
  obtain ⟨ofNone, _⟩ := engines.configuration_applies_as_a_whole {} ⟨"/p"⟩ .null ⟨(), []⟩
  obtain ⟨_, ofBroken, _, attempts⟩ :=
    engines.configuration_applies_as_a_whole broken ⟨"/p"⟩ .null ⟨(), []⟩
  obtain ⟨_, _, ofSound, _⟩ :=
    engines.configuration_applies_as_a_whole sound ⟨"/p"⟩ .null ⟨(), []⟩
  exact ⟨ofNone rfl, isBroken, ofBroken path rfl isBroken, isSound, ofSound path rfl isSound, _,
    loadsBroken, attempts _ _ loadsBroken 2⟩

/-- A broken line in an ignore file takes the patterns of a configuration that is not broken out of
effect. -/
theorem EngineSet.exists_patterns_without_effect :
    let engines : EngineSet Unit Unit := {}
    let path : Bytes := "/p/.fmtrc.json"
    let files := ({} : FileTree).insert path (.file "\x7b\"ignorePatterns\":[\"a.ts\"]\x7d")
    let withRule := files.insert "/p/.gitignore" (.file "[")
    let built (files : FileTree) := ((engines.build files ⟨"/p"⟩ .null).run ⟨(), []⟩).1
    (LoadedConfig.findFile withRule "/p" []).value = some path ∧
      ¬LoadedConfig.IsBroken withRule path ∧
      LoadedConfig.Holds withRule path [("ignorePatterns", .array [.string "a.ts"])] ∧
      (built files).ignores files "/p/a.ts" = true ∧
      (built withRule).ignores withRule "/p/a.ts" = false := by
  intro engines path files withRule built
  have reads : withRule.read path = .ok "\x7b\"ignorePatterns\":[\"a.ts\"]\x7d" := by rfl
  have parsed : Jsonc.parse? "\x7b\"ignorePatterns\":[\"a.ts\"]\x7d" =
      some (.object [("ignorePatterns", .array [.string "a.ts"])]) := by cbv
  let config : LoadedConfig :=
    { root := "/p", file := some path, raw := [("ignorePatterns", .array [.string "a.ts"])] }
  have loads : LoadedConfig.load withRule "/p" (some path) = .ok config := by
    simp [LoadedConfig.load, reads, parsed, config]
  have accepts : config.accept = .ok config.putInForce.2.inForce := by rfl
  refine ⟨rfl, fun broken => broken.refused_of_load loads _ accepts, ?_, ?_, ?_⟩
  · exact ⟨⟨_, reads, parsed⟩, (config.accept_isOk_iff).mp ⟨_, accepts⟩⟩
  · simp only [built, engines, files, path]
    cbv
  · simp only [built, engines, withRule, files, path]
    cbv

end FormatServer
