import FormatServer.Proofs.Service.Recording

namespace FormatServer

variable {ι σ π : Type}

/-- A formatter that lives in a host, with the name of the engines that it was built with. -/
structure LiveTool (ι σ π : Type) where
  engines : ι
  formatter : TreeFormatter σ π

/-- The workspace that a formatter holds. -/
def LiveTool.holding (tool : LiveTool ι σ π) : Option (EngineWorkspace ι) :=
  tool.formatter.lease.holding tool.engines

/-- A host of formatters. -/
structure Host (ι σ π : Type) where
  tools : List (LiveTool ι σ π) := []
  session : SessionState σ

/-- One thing that a host does. The files may be others each time. -/
inductive HostAction (ι : Type) where
  | build (engines : ι) (files : FileTree) (root : FileUri) (options : Json)
  | changeOptions (engines : ι) (files : FileTree) (root : FileUri) (oldOptions newOptions : Json)
  | changeFile (engines : ι) (files : FileTree) (changed root : FileUri) (options : Json)
  | format (place : Nat) (files : FileTree) (document : FileUri) (content : Option Bytes)
  | destroy (place : Nat)

namespace Host

/-- Obtains a formatter, if there is one, beside those that live already. -/
def adopt (host : Host ι σ π) (engines : ι) (compute : Session σ (Option (TreeFormatter σ π))) :
    Host ι σ π :=
  let obtained := compute.run host.session
  { tools := host.tools ++ (obtained.1.map fun formatter => { engines, formatter }).toList
    session := obtained.2 }

/-- What a host does. A place that holds no formatter is passed over. -/
def step (engines : ι → EngineSet σ π) (host : Host ι σ π) : HostAction ι → Host ι σ π
  | .build name files root options =>
    host.adopt name do
      return some (← (engines name).build files root options)
  | .changeOptions name files root oldOptions newOptions =>
    host.adopt name do
      return (← (engines name).afterOptions files root oldOptions newOptions).formatter
  | .changeFile name files changed root options =>
    host.adopt name do
      return (← (engines name).afterFile files changed root options).formatter
  | .format place files document content =>
    match host.tools[place]? with
    | none => host
    | some tool =>
      { host with
        session := ((tool.formatter.formatDocument files document content).run host.session).2 }
  | .destroy place =>
    match host.tools[place]? with
    | none => host
    | some tool =>
      { tools := host.tools.eraseIdx place, session := (tool.formatter.close.run host.session).2 }

/-- What a host has become after some actions. -/
def run (engines : ι → EngineSet σ π) (actions : List (HostAction ι)) (host : Host ι σ π) :
    Host ι σ π :=
  actions.foldl (step engines) host

/-- The number of formatters that live and hold a workspace. -/
def holders [DecidableEq ι] (host : Host ι σ π) (workspace : EngineWorkspace ι) : Nat :=
  host.tools.countP fun tool => tool.holding = some workspace

/-- The calls about workspaces in a run that starts without formatters. -/
def calls (engines : ι → EngineSet σ π) (actions : List (HostAction ι))
    (session : SessionState σ) : List (WorkspaceCall ι) :=
  (run (fun name => (engines name).recorded name) actions
    { session := session.recorded [] }).session.engine.calls

/-- The workspaces that the formatters that live hold. -/
def held (host : Host ι σ π) : List (EngineWorkspace ι) :=
  host.tools.filterMap LiveTool.holding

theorem count_held [DecidableEq ι] (host : Host ι σ π) (workspace : EngineWorkspace ι) :
    host.held.count workspace = host.holders workspace := by
  rw [held, List.count_filterMap]
  exact List.countP_congr fun tool _ => by simp

theorem held_adopt (host : Host ι σ π) (name : ι)
    (compute : Session σ (Option (TreeFormatter σ π))) :
    (host.adopt name compute).held = host.held ++
      ((compute.run host.session).1.bind fun formatter => formatter.lease.holding name).toList := by
  rw [held, held, adopt, List.filterMap_append]
  congr 1
  cases (compute.run host.session).1 with
  | none => rfl
  | some formatter =>
      rw [Option.map_some, Option.toList_some, List.filterMap_cons]
      change _ = (LiveTool.holding ⟨name, formatter⟩).toList
      cases LiveTool.holding ⟨name, formatter⟩ <;> rfl

theorem mem_held {host : Host ι σ π} {place : Nat} {tool : LiveTool ι σ π}
    (lives : host.tools[place]? = some tool) {workspace : EngineWorkspace ι}
    (holds : tool.holding = some workspace) : workspace ∈ host.held :=
  List.mem_filterMap.mpr ⟨tool, List.mem_of_getElem? lives, holds⟩

/-- A formatter that is destroyed leaves what the other ones hold. -/
theorem held_perm {host : Host ι σ π} {place : Nat} {tool : LiveTool ι σ π}
    (lives : host.tools[place]? = some tool) :
    host.held.Perm
      (tool.holding.toList ++ (host.tools.eraseIdx place).filterMap LiveTool.holding) := by
  obtain ⟨inside, rfl⟩ := List.getElem?_eq_some_iff.mp lives
  refine ((List.getElem_cons_eraseIdx_perm inside).filterMap LiveTool.holding).symm.trans ?_
  rw [List.filterMap_cons]
  cases host.tools[place].holding <;> exact .refl _

end Host

/-- Whether calls leave the given workspaces open, and were made of workspaces that were open. -/
structure LeavesOpen [DecidableEq ι] (calls : List (WorkspaceCall ι))
    (workspaces : List (EngineWorkspace ι)) : Prop where
  balanced : ∀ workspace,
    calls.count (.opened workspace) = calls.count (.closing workspace) + workspaces.count workspace
  usable : ∀ before call after, calls = before ++ call :: after → ∀ workspace,
    call = .printing workspace ∨ call = .closing workspace →
      before.count (.closing workspace) < before.count (.opened workspace)

namespace LeavesOpen

variable [DecidableEq ι] {calls : List (WorkspaceCall ι)}
  {workspaces rest : List (EngineWorkspace ι)} {workspace : EngineWorkspace ι}

theorem nil : LeavesOpen ([] : List (WorkspaceCall ι)) [] where
  balanced := fun _ => rfl
  usable := by
    intro before call after split
    simp at split

/-- The order of open workspaces does not matter. -/
theorem perm (leaves : LeavesOpen calls workspaces) (same : workspaces.Perm rest) :
    LeavesOpen calls rest where
  balanced := fun workspace => same.count_eq workspace ▸ leaves.balanced workspace
  usable := leaves.usable

/-- One more call, of a workspace that is open unless the call opens it. -/
theorem concat (leaves : LeavesOpen calls workspaces) {last : WorkspaceCall ι}
    (balanced : ∀ workspace, (calls ++ [last]).count (.opened workspace) =
      (calls ++ [last]).count (.closing workspace) + rest.count workspace)
    (isOpen : ∀ workspace,
      last = .printing workspace ∨ last = .closing workspace → workspace ∈ workspaces) :
    LeavesOpen (calls ++ [last]) rest where
  balanced := balanced
  usable := by
    intro before call after split workspace uses
    rcases List.eq_nil_or_concat after with rfl | ⟨earlier, final, rfl⟩
    · obtain ⟨rfl, same⟩ := List.append_inj' split rfl
      cases same
      have count := leaves.balanced workspace
      have positive := List.count_pos_iff.mpr (isOpen workspace uses)
      omega
    · rw [List.concat_eq_append, ← List.cons_append, ← List.append_assoc] at split
      exact leaves.usable before call earlier (List.append_inj' split rfl).1 workspace uses

/-- A workspace that is opened, if any, is open. -/
theorem opened (leaves : LeavesOpen calls workspaces) (obtained : Option (EngineWorkspace ι)) :
    LeavesOpen (calls ++ obtained.toList.map .opened) (workspaces ++ obtained.toList) := by
  cases obtained with
  | none => simpa using leaves
  | some workspace =>
      refine leaves.concat (fun other => ?_) (by simp)
      have count := leaves.balanced other
      simp only [Option.toList_some, List.count_append, List.count_singleton, beq_iff_eq,
        WorkspaceCall.opened.injEq, reduceCtorEq, if_false]
      omega

/-- An open workspace that is used stays open. -/
theorem printing (leaves : LeavesOpen calls workspaces) (isOpen : workspace ∈ workspaces) :
    LeavesOpen (calls ++ [.printing workspace]) workspaces := by
  refine leaves.concat (fun other => ?_) (by rintro _ (same | same) <;> cases same; exact isOpen)
  have count := leaves.balanced other
  simpa using count

/-- An open workspace that is closed, if any, is open no longer. -/
theorem closing {closed : Option (EngineWorkspace ι)}
    (leaves : LeavesOpen calls (closed.toList ++ rest)) :
    LeavesOpen (calls ++ closed.toList.map .closing) rest := by
  cases closed with
  | none => simpa using leaves
  | some workspace =>
      refine leaves.concat (fun other => ?_) (by rintro _ (same | same) <;> cases same; simp)
      have count := leaves.balanced other
      simp only [Option.toList_some, List.count_append, List.count_singleton, beq_iff_eq,
        WorkspaceCall.closing.injEq, reduceCtorEq, if_false] at count ⊢
      omega

end LeavesOpen

namespace Host

/-- A host over recorded engines. -/
def recorded (host : Host ι σ π) (calls : List (WorkspaceCall ι)) :
    Host ι (Recorded ι σ) π where
  tools := host.tools.map fun tool =>
    { tool with formatter := tool.formatter.recorded tool.engines }
  session := host.session.recorded calls

variable [DecidableEq ι] (engines : ι → EngineSet σ π) {host : Host ι σ π}
  {made : List (WorkspaceCall ι)}

/-- A formatter that is obtained comes with the workspace that it holds. -/
theorem adopt_recorded (leaves : LeavesOpen made host.held) {name : ι}
    {recorded : Session (Recorded ι σ) (Option (TreeFormatter (Recorded ι σ) π))}
    {plain : Session σ (Option (TreeFormatter σ π))}
    (records : recorded.Records plain (EngineSet.Obtains name)) :
    ∃ more, (host.recorded made).adopt name recorded =
        (host.adopt name plain).recorded (made ++ more) ∧
      LeavesOpen (made ++ more) (host.adopt name plain).held := by
  obtain ⟨more, left, same, opened⟩ := records host.session made
  refine ⟨more, ?_, ?_⟩
  · simp only [adopt, Host.recorded]
    rw [left, same]
    cases (plain.run host.session).1 <;> simp
  · rw [opened, held_adopt]
    exact leaves.opened _

/-- One action of a recorded host: it is the action of the host itself, and the calls made leave
open what formatters hold. -/
theorem step_recorded (leaves : LeavesOpen made host.held) (action : HostAction ι) :
    ∃ more, step (fun name => (engines name).recorded name) (host.recorded made) action =
        (step engines host action).recorded (made ++ more) ∧
      LeavesOpen (made ++ more) (step engines host action).held := by
  cases action with
  | build name files root options =>
      exact adopt_recorded leaves ((engines name).records_build name files root options).obtained
  | changeOptions name files root oldOptions newOptions =>
      exact adopt_recorded leaves
        ((engines name).records_afterOptions name files root oldOptions newOptions).obtained
  | changeFile name files changed root options =>
      exact adopt_recorded leaves
        ((engines name).records_afterFile name files changed root options).obtained
  | format place files document content =>
      cases lives : host.tools[place]? with
      | none =>
          exact ⟨[], by simp [step, Host.recorded, lives], by simpa [step, lives] using leaves⟩
      | some tool =>
          obtain ⟨more, left, -, printing⟩ :=
            tool.formatter.records_formatDocument tool.engines files document content host.session
              made
          refine ⟨more, by simp [step, Host.recorded, lives, left], ?_⟩
          simp only [step, lives]
          rcases printing with rfl | ⟨workspace, holds, rfl⟩
          · rwa [List.append_nil]
          · exact leaves.printing (mem_held lives holds)
  | destroy place =>
      cases lives : host.tools[place]? with
      | none =>
          exact ⟨[], by simp [step, Host.recorded, lives], by simpa [step, lives] using leaves⟩
      | some tool =>
          obtain ⟨more, left, closing⟩ :=
            tool.formatter.records_close tool.engines host.session made
          refine ⟨more, by simp [step, Host.recorded, lives, left, List.eraseIdx_map], ?_⟩
          simp only [step, lives, closing]
          exact (leaves.perm (held_perm lives)).closing

/-- A run of a recorded host is the run of the host itself. -/
theorem run_recorded (leaves : LeavesOpen made host.held) (actions : List (HostAction ι)) :
    ∃ more, run (fun name => (engines name).recorded name) actions (host.recorded made) =
        (run engines actions host).recorded (made ++ more) ∧
      LeavesOpen (made ++ more) (run engines actions host).held := by
  induction actions generalizing host made with
  | nil => exact ⟨[], by rw [List.append_nil]; rfl, by rwa [List.append_nil]⟩
  | cons action rest ih =>
      obtain ⟨first, stepped, leavesStep⟩ := step_recorded engines leaves action
      obtain ⟨more, ran, leavesRun⟩ := ih leavesStep
      rw [List.append_assoc] at ran leavesRun
      refine ⟨first ++ more, ?_, leavesRun⟩
      rw [run, List.foldl_cons, stepped]
      exact ran

/-- Over every run of a host that starts without formatters, whatever the engines answer: the
recorded run is the run itself beside its calls. For every workspace, the openings are as many as
the requests to close it and the live formatters that hold it. A workspace is used or to be closed
only while it has more openings than requests to close it. Once no formatter lives, there are as
many requests to close a workspace as openings of it. -/
theorem workspaces_open_exactly_while_held (actions : List (HostAction ι))
    (session : SessionState σ) :
    let host : Host ι σ π := run engines actions { session }
    let calls := Host.calls engines actions session
    run (fun name => (engines name).recorded name) actions { session := session.recorded [] } =
        host.recorded calls ∧
      (∀ workspace, calls.count (.opened workspace) =
        calls.count (.closing workspace) + host.holders workspace) ∧
      (∀ before after workspace, calls = before ++ .printing workspace :: after →
        before.count (.closing workspace) < before.count (.opened workspace)) ∧
      (∀ before after workspace, calls = before ++ .closing workspace :: after →
        before.count (.closing workspace) < before.count (.opened workspace)) ∧
      (host.tools = [] → ∀ workspace,
        calls.count (.closing workspace) = calls.count (.opened workspace)) := by
  intro host calls
  have noneOpen : LeavesOpen [] ({ session } : Host ι σ π).held := .nil
  obtain ⟨made, ran, leaves⟩ := run_recorded engines noneOpen actions
  have same : calls = made := congrArg (·.session.engine.calls) ran
  rw [same]
  have balanced : ∀ workspace, made.count (.opened workspace) =
      made.count (.closing workspace) + host.holders workspace := by
    intro workspace
    rw [← host.count_held]
    exact leaves.balanced workspace
  refine ⟨ran, balanced, ?_, ?_, ?_⟩
  · intro before after workspace split
    exact leaves.usable before _ after split workspace (.inl rfl)
  · intro before after workspace split
    exact leaves.usable before _ after split workspace (.inr rfl)
  · intro empty workspace
    rw [balanced, holders, empty]
    rfl

/-- A formatter that is built, formats a style sheet and is destroyed. -/
theorem workspaces_open_exactly_while_held_style_sheet :
    let engine : ExternalEngine Unit :=
      { start? := some fun _ => return .ok []
        openWorkspace? := some fun _ => return .ok 7
        printFile? := some fun _ _ _ _ code => return .ok code }
    let engines : Unit → EngineSet Unit Unit := fun _ => { external := some engine }
    let actions : List (HostAction Unit) :=
      [.build () {} ⟨"/w"⟩ (.object []), .format 0 {} ⟨"/x/a.css"⟩ (some "a"), .destroy 0]
    let calls := Host.calls engines actions ⟨(), []⟩
    let workspace : EngineWorkspace Unit := ((), 7)
    calls = [.opened workspace, .printing workspace, .closing workspace] ∧
      (run engines actions { session := ⟨(), []⟩ }).tools = [] ∧
      ([.opened workspace] : List (WorkspaceCall Unit)).count (.closing workspace) <
        ([.opened workspace] : List (WorkspaceCall Unit)).count (.opened workspace) ∧
      calls.count (.closing workspace) = calls.count (.opened workspace) := by
  intro engine engines actions calls workspace
  obtain ⟨_, _, printing, _, closed⟩ :=
    workspaces_open_exactly_while_held engines actions ⟨(), []⟩
  have made : calls = [.opened workspace, .printing workspace, .closing workspace] := by
    simp only [calls, actions, engines, engine, workspace]
    cbv
  have ended : (run engines actions { session := ⟨(), []⟩ }).tools = [] := rfl
  exact ⟨made, ended, printing _ _ workspace made, closed ended workspace⟩

end Host

end FormatServer
