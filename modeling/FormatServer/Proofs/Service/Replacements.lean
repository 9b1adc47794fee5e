import FormatServer.Proofs.Service.Recording

namespace FormatServer

variable {ι σ π : Type}

namespace WorkspaceCall

/-- The name of the engines that a call is about. -/
def engines : WorkspaceCall ι → ι
  | opened workspace | closing workspace | printing workspace => workspace.1

/-- Whether a workspace is opened. -/
def opens : WorkspaceCall ι → Bool
  | opened _ => true
  | _ => false

/-- Whether a workspace is to be closed. -/
def closes : WorkspaceCall ι → Bool
  | closing _ => true
  | _ => false

/-- How many more openings than closings there are among calls. -/
def surplus (calls : List (WorkspaceCall ι)) : Int :=
  calls.countP opens - calls.countP closes

@[simp] theorem surplus_nil : surplus ([] : List (WorkspaceCall ι)) = 0 := rfl

@[simp] theorem surplus_append (first second : List (WorkspaceCall ι)) :
    surplus (first ++ second) = surplus first + surplus second := by
  simp only [surplus, List.countP_append]
  omega

@[simp] theorem surplus_cons_cons (first second : WorkspaceCall ι)
    (calls : List (WorkspaceCall ι)) :
    surplus (first :: second :: calls) = surplus [first] + surplus (second :: calls) :=
  surplus_append [first] (second :: calls)

@[simp] theorem surplus_opened (workspace : EngineWorkspace ι) :
    surplus [.opened workspace] = 1 := rfl

@[simp] theorem surplus_closing (workspace : EngineWorkspace ι) :
    surplus [.closing workspace] = -1 := rfl

@[simp] theorem surplus_printing (workspace : EngineWorkspace ι) :
    surplus [.printing workspace] = 0 := rfl

end WorkspaceCall

open WorkspaceCall (surplus)

/-- Calls about workspaces that are held one after the other, with the one that is held in the end.
A workspace that replaces another is opened before the other is closed. -/
inductive Succession : List (WorkspaceCall ι) → Option (EngineWorkspace ι) → Prop where
  | nothing : Succession [] none
  | printing {calls : List (WorkspaceCall ι)} {workspace : EngineWorkspace ι}
      (held : Succession calls (some workspace)) :
      Succession (calls ++ [.printing workspace]) (some workspace)
  | replaced {calls : List (WorkspaceCall ι)} {old : Option (EngineWorkspace ι)}
      (held : Succession calls old) (new : Option (EngineWorkspace ι)) :
      Succession (calls ++ (new.toList.map .opened ++ old.toList.map .closing)) new

/-- Whether a place between calls is one between the opening of a workspace and the closing of the
one that it replaces. -/
def IsHandover (before after : List (WorkspaceCall ι)) : Prop :=
  surplus before = 2 ∧
    ∃ earlier new old rest, before = earlier ++ [.opened new] ∧ after = .closing old :: rest

/-- Whether at most one workspace is open at a place between calls, unless one is just being
replaced. -/
def SafeAt (before after : List (WorkspaceCall ι)) : Prop :=
  surplus before ≤ 1 ∨ IsHandover before after

section

variable {calls before after : List (WorkspaceCall ι)} {held old new : Option (EngineWorkspace ι)}

/-- What comes later does not matter. -/
theorem SafeAt.append (safe : SafeAt before after) (more : List (WorkspaceCall ι)) :
    SafeAt before (after ++ more) := by
  apply safe.imp_right
  rintro ⟨two, earlier, new, old, rest, rfl, rfl⟩
  exact ⟨two, earlier, new, old, rest ++ more, rfl, rfl⟩

namespace Succession

/-- The surplus is the one workspace that is held, if any. -/
theorem surplus_eq (follows : Succession calls held) : surplus calls = held.toList.length := by
  induction follows with
  | nothing => rfl
  | printing _ ih => simpa using ih
  | @replaced calls old _ new ih => cases old <;> cases new <;> simp [ih]

theorem surplus_le (follows : Succession calls held) : surplus calls ≤ 1 := by
  rw [follows.surplus_eq]
  cases held <;> simp

/-- At a place among the calls by which one workspace replaces another. -/
theorem safeAt_replaced (follows : Succession calls old)
    (split : new.toList.map .opened ++ old.toList.map .closing = before ++ after) :
    SafeAt (calls ++ before) after := by
  have balanced := follows.surplus_eq
  cases new with
  | none =>
    -- Nothing is opened, and the old workspace is closed if there is one.
    left
    cases old with
    | none =>
      obtain ⟨rfl, rfl⟩ := List.append_eq_nil_iff.mp split.symm
      simp [balanced]
    | some old =>
      rcases List.append_eq_singleton_iff.mp split.symm with ⟨rfl, _⟩ | ⟨rfl, _⟩
      · simp [balanced]
      · simp [balanced]
  | some new =>
    cases before with
    | nil =>
      left
      rw [List.append_nil]
      exact follows.surplus_le
    | cons first reached =>
      obtain ⟨rfl, rest⟩ : WorkspaceCall.opened new = first ∧
          old.toList.map .closing = reached ++ after := by simpa using split
      cases old with
      | none =>
        obtain ⟨rfl, rfl⟩ := List.append_eq_nil_iff.mp rest.symm
        left
        simp [balanced]
      | some old =>
        rcases List.append_eq_singleton_iff.mp rest.symm with ⟨rfl, rfl⟩ | ⟨rfl, rfl⟩
        · right
          exact ⟨by simp [balanced], calls, new, old, [], rfl, rfl⟩
        · left
          simp [balanced]

/-- At every place between the calls at most one workspace is open, unless one is just being
replaced. -/
theorem safeAt (follows : Succession calls held) (split : calls = before ++ after) :
    SafeAt before after := by
  induction follows generalizing before after with
  | nothing =>
    obtain ⟨rfl, rfl⟩ := List.append_eq_nil_iff.mp split.symm
    exact .inl (by simp)
  | @printing calls workspace follows ih =>
    rcases List.append_eq_append_iff.mp split with ⟨reached, rfl, ends⟩ | ⟨left, rfl, rfl⟩
    · left
      have once := follows.surplus_le
      rcases List.append_eq_singleton_iff.mp ends.symm with ⟨rfl, _⟩ | ⟨rfl, _⟩
      · simpa using once
      · simpa using once
    · exact (ih rfl).append _
  | @replaced calls old follows new ih =>
    rcases List.append_eq_append_iff.mp split with ⟨reached, rfl, ends⟩ | ⟨left, rfl, rfl⟩
    · exact follows.safeAt_replaced ends
    · exact (ih rfl).append _

end Succession

end

/-- A host that keeps at most one formatter for each root. -/
structure RootHost (σ π : Type) where
  tools : FileUri → Option (TreeFormatter σ π) := fun _ => none
  session : SessionState σ

/-- One thing that such a host does. The files may be others each time. -/
inductive RootAction where
  | start (root : FileUri) (files : FileTree) (options : Json)
  | changeOptions (root : FileUri) (files : FileTree) (oldOptions newOptions : Json)
  | changeFile (root : FileUri) (files : FileTree) (changed : FileUri) (options : Json)
  | format (root : FileUri) (files : FileTree) (document : FileUri) (content : Option Bytes)
  | stop (root : FileUri)

namespace RootHost

/-- Destroys the formatter of a root, if there is one, after the one that takes its place, if any,
has been obtained. -/
def put (host : RootHost σ π) (root : FileUri) (formatter : Option (TreeFormatter σ π)) :
    RootHost σ π where
  tools := Function.update host.tools root formatter
  session :=
    match host.tools root with
    | none => host.session
    | some old => (old.close.run host.session).2

/-- Obtains a formatter for a root, if there is one, and puts it in the place of the one before. -/
def replace (host : RootHost σ π) (root : FileUri)
    (compute : Session σ (Option (TreeFormatter σ π))) : RootHost σ π :=
  let obtained := compute.run host.session
  let after : RootHost σ π := { host with session := obtained.2 }
  match obtained.1 with
  | none => after
  | some formatter => after.put root (some formatter)

/-- What a host does. The engines are those that formatters of a root are built with. -/
def step (engines : FileUri → EngineSet σ π) (host : RootHost σ π) : RootAction → RootHost σ π
  | .start root files options =>
    match host.tools root with
    | some _ => host
    | none => host.replace root do
        return some (← (engines root).build files root options)
  | .changeOptions root files oldOptions newOptions =>
    match host.tools root with
    | none => host
    | some _ => host.replace root do
        return (← (engines root).afterOptions files root oldOptions newOptions).formatter
  | .changeFile root files changed options =>
    match host.tools root with
    | none => host
    | some _ => host.replace root do
        return (← (engines root).afterFile files changed root options).formatter
  | .format root files document content =>
    match host.tools root with
    | none => host
    | some formatter =>
      { host with
        session := ((formatter.formatDocument files document content).run host.session).2 }
  | .stop root => host.put root none

/-- What a host has become after some actions. -/
def run (engines : FileUri → EngineSet σ π) (actions : List RootAction) (host : RootHost σ π) :
    RootHost σ π :=
  actions.foldl (step engines) host

/-- The calls about workspaces in a run that starts without formatters, under the names of the
roots. -/
def calls (engines : FileUri → EngineSet σ π) (actions : List RootAction)
    (session : SessionState σ) : List (WorkspaceCall FileUri) :=
  (run (fun root => (engines root).recorded root) actions
    { session := session.recorded [] }).session.engine.calls

/-- The workspace that the formatter of a root holds. -/
def holding (host : RootHost σ π) (root : FileUri) : Option (EngineWorkspace FileUri) :=
  (host.tools root).bind fun formatter => formatter.lease.holding root

/-- A host over recorded engines. -/
def recorded (host : RootHost σ π) (calls : List (WorkspaceCall FileUri)) :
    RootHost (Recorded FileUri σ) π where
  tools := fun root => (host.tools root).map fun formatter => formatter.recorded root
  session := host.session.recorded calls

end RootHost

/-- The calls about workspaces of the engines with a name. -/
def callsAbout [DecidableEq ι] (name : ι) (calls : List (WorkspaceCall ι)) :
    List (WorkspaceCall ι) :=
  calls.filter (·.engines = name)

namespace RootHost

variable {host next : RootHost σ π} {made more : List (WorkspaceCall FileUri)}

/-- Whether calls leave each root with the workspace that its formatter holds. -/
def Follows (host : RootHost σ π) (calls : List (WorkspaceCall FileUri)) : Prop :=
  ∀ root, Succession (callsAbout root calls) (host.holding root)

/-- Calls about one root do not matter to the other ones. -/
theorem Follows.append (follows : host.Follows made) (root : FileUri)
    (about : ∀ call ∈ more, call.engines = root)
    (others : ∀ other, other ≠ root → next.tools other = host.tools other)
    (after : Succession (callsAbout root made ++ more) (next.holding root)) :
    next.Follows (made ++ more) := by
  intro other
  rw [callsAbout, List.filter_append]
  by_cases same : other = root
  · subst same
    have all : more.filter (·.engines = other) = more :=
      List.filter_eq_self.mpr (by simpa using about)
    rw [all]
    exact after
  · have none : more.filter (·.engines = other) = [] := by
      apply List.filter_eq_nil_iff.mpr
      intro call member isOther
      exact same ((of_decide_eq_true isOther).symm.trans (about call member))
    rw [none, List.append_nil, holding, others other same]
    exact follows other

theorem engines_of_mem_holding {root : FileUri} {workspace : EngineWorkspace FileUri}
    (held : workspace ∈ host.holding root) : workspace.1 = root := by
  obtain ⟨formatter, _, holds⟩ := Option.bind_eq_some_iff.mp held
  obtain ⟨_, _, rfl⟩ := Option.map_eq_some_iff.mp holds
  rfl

theorem holding_put (host : RootHost σ π) (root : FileUri)
    (formatter : Option (TreeFormatter σ π)) :
    (host.put root formatter).holding root =
      formatter.bind fun formatter => formatter.lease.holding root := by
  change (Function.update host.tools root formatter root).bind _ = _
  rw [Function.update_self]

/-- A formatter that is put in the place of another has been recorded as holding its workspace
already; the other one closes its own. -/
theorem Follows.put (follows : host.Follows made) (root : FileUri)
    (formatter : Option (TreeFormatter σ π)) :
    (host.put root formatter).Follows
      (made ++ (((host.put root formatter).holding root).toList.map .opened ++
        (host.holding root).toList.map .closing)) := by
  apply follows.append root
  · intro call member
    rcases List.mem_append.mp member with opened | closing
    · obtain ⟨workspace, held, rfl⟩ := List.mem_map.mp opened
      exact engines_of_mem_holding (Option.mem_toList.mp held)
    · obtain ⟨workspace, held, rfl⟩ := List.mem_map.mp closing
      exact engines_of_mem_holding (Option.mem_toList.mp held)
  · intro other differ
    exact Function.update_of_ne differ _ _
  · exact (follows root).replaced _

/-- Putting a formatter in its place records the closing of the workspace of the one before. -/
theorem put_recorded (host : RootHost σ π) (made : List (WorkspaceCall FileUri)) (root : FileUri)
    (formatter : Option (TreeFormatter σ π)) :
    (host.recorded made).put root (formatter.map fun formatter => formatter.recorded root) =
      (host.put root formatter).recorded
        (made ++ (host.holding root).toList.map .closing) := by
  have tools : ((host.recorded made).put root
      (formatter.map fun formatter => formatter.recorded root)).tools =
        fun other => ((host.put root formatter).tools other).map fun formatter =>
          formatter.recorded other := by
    funext other
    by_cases same : other = root
    · subst same
      simp [put, recorded]
    · simp [put, recorded, same]
  have session : ((host.recorded made).put root
      (formatter.map fun formatter => formatter.recorded root)).session =
        (host.put root formatter).session.recorded
          (made ++ (host.holding root).toList.map .closing) := by
    cases lives : host.tools root with
    | none => simp [put, recorded, holding, lives]
    | some old =>
      obtain ⟨closing, left, rfl⟩ := old.records_close root host.session made
      simp [put, recorded, holding, lives, left]
  exact congrArg₂ RootHost.mk tools session

theorem replace_of_none {root : FileUri} {compute : Session σ (Option (TreeFormatter σ π))}
    {session : SessionState σ} (found : compute.run host.session = (none, session)) :
    host.replace root compute = { host with session } := by
  simp only [replace, found]

theorem replace_of_some {root : FileUri} {compute : Session σ (Option (TreeFormatter σ π))}
    {formatter : TreeFormatter σ π} {session : SessionState σ}
    (found : compute.run host.session = (some formatter, session)) :
    host.replace root compute =
      RootHost.put { host with session } root (some formatter) := by
  simp only [replace, found]

/-- A formatter that is obtained comes with its workspace and takes the place of the one before. -/
theorem replace_recorded (follows : host.Follows made) {root : FileUri}
    {recorded : Session (Recorded FileUri σ) (Option (TreeFormatter (Recorded FileUri σ) π))}
    {plain : Session σ (Option (TreeFormatter σ π))}
    (records : recorded.Records plain (EngineSet.Obtains root)) :
    ∃ more, (host.recorded made).replace root recorded =
        (host.replace root plain).recorded (made ++ more) ∧
      (host.replace root plain).Follows (made ++ more) := by
  obtain ⟨opened, left, same, opens⟩ := records host.session made
  rcases found : plain.run host.session with ⟨obtained, session⟩
  rw [found] at left same opens
  have ran : recorded.run (host.recorded made).session =
      (obtained.map fun formatter => formatter.recorded root,
        session.recorded (made ++ opened)) := Prod.ext same left
  let after : RootHost σ π := { host with session }
  have followsAfter : after.Follows made := follows
  cases obtained with
  | none =>
    subst opens
    rw [replace_of_none found, replace_of_none ran]
    exact ⟨_, rfl, by rwa [Option.bind_none, Option.toList_none, List.map_nil, List.append_nil]⟩
  | some formatter =>
    have puts := followsAfter.put root (some formatter)
    rw [holding_put, ← opens, ← List.append_assoc] at puts
    rw [replace_of_some found, replace_of_some ran]
    refine ⟨opened ++ (after.holding root).toList.map .closing, ?_, ?_⟩
    · rw [← List.append_assoc]
      exact put_recorded after (made ++ opened) root (some formatter)
    · rw [← List.append_assoc]
      exact puts

variable (engines : FileUri → EngineSet σ π)

/-- One action of a recorded host: it is the action of the host itself, and the calls made leave
each root with the workspace that its formatter holds. -/
theorem step_recorded (follows : host.Follows made) (action : RootAction) :
    ∃ more, step (fun root => (engines root).recorded root) (host.recorded made) action =
        (step engines host action).recorded (made ++ more) ∧
      (step engines host action).Follows (made ++ more) := by
  have unchanged : ∃ more, host.recorded made = host.recorded (made ++ more) ∧
      host.Follows (made ++ more) := ⟨[], by rw [List.append_nil], by rwa [List.append_nil]⟩
  cases action with
  | start root files options =>
    cases lives : host.tools root with
    | some formatter => simpa [step, RootHost.recorded, lives] using unchanged
    | none =>
      simp only [step, RootHost.recorded, lives]
      exact replace_recorded follows
        ((engines root).records_build root files root options).obtained
  | changeOptions root files oldOptions newOptions =>
    cases lives : host.tools root with
    | none => simpa [step, RootHost.recorded, lives] using unchanged
    | some formatter =>
      simp only [step, RootHost.recorded, lives]
      exact replace_recorded follows
        ((engines root).records_afterOptions root files root oldOptions newOptions).obtained
  | changeFile root files changed options =>
    cases lives : host.tools root with
    | none => simpa [step, RootHost.recorded, lives] using unchanged
    | some formatter =>
      simp only [step, RootHost.recorded, lives]
      exact replace_recorded follows
        ((engines root).records_afterFile root files changed root options).obtained
  | format root files document content =>
    cases lives : host.tools root with
    | none => simpa [step, RootHost.recorded, lives] using unchanged
    | some formatter =>
      obtain ⟨more, left, -, printing⟩ :=
        formatter.records_formatDocument root files document content host.session made
      refine ⟨more, by simp [step, RootHost.recorded, lives, left], ?_⟩
      simp only [step, lives]
      rcases printing with rfl | ⟨workspace, holds, rfl⟩
      · rwa [List.append_nil]
      · have held : host.holding root = some workspace := by rw [holding, lives]; exact holds
        apply follows.append root
        · intro call member
          rw [List.mem_singleton.mp member]
          exact engines_of_mem_holding held
        · intro other _
          rfl
        · change Succession _ (host.holding root)
          rw [held]
          exact .printing (held ▸ follows root)
  | stop root =>
    have puts := follows.put root none
    rw [holding_put] at puts
    exact ⟨_, host.put_recorded made root none, puts⟩

/-- A run of a recorded host is the run of the host itself. -/
theorem run_recorded (follows : host.Follows made) (actions : List RootAction) :
    ∃ more, run (fun root => (engines root).recorded root) actions (host.recorded made) =
        (run engines actions host).recorded (made ++ more) ∧
      (run engines actions host).Follows (made ++ more) := by
  induction actions generalizing host made with
  | nil => exact ⟨[], by rw [List.append_nil]; rfl, by rwa [List.append_nil]⟩
  | cons action rest ih =>
      obtain ⟨first, stepped, followsStep⟩ := step_recorded engines follows action
      obtain ⟨more, ran, followsRun⟩ := ih followsStep
      rw [List.append_assoc] at ran followsRun
      refine ⟨first ++ more, ?_, followsRun⟩
      rw [run, List.foldl_cons, stepped]
      exact ran

/-- Over every run of a host that keeps one formatter for each root, whatever the engines answer:
the recorded run is the run itself beside its calls, and the workspaces of a root are held one after
the other. After each action at most one of them is open. So it is after each call, except directly
after the opening by which a formatter replaces another; then two are open, and the next call about
the root closes the workspace of the other formatter. -/
theorem one_workspace_open_unless_replaced (actions : List RootAction)
    (session : SessionState σ) :
    let host : RootHost σ π := run engines actions { session }
    let calls := RootHost.calls engines actions session
    run (fun root => (engines root).recorded root) actions { session := session.recorded [] } =
        host.recorded calls ∧
      ∀ root, Succession (callsAbout root calls) (host.holding root) ∧
        surplus (callsAbout root calls) ≤ 1 ∧
        ∀ before after, calls = before ++ after →
          SafeAt (callsAbout root before) (callsAbout root after) := by
  intro host calls
  have nothing : RootHost.Follows ({ session } : RootHost σ π) [] := fun _ => .nothing
  obtain ⟨made, ran, follows⟩ := run_recorded engines nothing actions
  have same : calls = made := congrArg (·.session.engine.calls) ran
  rw [same]
  refine ⟨ran, ?_⟩
  intro root
  refine ⟨follows root, (follows root).surplus_le, ?_⟩
  intro before after split
  apply (follows root).safeAt
  rw [List.nil_append, split, callsAbout, List.filter_append]
  rfl

/-- A formatter that is started and then replaced: the new workspace is opened before the old one is
closed. -/
theorem one_workspace_open_unless_replaced_options :
    let engine : ExternalEngine UInt32 :=
      { start? := some fun _ => return .ok []
        openWorkspace? := some fun _ => Session.engine do
          modifyGet fun next => (.ok next, next + 1) }
    let engines : FileUri → EngineSet UInt32 Unit := fun _ => { external := some engine }
    let root : FileUri := ⟨"/p"⟩
    let actions : List RootAction :=
      [.start root {} .null,
        .changeOptions root {} .null (.object [("fmt.configPath", .string "a.json")])]
    let calls := RootHost.calls engines actions ⟨1, []⟩
    let before : List (WorkspaceCall FileUri) := [.opened (root, 1), .opened (root, 2)]
    calls = before ++ [.closing (root, 1)] ∧
      SafeAt (callsAbout root before) (callsAbout root [.closing (root, 1)]) := by
  intro engine engines root actions calls before
  have made : calls = before ++ [.closing (root, 1)] := by
    simp only [calls, actions, engines, engine, before, root]
    cbv
  obtain ⟨_, safe⟩ := one_workspace_open_unless_replaced engines actions ⟨1, []⟩
  exact ⟨made, (safe root).2.2 _ _ made⟩

/-- While a formatter is replaced, two workspaces of its root are open. -/
theorem exists_two_open_workspaces :
    let engine : ExternalEngine UInt32 :=
      { start? := some fun _ => return .ok []
        openWorkspace? := some fun _ => Session.engine do
          modifyGet fun next => (.ok next, next + 1) }
    let engines : FileUri → EngineSet UInt32 Unit := fun _ => { external := some engine }
    let root : FileUri := ⟨"/p"⟩
    ∃ actions before after,
      RootHost.calls engines actions ⟨1, []⟩ = before ++ after ∧
        surplus (callsAbout root before) = 2 := by
  intro engine engines root
  refine ⟨[.start root {} .null,
    .changeOptions root {} .null (.object [("fmt.configPath", .string "a.json")])],
    [.opened (root, 1), .opened (root, 2)], [.closing (root, 1)], ?_, rfl⟩
  simp only [engines, engine, root]
  cbv

end RootHost

end FormatServer
