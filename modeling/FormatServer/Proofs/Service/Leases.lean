import FormatServer.Proofs.Service.Requests

namespace FormatServer

/-- What can be asked of a lease. -/
inductive LeaseAction where
  | acquire (root : Bytes) (threads : UInt32)
  | release

/-- The directory and the number of threads that a lease is acquired for. -/
def LeaseAction.acquired? : LeaseAction → Option (Bytes × UInt32)
  | acquire root threads => some (root, threads)
  | release => none

namespace EngineCall

variable {π : Type}

/-- The workspace that a call has opened. -/
def opened? : EngineCall π → Option WorkspaceId
  | openWorkspace _ (.ok workspace) => some workspace
  | _ => none

/-- The workspace that a call asks to close. -/
def closing? : EngineCall π → Option WorkspaceId
  | closeWorkspace workspace _ => some workspace
  | _ => none

end EngineCall

namespace ExternalEngine

variable {σ π : Type} (engine : ExternalEngine σ) (state : SessionState σ)
  (calls : List (EngineCall π))

theorem run_noted_start (threads : UInt32) :
    (engine.noted.start threads).run (state.noted calls) =
      (((engine.start threads).run state).1, ((engine.start threads).run state).2.noted
        (calls ++ [.start threads ((engine.start threads).run state).1])) := rfl

theorem run_noted_openWorkspace (directory : Bytes) :
    (engine.noted.openWorkspace directory).run (state.noted calls) =
      (((engine.openWorkspace directory).run state).1,
        ((engine.openWorkspace directory).run state).2.noted
          (calls ++ [.openWorkspace directory ((engine.openWorkspace directory).run state).1])) :=
  rfl

theorem run_noted_closeWorkspace (workspace : WorkspaceId) :
    (engine.noted.closeWorkspace workspace).run (state.noted calls) =
      (((engine.closeWorkspace workspace).run state).1,
        ((engine.closeWorkspace workspace).run state).2.noted
          (calls ++ [.closeWorkspace workspace ((engine.closeWorkspace workspace).run state).1])) :=
  rfl

end ExternalEngine

namespace WorkspaceLease

variable {σ π : Type} {engine? : Option (ExternalEngine σ)} {first : Option (Bytes × UInt32)}
  {lease : WorkspaceLease σ} {calls : List (EngineCall π)}

/-- Does what is asked of a lease. -/
def act (lease : WorkspaceLease σ) : LeaseAction → Session σ (WorkspaceLease σ)
  | .acquire root threads => lease.acquire root threads
  | .release => lease.release

/-- Does one thing after the other. -/
def live (lease : WorkspaceLease σ) (actions : List LeaseAction) : Session σ (WorkspaceLease σ) :=
  actions.foldlM act lease

theorem live_cons (lease : WorkspaceLease σ) (action : LeaseAction) (actions : List LeaseAction) :
    lease.live (action :: actions) = lease.act action >>= fun lease => lease.live actions :=
  List.foldlM_cons

theorem live_singleton (lease : WorkspaceLease σ) (action : LeaseAction) :
    lease.live [action] = lease.act action := by
  rw [live_cons]
  exact bind_pure _

theorem live_append (lease : WorkspaceLease σ) (actions more : List LeaseAction) :
    lease.live (actions ++ more) = lease.live actions >>= fun lease => lease.live more :=
  List.foldlM_append

/-- The calls that an engine has received from a lease of it: they tell what the lease was first
acquired for, if it was, and what the engine answered. -/
inductive Course (engine? : Option (ExternalEngine σ)) :
    Option (Bytes × UInt32) → WorkspaceLease σ → List (EngineCall π) → Prop where
  | idle : Course engine? none (.idle engine?) []
  | absent {root : Bytes} {threads : UInt32} (lacks : engine? = none) :
    Course engine? (some (root, threads)) .failed []
  | notStarted {root : Bytes} {threads : UInt32} {error : EngineError} (has : engine?.isSome) :
    Course engine? (some (root, threads)) .failed [.start threads (.error error)]
  | notOpened {root : Bytes} {threads : UInt32} {names : List Bytes} {error : EngineError}
      (has : engine?.isSome) :
    Course engine? (some (root, threads)) .failed
      [.start threads (.ok names), .openWorkspace root (.error error)]
  | held {engine : ExternalEngine σ} {root : Bytes} {threads : UInt32} {names : List Bytes}
      {workspace : WorkspaceId} (has : engine? = some engine) :
    Course engine? (some (root, threads))
      (.held engine workspace (PluginLanguages.ofReport names))
      [.start threads (.ok names), .openWorkspace root (.ok workspace)]
  | released {root : Bytes} {threads : UInt32} {names : List Bytes} {workspace : WorkspaceId}
      {answer : EngineResult Unit} (has : engine?.isSome) :
    Course engine? (some (root, threads)) (.released (PluginLanguages.ofReport names))
      [.start threads (.ok names), .openWorkspace root (.ok workspace),
        .closeWorkspace workspace answer]

/-- The first acquisition starts the engine and opens a workspace. -/
theorem exists_course_acquire (engine? : Option (ExternalEngine σ)) (root : Bytes)
    (threads : UInt32) (state : SessionState σ) :
    let acquired := ((idle engine?).acquire root threads).run state
    ∃ calls : List (EngineCall π),
      ((idle engine?).noted.acquire root threads).run (state.noted []) =
        (acquired.1.noted, acquired.2.noted calls) ∧
      Course engine? (some (root, threads)) acquired.1 calls := by
  cases engine? with
  | none => exact ⟨[], rfl, .absent rfl⟩
  | some engine =>
    simp only [noted, acquire, Option.map_some, Session.run_bind, engine.run_noted_start]
    cases ((engine.start threads).run state).1 with
    | error error => exact ⟨_, rfl, .notStarted rfl⟩
    | ok names =>
      simp only [Session.run_bind, engine.run_noted_openWorkspace]
      cases ((engine.openWorkspace root).run _).1 with
      | error error => exact ⟨_, rfl, .notOpened rfl⟩
      | ok workspace => exact ⟨_, rfl, .held rfl⟩

/-- The release of a lease that holds a workspace closes it. -/
theorem exists_noted_release (engine : ExternalEngine σ) (workspace : WorkspaceId)
    (languages : PluginLanguages) (calls : List (EngineCall π)) (state : SessionState σ) :
    let closed := (held engine workspace languages).release.run state
    ∃ answer, (held engine workspace languages).noted.release.run (state.noted calls) =
        (closed.1.noted, closed.2.noted (calls ++ [.closeWorkspace workspace answer])) ∧
      closed.1 = .released languages := by
  refine ⟨((engine.closeWorkspace workspace).run state).1, ?_⟩
  simp only [noted, release, Session.run_bind, engine.run_noted_closeWorkspace]
  cases ((engine.closeWorkspace workspace).run state).1 <;> exact ⟨rfl, rfl⟩

theorem Course.act (course : Course engine? first lease calls) (action : LeaseAction)
    (state : SessionState σ) :
    let acted := (lease.act action).run state
    ∃ more, (lease.noted.act action).run (state.noted calls) =
        (acted.1.noted, acted.2.noted (calls ++ more)) ∧
      Course engine? (first.or action.acquired?) acted.1 (calls ++ more) := by
  cases course with
  | idle =>
    cases action with
    | acquire root threads => exact exists_course_acquire engine? root threads state
    | release => exact ⟨[], rfl, .idle⟩
  | held has =>
    cases action with
    | acquire root threads => exact ⟨[], rfl, .held has⟩
    | release =>
      obtain ⟨answer, closes, released⟩ := exists_noted_release _ _ _ _ state
      exact ⟨[.closeWorkspace _ answer], closes, released ▸ .released (by rw [has]; rfl)⟩
  | absent lacks => cases action <;> exact ⟨[], rfl, .absent lacks⟩
  | notStarted has => cases action <;> exact ⟨[], rfl, .notStarted has⟩
  | notOpened has => cases action <;> exact ⟨[], rfl, .notOpened has⟩
  | released has => cases action <;> exact ⟨[], rfl, .released has⟩

theorem Course.live (course : Course engine? first lease calls) (actions : List LeaseAction)
    (state : SessionState σ) :
    let lived := (lease.live actions).run state
    ∃ more, (lease.noted.live actions).run (state.noted calls) =
        (lived.1.noted, lived.2.noted (calls ++ more)) ∧
      Course engine? (first.or (actions.findSome? LeaseAction.acquired?)) lived.1
        (calls ++ more) := by
  induction actions generalizing first lease calls state with
  | nil =>
    refine ⟨[], by rw [List.append_nil]; rfl, ?_⟩
    rwa [List.append_nil, List.findSome?_nil, Option.or_none]
  | cons action actions ih =>
    obtain ⟨more, acts, courseAfter⟩ := course.act action state
    obtain ⟨rest, lives, courseEnd⟩ := ih courseAfter ((lease.act action).run state).2
    rw [List.append_assoc] at lives courseEnd
    refine ⟨more ++ rest, ?_, ?_⟩
    · rw [live_cons, live_cons, Session.run_bind, Session.run_bind, acts, lives]
    · rw [Option.or_assoc] at courseEnd
      rw [live_cons, Session.run_bind]
      cases action <;> exact courseEnd

/-- A lease that has failed or was released does nothing any more. -/
theorem live_of_settled (settled : lease.stage = .failed ∨ lease.stage = .released)
    (actions : List LeaseAction) : lease.live actions = pure lease := by
  have still : ∀ action, lease.act action = pure lease := by
    intro action
    cases lease with
    | failed => cases action <;> rfl
    | released languages => cases action <;> rfl
    | idle engine? => simp [stage] at settled
    | held engine workspace languages => simp [stage] at settled
  induction actions with
  | nil => rfl
  | cons action actions ih => rw [live_cons, still, pure_bind, ih]

theorem stage_noted (lease : WorkspaceLease σ) :
    (lease.noted : WorkspaceLease (Noted π σ)).stage = lease.stage := by
  cases lease <;> rfl

theorem isSome_workspace?_iff (lease : WorkspaceLease σ) :
    lease.workspace?.isSome ↔ lease.stage = .held := by
  cases lease <;> simp [workspace?, stage]

theorem isSome_engine?_iff (lease : WorkspaceLease σ) :
    lease.engine?.isSome ↔ lease.stage = .held := by
  cases lease <;> simp [WorkspaceLease.engine?, stage]

theorem languages_of_failed (failed : lease.stage = .failed) : lease.languages = {} := by
  cases lease <;> first | rfl | cases failed

/-- A lease that is asked for its release holds nothing afterwards. -/
theorem stage_release_ne_held (lease : WorkspaceLease σ) (state : SessionState σ) :
    (lease.release.run state).1.stage ≠ .held := by
  cases lease with
  | held engine workspace languages =>
    obtain ⟨_, _, released⟩ := exists_noted_release (π := Unit) engine workspace languages [] state
    rw [released]
    exact nofun
  | _ => exact nofun

/-- A lease that holds nothing has closed what it opened, once. -/
theorem Course.closing_eq_opened (course : Course engine? first lease calls)
    (ended : lease.stage ≠ .held) :
    calls.filterMap EngineCall.closing? = calls.filterMap EngineCall.opened? := by
  cases course with
  | held has => exact absurd rfl ended
  | _ => rfl

/-- Whatever is asked of a lease, in any order, and whatever the engine answers, the calls that the
engine receives follow the course of the lease. A release ends its life; by then every workspace
that was opened has been closed, once. -/
theorem calls_follow_course (engine? : Option (ExternalEngine σ)) (actions : List LeaseAction)
    (state : SessionState σ) :
    let first := actions.findSome? LeaseAction.acquired?
    let lived := ((idle engine?).live actions).run state
    let ended := ((idle engine?).live (actions ++ [.release])).run state
    let notedLived := ((idle engine?).noted.live actions).run (state.noted [])
    ∃ calls closing : List (EngineCall π),
      -- What has been called so far, and in the whole life.
      (notedLived = (lived.1.noted, lived.2.noted calls) ∧ Course engine? first lived.1 calls) ∧
      (((idle engine?).noted.live (actions ++ [.release])).run (state.noted []) =
          (ended.1.noted, ended.2.noted (calls ++ closing)) ∧
        Course engine? first ended.1 (calls ++ closing) ∧ ended.1.stage ≠ .held ∧
        (calls ++ closing).filterMap EngineCall.closing? =
          (calls ++ closing).filterMap EngineCall.opened?) ∧
      -- What the lease is so far.
      (lived.1.workspace?.isSome ↔ lived.1.stage = .held) ∧
      (lived.1.engine?.isSome ↔ lived.1.stage = .held) ∧
      (lived.1.stage = .failed → lived.1.languages = {}) ∧
      (lived.1.stage = .failed ∨ lived.1.stage = .released → ∀ more,
        ((idle engine?).noted.live (actions ++ more)).run (state.noted []) = notedLived) := by
  intro first lived ended notedLived
  have fresh : Course engine? none (.idle engine?) ([] : List (EngineCall π)) := .idle
  obtain ⟨calls, lives, course⟩ := fresh.live actions state
  obtain ⟨closing, ends, courseEnd⟩ := course.act .release lived.2
  rw [List.nil_append] at lives course ends courseEnd
  rw [Option.none_or] at course courseEnd
  rw [LeaseAction.acquired?, Option.or_none] at courseEnd
  have release : ended = lived.1.release.run lived.2 := by
    simp only [ended, lived, live_append, Session.run_bind, live_singleton]
    rfl
  refine ⟨calls, closing, ⟨lives, course⟩, ⟨?_, release ▸ courseEnd, ?_, ?_⟩,
    isSome_workspace?_iff _, isSome_engine?_iff _, languages_of_failed, fun settled more => ?_⟩
  · rw [live_append, Session.run_bind, lives, release, live_singleton]
    exact ends
  · rw [release]
    exact stage_release_ne_held _ _
  · exact courseEnd.closing_eq_opened (stage_release_ne_held _ _)
  · have settledNoted : (lived.1.noted : WorkspaceLease (Noted π σ)).stage = .failed ∨
        (lived.1.noted : WorkspaceLease (Noted π σ)).stage = .released := by
      rwa [stage_noted]
    rw [live_append, Session.run_bind, lives, live_of_settled settledNoted, Session.run_pure]
    exact lives.symm

example :
    let engine : ExternalEngine Unit :=
      { start? := some fun _ => return .ok []
        openWorkspace? := some fun _ => return .ok 7
        closeWorkspace? := some fun _ => return .ok () }
    let lease : WorkspaceLease (Noted Unit Unit) := (idle (some engine)).noted
    (((lease.live [.release, .acquire "/w" 1, .acquire "/v" 2, .release, .acquire "/w" 1]).run
        (SessionState.noted ⟨(), []⟩ [])).2.engine.calls : List (EngineCall Unit)) =
      [.start 1 (.ok []), .openWorkspace "/w" (.ok 7), .closeWorkspace 7 (.ok ())] := rfl

end WorkspaceLease

end FormatServer
