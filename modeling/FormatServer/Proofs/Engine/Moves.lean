import FormatServer.Engine.Scheduler

namespace FormatServer

variable {σ ρ : Type}

namespace SharedState

/-- How a program that waits is told a result by a look. -/
inductive Tells (shared : SharedState σ ρ) (slot : ReplySlot) : Look → Except WaitError ρ → Prop where
  | answered {response : Except Bytes ρ} (present : shared.response? slot = some response) :
      Tells shared slot .slot (outcome response)
  | gaveUp (stopped : shared.stopped = true) :
      Tells shared slot .stop (.error .stoppedWhileWaiting)

/-- How a look leads a program that waits to the next one. -/
inductive LeadsOn (shared : SharedState σ ρ) (handler : Option Ticket) (slot : ReplySlot) :
    Look → Look → Prop where
  | unanswered (inHandler : handler.isSome) (absent : shared.response? slot = none) :
      LeadsOn shared handler slot .slot .queue
  | drained (empty : shared.queue = []) : LeadsOn shared handler slot .queue .stop
  | running (running : shared.stopped = false) : LeadsOn shared handler slot .stop .slot

/-- What stays on a thread below a handler that is started: the innermost program, which goes on or
still waits, if there is one. -/
inductive Keeps (thread : Thread σ ρ) : List (Frame σ ρ) → Prop where
  | free (worker : thread.worker = true) (empty : thread.frames = []) : Keeps thread []
  | running {handler : Option Ticket} {action next : Action σ ρ} {below : List (Frame σ ρ)}
      (top : thread.frames = ⟨handler, .running action⟩ :: below) :
      Keeps thread [⟨handler, .running next⟩]
  | waiting {handler : Option Ticket} {slot : ReplySlot} {next : Except WaitError ρ → Action σ ρ}
      {below : List (Frame σ ρ)}
      (top : thread.frames = ⟨handler, .waiting slot .queue next⟩ :: below) :
      Keeps thread [⟨handler, .waiting slot .slot next⟩]

/-- The effects that a step of a thread can have. While a program goes on by itself, nobody else
sees more of it than the state of the engine and the log. -/
inductive Effect (shared : SharedState σ ρ) (thread : Thread σ ρ) : Move σ ρ → Prop where
  | wentOn {handler : Option Ticket} {action next : Action σ ρ} {below : List (Frame σ ρ)}
      {state : σ} {log : List LogEntry}
      (top : thread.frames = ⟨handler, .running action⟩ :: below) :
      Effect shared thread ⟨{ shared with state, log }, [⟨handler, .running next⟩], []⟩
  | left {action : Action σ ρ} {below : List (Frame σ ρ)}
      (top : thread.frames = ⟨none, .running action⟩ :: below) :
      Effect shared thread ⟨shared, [], []⟩
  | ended {ticket : Ticket} {action : Action σ ρ} {below : List (Frame σ ρ)}
      (top : thread.frames = ⟨some ticket, .running action⟩ :: below) :
      Effect shared thread
        ⟨{ shared with unfinished := shared.unfinished - 1 }, [], [.ended ticket]⟩
  | replied {handler : Option Ticket} {action next : Action σ ρ} {below : List (Frame σ ρ)}
      {slot : ReplySlot} {response : Except Bytes ρ} {log : List LogEntry}
      (top : thread.frames = ⟨handler, .running action⟩ :: below)
      (inside : slot < shared.responses.length) :
      Effect shared thread
        ⟨{ shared.fill slot response with log }, [⟨handler, .running next⟩],
          [.replied slot response]⟩
  | dropped {handler : Option Ticket} {action next : Action σ ρ} {below : List (Frame σ ρ)}
      {slot : ReplySlot} (top : thread.frames = ⟨handler, .running action⟩ :: below)
      (inside : slot < shared.responses.length) :
      Effect shared thread
        ⟨shared.abandon slot, [⟨handler, .running next⟩], [.dropped slot]⟩
  | accepted {handler : Option Ticket} {action program : Action σ ρ} {activity : Activity σ ρ}
      {below : List (Frame σ ρ)} (top : thread.frames = ⟨handler, .running action⟩ :: below)
      (running : shared.stopped = false)
      (goesOn : (∃ next, activity = .running next) ∨
        ∃ next, activity = .waiting shared.offered .slot next) :
      Effect shared thread
        ⟨shared.accept program, [⟨handler, activity⟩], [.accepted shared.offered program]⟩
  | refused {handler : Option Ticket} {action program next : Action σ ρ}
      {below : List (Frame σ ρ)} {events : List (SchedulerEvent σ ρ)}
      (top : thread.frames = ⟨handler, .running action⟩ :: below)
      (stopped : shared.stopped = true)
      (told : events = [] ∨ events = [.returned shared.offered (.error .notAccepted)]) :
      Effect shared thread
        ⟨shared.refuse, [⟨handler, .running next⟩], .refused shared.offered program :: events⟩
  | started {ticket : Ticket} {program : Action σ ρ} {queue : List (Ticket × Action σ ρ)}
      {kept : List (Frame σ ρ)} (queued : shared.queue = (ticket, program) :: queue)
      (keeps : Keeps thread kept) :
      Effect shared thread
        ⟨{ shared with queue, responses := shared.responses ++ [none] },
          ⟨some ticket, .running program⟩ :: kept, [.started ticket program]⟩
  | stopped {handler : Option Ticket} {action : Action σ ρ} {activity : Activity σ ρ}
      {below : List (Frame σ ρ)} (top : thread.frames = ⟨handler, .running action⟩ :: below)
      (goesOn : (∃ next, activity = .running next) ∨
        handler = none ∧ ∃ next, activity = .joining next) :
      Effect shared thread ⟨{ shared with stopped := true }, [⟨handler, activity⟩], [.stopped]⟩
  | looked {handler : Option Ticket} {slot : ReplySlot} {look nextLook : Look}
      {next : Except WaitError ρ → Action σ ρ} {below : List (Frame σ ρ)}
      (top : thread.frames = ⟨handler, .waiting slot look next⟩ :: below)
      (leads : shared.LeadsOn handler slot look nextLook) :
      Effect shared thread ⟨shared, [⟨handler, .waiting slot nextLook next⟩], []⟩
  | returned {handler : Option Ticket} {slot : ReplySlot} {look : Look}
      {next : Except WaitError ρ → Action σ ρ} {below : List (Frame σ ρ)}
      {result : Except WaitError ρ}
      (top : thread.frames = ⟨handler, .waiting slot look next⟩ :: below)
      (tells : shared.Tells slot look result) :
      Effect shared thread ⟨shared, [⟨handler, .running (next result)⟩], [.returned slot result]⟩
  | joined {handler : Option Ticket} {next : Action σ ρ} {below : List (Frame σ ρ)}
      (top : thread.frames = ⟨handler, .joining next⟩ :: below)
      (drained : shared.unfinished = 0) :
      Effect shared thread ⟨shared, [⟨handler, .running next⟩], [.joined]⟩

variable {shared : SharedState σ ρ} {thread : Thread σ ρ} {move : Move σ ρ}
  {handler : Option Ticket} {below : List (Frame σ ρ)} {slot : ReplySlot}
  {response : Except Bytes ρ}

theorem fill_of_length_le (absent : shared.responses.length ≤ slot) :
    shared.fill slot response = shared := by
  rw [fill, List.modify_eq_self absent]

theorem fill_of_response? {first : Except Bytes ρ} (present : shared.response? slot = some first) :
    shared.fill slot response = shared := by
  have held : shared.responses[slot]? = some (some first) := Option.join_eq_some_iff.mp present
  have same : shared.responses.modify slot (·.or (some response)) = shared.responses := by
    apply List.ext_getElem?
    intro other
    by_cases differ : slot = other
    · rw [← differ, List.getElem?_modify_eq, held]
      rfl
    · rw [List.getElem?_modify_ne _ _ differ]
  rw [fill, same]

/-- A response changes at most the log beside its slot. -/
theorem exists_respond (shared : SharedState σ ρ) (slot : ReplySlot) (response : Except Bytes ρ) :
    ∃ log, shared.respond slot response = { shared.fill slot response with log } := by
  unfold respond
  split
  · next present => exact ⟨_, by rw [fill_of_response? present]⟩
  · exact ⟨_, rfl⟩

/-- The program on top of a thread makes a step. -/
theorem effect_perform {action : Action σ ρ}
    (top : thread.frames = ⟨handler, .running action⟩ :: below) :
    Effect shared thread (shared.perform handler action) := by
  cases action with
  | done =>
    cases handler with
    | none => exact .left top
    | some ticket => exact .ended top
  | read next => exact .wentOn top
  | write state next => exact .wentOn top
  | reply slot response next =>
    obtain ⟨log, responded⟩ := shared.exists_respond slot response
    rw [perform, responded]
    split
    · next inside => exact .replied top inside
    · next outside =>
      rw [fill_of_length_le (Nat.not_lt.mp outside)]
      exact .wentOn top
  | drop slot next =>
    rw [perform]
    split
    · next inside => exact .dropped top inside
    · next outside =>
      rw [abandon, fill_of_length_le (Nat.not_lt.mp outside)]
      exact .wentOn top
  | enqueue program next refused =>
    rw [perform]
    split
    · next stopped => exact .refused top stopped (.inl rfl)
    · next running => exact .accepted top (Bool.eq_false_iff.mpr running) (.inl ⟨_, rfl⟩)
  | runNext next =>
    rw [perform, startNext?]
    split
    · exact .wentOn top
    · next queued => exact .started queued (.running top)
  | stop next =>
    rw [perform]
    split
    · exact .wentOn top
    · refine .stopped top ?_
      cases handler with
      | none => exact .inr ⟨rfl, _, rfl⟩
      | some ticket => exact .inl ⟨_, rfl⟩
  | isStopped next => exact .wentOn top
  | inHandler next => exact .wentOn top
  | await request next =>
    rw [perform]
    split
    · next stopped => exact .refused top stopped (.inr rfl)
    · next running => exact .accepted top (Bool.eq_false_iff.mpr running) (.inr ⟨_, rfl⟩)

/-- A look tells a program that waits a result, leads it on, or starts the next handler above it. -/
theorem look?_eq_some {look : Look} {next : Except WaitError ρ → Action σ ρ}
    (looks : shared.look? handler slot next look = some move) :
    (∃ result, shared.Tells slot look result ∧ shared.comeBack handler slot next result = move) ∨
    (∃ nextLook, shared.LeadsOn handler slot look nextLook ∧
      shared.lookOn handler slot next nextLook = move) ∨
    look = .queue ∧ shared.startNext? [⟨handler, .waiting slot .slot next⟩] = some move := by
  cases look with
  | slot =>
    rw [look?] at looks
    split at looks
    · next response present => exact .inl ⟨_, .answered present, Option.some.inj looks⟩
    · next absent =>
      split at looks
      · cases looks
      · next inside =>
        have inHandler : handler.isSome := Option.isSome_iff_ne_none.mpr (by simpa using inside)
        exact .inr (.inl ⟨_, .unanswered inHandler absent, Option.some.inj looks⟩)
  | queue =>
    rw [look?, startNext?] at looks
    split at looks
    · next empty => exact .inr (.inl ⟨_, .drained empty, Option.some.inj looks⟩)
    · next queued =>
      rw [startNext?, queued]
      exact .inr (.inr ⟨rfl, looks⟩)
  | stop =>
    rw [look?] at looks
    split at looks
    · next stopped => exact .inl ⟨_, .gaveUp stopped, Option.some.inj looks⟩
    · next running =>
      exact .inr (.inl ⟨_, .running (Bool.eq_false_iff.mpr running), Option.some.inj looks⟩)

/-- A handler that is started was the first of the queue. -/
theorem effect_startNext? {kept : List (Frame σ ρ)} (keeps : Keeps thread kept)
    (starts : shared.startNext? kept = some move) : Effect shared thread move := by
  unfold startNext? at starts
  split at starts
  · cases starts
  · next queued =>
    cases starts
    exact .started queued keeps

/-- Every step of a thread has one of the effects. -/
theorem effect_of_advance? (advances : shared.advance? thread = some move) :
    Effect shared thread move := by
  unfold advance? at advances
  split at advances
  · next empty =>
    split at advances
    · next worker => exact effect_startNext? (.free worker empty) advances
    · cases advances
  · next top =>
    cases advances
    exact effect_perform top
  · next top =>
    rcases look?_eq_some advances with ⟨result, tells, rfl⟩ | ⟨nextLook, leads, rfl⟩ | ⟨rfl, starts⟩
    · exact .returned top tells
    · exact .looked top leads
    · exact effect_startNext? (.waiting top) starts
  · next top =>
    split at advances
    · next drained =>
      cases advances
      exact .joined top drained
    · cases advances

end SharedState

end FormatServer
