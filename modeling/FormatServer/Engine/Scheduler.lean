import FormatServer.Log

/-!
The scheduler that the external engine runs on: a queue of handlers, the workers that take them off
its front, and threads outside that wait for answers.

A handler is a finite program whose steps are visible to the scheduler: handing over more handlers,
running one of them in between, stopping the scheduler, answering a request, and making a request
and waiting for its answer. A thread that runs a handler must not stand still while it waits, as the
answer may come from a handler behind it in the queue; it runs those handlers itself.
-/

namespace FormatServer

/-- Why a request has no answer: the scheduler was stopped before it, it was refused or its slot was
given up, or nothing more was found to run on a scheduler that was stopped. -/
inductive WaitError where
  | notAccepted
  | rejected (reason : Bytes)
  | stoppedWhileWaiting
  deriving DecidableEq, Repr

/-- The number under which a handler is handed over. -/
abbrev Ticket := Nat

/-- The number of the slot that takes the answer to a request: that of the handler which is given the
slot. -/
abbrev ReplySlot := Ticket

/-- A program that runs on a thread, over the state `σ` of the engine and answers of type `ρ`. A
reply with an error refuses the request, and `drop` gives its slot up. `runNext` runs the first
handler of the queue and learns whether there was one; `await` hands over a request, which is given
a slot, and waits for the answer. -/
inductive Action (σ ρ : Type) where
  | done
  | read (next : σ → Action σ ρ)
  | write (state : σ) (next : Action σ ρ)
  | reply (slot : ReplySlot) (response : Except Bytes ρ) (next : Action σ ρ)
  | drop (slot : ReplySlot) (next : Action σ ρ)
  | enqueue (handler next : Action σ ρ) (refused : Action σ ρ)
  | runNext (next : Bool → Action σ ρ)
  | stop (next : Action σ ρ)
  | isStopped (next : Bool → Action σ ρ)
  | inHandler (next : Bool → Action σ ρ)
  | await (request : ReplySlot → Action σ ρ) (next : Except WaitError ρ → Action σ ρ)

/-- Where a program that waits looks next. A handler that finds no answer in its slot takes the next
handler off the queue, and looks whether the scheduler is stopped if there is none. -/
inductive Look where
  | slot
  | queue
  | stop
  deriving DecidableEq, Repr

/-- What a program on a thread is at. Only a program outside joins: it waits for all handlers to
end. -/
inductive Activity (σ ρ : Type) where
  | running (action : Action σ ρ)
  | waiting (slot : ReplySlot) (look : Look) (next : Except WaitError ρ → Action σ ρ)
  | joining (next : Action σ ρ)

/-- One level of a thread. A program outside is no handler. -/
structure Frame (σ ρ : Type) where
  handler : Option Ticket
  activity : Activity σ ρ

/-- A thread with what it runs, the innermost program first. A worker without frames is free to take
a handler. -/
structure Thread (σ ρ : Type) where
  worker : Bool
  frames : List (Frame σ ρ) := []

/-- The handler that the innermost program of a thread is. -/
def Thread.handler? {σ ρ : Type} (thread : Thread σ ρ) : Option Ticket :=
  thread.frames.head?.bind (·.handler)

/-- What can happen in a step. A request is `returned` to the program that made it, and a program
outside that stopped the scheduler has `joined` once it goes on. -/
inductive SchedulerEvent (σ ρ : Type) where
  | accepted (ticket : Ticket) (handler : Action σ ρ)
  | refused (ticket : Ticket) (handler : Action σ ρ)
  | started (ticket : Ticket) (handler : Action σ ρ)
  | ended (ticket : Ticket)
  | replied (slot : ReplySlot) (response : Except Bytes ρ)
  | dropped (slot : ReplySlot)
  | returned (slot : ReplySlot) (result : Except WaitError ρ)
  | stopped
  | joined

/-- Who makes a step: a thread, in a handler unless it runs a program outside or is a free worker. -/
structure Actor where
  thread : Nat
  handler : Option Ticket
  deriving DecidableEq, Repr

/-- Something that happened. -/
structure HistoryEntry (σ ρ : Type) where
  actor : Actor
  event : SchedulerEvent σ ρ

/-- What the threads of a scheduler share. In the queue stand the handlers not started yet, the next
one first. Refused handlers are offered too; unfinished are those that were accepted and have not
come to their end. For each handler that was started there is a slot for the first response. -/
structure SharedState (σ ρ : Type) where
  queue : List (Ticket × Action σ ρ) := []
  offered : Nat := 0
  unfinished : Nat := 0
  stopped : Bool := false
  responses : List (Option (Except Bytes ρ)) := []
  state : σ
  log : List LogEntry := []

/-- What a step leaves. Its frames stand in the place of the innermost program of the thread. -/
structure Move (σ ρ : Type) where
  shared : SharedState σ ρ
  frames : List (Frame σ ρ)
  events : List (SchedulerEvent σ ρ) := []

/-- What the waiter for a slot is told if it is given up. -/
def Scheduler.noResponse : Bytes := "no response available"

namespace SharedState

variable {σ ρ : Type}

/-- Puts a handler behind the others. -/
def accept (shared : SharedState σ ρ) (handler : Action σ ρ) : SharedState σ ρ :=
  { shared with
    queue := shared.queue ++ [(shared.offered, handler)]
    offered := shared.offered + 1
    unfinished := shared.unfinished + 1 }

/-- Passes over the number of a handler that is refused. -/
def refuse (shared : SharedState σ ρ) : SharedState σ ρ :=
  { shared with offered := shared.offered + 1 }

/-- The first response in a slot. -/
def response? (shared : SharedState σ ρ) (slot : ReplySlot) : Option (Except Bytes ρ) :=
  (shared.responses[slot]?).join

/-- Puts a response into a slot, unless there is one already. -/
def fill (shared : SharedState σ ρ) (slot : ReplySlot) (response : Except Bytes ρ) :
    SharedState σ ρ :=
  { shared with responses := shared.responses.modify slot (·.or (some response)) }

/-- Answers in a slot. A response after the first one changes nothing, and if it is an error it is
logged. -/
def respond (shared : SharedState σ ρ) (slot : ReplySlot) (response : Except Bytes ρ) :
    SharedState σ ρ :=
  match shared.response? slot, response with
  | some _, .error reason =>
    { shared with log := shared.log ++ [.error ["dropping late reply: ", reason]] }
  | _, _ => shared.fill slot response

/-- Gives a slot up; its waiter is refused if there was no response yet. -/
def abandon (shared : SharedState σ ρ) (slot : ReplySlot) : SharedState σ ρ :=
  shared.fill slot (.error Scheduler.noResponse)

/-- A program goes on. -/
def goOn (shared : SharedState σ ρ) (handler : Option Ticket) (next : Action σ ρ)
    (events : List (SchedulerEvent σ ρ)) : Move σ ρ :=
  { shared, frames := [{ handler, activity := .running next }], events }

/-- A request comes back to the program that made it. -/
def comeBack (shared : SharedState σ ρ) (handler : Option Ticket) (slot : ReplySlot)
    (next : Except WaitError ρ → Action σ ρ) (result : Except WaitError ρ) : Move σ ρ :=
  shared.goOn handler (next result) [.returned slot result]

/-- Starts the first handler of the queue above a frame, if there is one. With the handler its slot
comes into being; nobody could have answered it before. -/
def startNext? (shared : SharedState σ ρ) (below : List (Frame σ ρ)) : Option (Move σ ρ) :=
  match shared.queue with
  | [] => none
  | (ticket, handler) :: queue =>
    some
      { shared := { shared with queue, responses := shared.responses ++ [none] }
        frames := { handler := some ticket, activity := .running handler } :: below
        events := [.started ticket handler] }

/-- Makes the next step of a program, which may be a handler. -/
def perform (shared : SharedState σ ρ) (handler : Option Ticket) : Action σ ρ → Move σ ρ
  | .done =>
    match handler with
    | none => { shared, frames := [] }
    | some ticket =>
      { shared := { shared with unfinished := shared.unfinished - 1 }
        frames := []
        events := [.ended ticket] }
  | .read next => shared.goOn handler (next shared.state) []
  | .write state next => { shared with state }.goOn handler next []
  | .reply slot response next =>
    (shared.respond slot response).goOn handler next
      (if slot < shared.responses.length then [.replied slot response] else [])
  | .drop slot next =>
    (shared.abandon slot).goOn handler next
      (if slot < shared.responses.length then [.dropped slot] else [])
  | .enqueue program next refused =>
    if shared.stopped then
      shared.refuse.goOn handler refused [.refused shared.offered program]
    else (shared.accept program).goOn handler next [.accepted shared.offered program]
  | .runNext next =>
    (shared.startNext? [{ handler, activity := .running (next true) }]).getD
      (shared.goOn handler (next false) [])
  | .stop next =>
    if shared.stopped then shared.goOn handler next []
    else
      { shared := { shared with stopped := true }
        frames := [{ handler, activity := if handler.isSome then .running next else .joining next }]
        events := [.stopped] }
  | .isStopped next => shared.goOn handler (next shared.stopped) []
  | .inHandler next => shared.goOn handler (next handler.isSome) []
  | .await request next =>
    let slot := shared.offered
    if shared.stopped then
      let move := shared.refuse.comeBack handler slot next (.error .notAccepted)
      { move with events := .refused slot (request slot) :: move.events }
    else
      { shared := shared.accept (request slot)
        frames := [{ handler, activity := .waiting slot .slot next }]
        events := [.accepted slot (request slot)] }

/-- What the waiter for a request is told. -/
def outcome (response : Except Bytes ρ) : Except WaitError ρ :=
  response.mapError .rejected

/-- A program that waits goes on to another look. -/
def lookOn (shared : SharedState σ ρ) (handler : Option Ticket) (slot : ReplySlot)
    (next : Except WaitError ρ → Action σ ρ) (look : Look) : Move σ ρ :=
  { shared, frames := [{ handler, activity := .waiting slot look next }] }

/-- A program that waits takes a look. Outside it stands still until there is an answer. In a handler
it goes round: while there is no answer it runs the next handler of the queue, and when it finds
none it gives up if the scheduler is stopped. Each look is a step of its own, so other threads may
come between them. -/
def look? (shared : SharedState σ ρ) (handler : Option Ticket) (slot : ReplySlot)
    (next : Except WaitError ρ → Action σ ρ) : Look → Option (Move σ ρ)
  | .slot =>
    match shared.response? slot with
    | some response => some (shared.comeBack handler slot next (outcome response))
    | none => if handler.isNone then none else some (shared.lookOn handler slot next .queue)
  | .queue =>
    some ((shared.startNext? [{ handler, activity := .waiting slot .slot next }]).getD
      (shared.lookOn handler slot next .stop))
  | .stop =>
    if shared.stopped then
      some (shared.comeBack handler slot next (.error .stoppedWhileWaiting))
    else some (shared.lookOn handler slot next .slot)

/-- The next step of a thread, if it can make one. -/
def advance? (shared : SharedState σ ρ) (thread : Thread σ ρ) : Option (Move σ ρ) :=
  match thread.frames with
  | [] => if thread.worker then shared.startNext? [] else none
  | ⟨handler, .running action⟩ :: _ => some (shared.perform handler action)
  | ⟨handler, .waiting slot look next⟩ :: _ => shared.look? handler slot next look
  | ⟨handler, .joining next⟩ :: _ =>
    if shared.unfinished = 0 then some (shared.goOn handler next [.joined]) else none

end SharedState

/-- The scheduler with its threads, the workers among them, and what happened so far, oldest first. -/
structure Scheduler (σ ρ : Type) extends SharedState σ ρ where
  threads : List (Thread σ ρ)
  history : List (HistoryEntry σ ρ) := []

namespace Scheduler

variable {σ ρ : Type}

/-- A scheduler with free workers, at least one, and one free thread outside in front of them. -/
def create (workers : Nat) (state : σ) : Scheduler σ ρ :=
  { threads := { worker := false } :: List.replicate (max 1 workers) { worker := true }, state }

/-- The scheduler after a step of a thread. -/
def after (scheduler : Scheduler σ ρ) (number : Nat) (thread : Thread σ ρ) (move : Move σ ρ) :
    Scheduler σ ρ :=
  { move.shared with
    threads := scheduler.threads.set number
      { thread with frames := move.frames ++ thread.frames.tail }
    history := scheduler.history ++
      move.events.map fun event => ⟨⟨number, thread.handler?⟩, event⟩ }

/-- The next step of the thread with a number, if it can make one. -/
def step? (scheduler : Scheduler σ ρ) (number : Nat) : Option (Scheduler σ ρ) :=
  match scheduler.threads[number]? with
  | none => none
  | some thread =>
    (scheduler.advance? thread).map fun move => scheduler.after number thread move

/-- The next step of the first thread that can make one. -/
def stepFirst? (scheduler : Scheduler σ ρ) : Option (Scheduler σ ρ) :=
  (List.range scheduler.threads.length).findSome? scheduler.step?

/-- Makes steps until no thread can, or the limit is reached. -/
def settle : (limit : Nat) → Scheduler σ ρ → Scheduler σ ρ
  | 0, scheduler => scheduler
  | limit + 1, scheduler =>
    match scheduler.stepFirst? with
    | some next => settle limit next
    | none => scheduler

/-- Runs a program on the thread outside until nothing more can happen. -/
def runOutside (limit : Nat) (program : Action σ ρ) (scheduler : Scheduler σ ρ) :
    Scheduler σ ρ :=
  let frames : List (Frame σ ρ) := [{ handler := none, activity := .running program }]
  { scheduler with
    threads := scheduler.threads.modify 0 fun thread => { thread with frames } }.settle limit

/-- Runs a program in a handler until nothing more can happen; on the thread outside if the
scheduler is stopped. -/
def runInside (limit : Nat) (program : Action σ ρ) (scheduler : Scheduler σ ρ) : Scheduler σ ρ :=
  scheduler.runOutside limit (.enqueue program .done program)

end Scheduler

end FormatServer
