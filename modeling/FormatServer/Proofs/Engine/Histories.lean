import FormatServer.Proofs.Engine.Moves
import Mathlib

namespace FormatServer

variable {σ ρ : Type}

namespace SchedulerEvent

/-- The handler that is accepted, with its number. -/
@[simp] def accepted? : SchedulerEvent σ ρ → Option (Ticket × Action σ ρ)
  | accepted ticket handler => some (ticket, handler)
  | _ => none

/-- The handler that is started, with its number. -/
@[simp] def started? : SchedulerEvent σ ρ → Option (Ticket × Action σ ρ)
  | started ticket handler => some (ticket, handler)
  | _ => none

/-- The number of the handler that comes to its end. -/
@[simp] def ended? : SchedulerEvent σ ρ → Option Ticket
  | ended ticket => some ticket
  | _ => none

/-- The response that a slot is given. One that is given up is refused. -/
@[simp] def response? (slot : ReplySlot) : SchedulerEvent σ ρ → Option (Except Bytes ρ)
  | replied other response => if other = slot then some response else none
  | dropped other => if other = slot then some (.error Scheduler.noResponse) else none
  | _ => none

end SchedulerEvent

/-- What happened so far, oldest first. -/
abbrev History (σ ρ : Type) := List (HistoryEntry σ ρ)

namespace History

/-- The handlers that were accepted, each with its number, in this order. -/
def accepts (history : History σ ρ) : List (Ticket × Action σ ρ) :=
  history.filterMap (·.event.accepted?)

/-- The handlers that were started, each with its number, in this order. -/
def starts (history : History σ ρ) : List (Ticket × Action σ ρ) :=
  history.filterMap (·.event.started?)

/-- The numbers of the handlers that came to their end, in this order. -/
def ends (history : History σ ρ) : List Ticket :=
  history.filterMap (·.event.ended?)

/-- The first response that a slot was given. -/
def firstResponse? (history : History σ ρ) (slot : ReplySlot) : Option (Except Bytes ρ) :=
  history.findSome? (·.event.response? slot)

/-- Whether the scheduler was stopped. -/
def IsStopped (history : History σ ρ) : Prop :=
  ∃ actor, ⟨actor, .stopped⟩ ∈ history

/-- What an actor does in a step. -/
def made (actor : Actor) (events : List (SchedulerEvent σ ρ)) : History σ ρ :=
  events.map fun event => ⟨actor, event⟩

section

variable {history past rest : History σ ρ}

@[simp] theorem accepts_append (first second : History σ ρ) :
    accepts (first ++ second) = accepts first ++ accepts second := List.filterMap_append

@[simp] theorem starts_append (first second : History σ ρ) :
    starts (first ++ second) = starts first ++ starts second := List.filterMap_append

@[simp] theorem ends_append (first second : History σ ρ) :
    ends (first ++ second) = ends first ++ ends second := List.filterMap_append

@[simp] theorem firstResponse?_append (first second : History σ ρ) (slot : ReplySlot) :
    firstResponse? (first ++ second) slot =
      (firstResponse? first slot).or (firstResponse? second slot) := List.findSome?_append

@[simp] theorem isStopped_append (first second : History σ ρ) :
    IsStopped (first ++ second) ↔ IsStopped first ∨ IsStopped second := by
  simp only [IsStopped, List.mem_append, exists_or]

@[simp] theorem accepts_made (actor : Actor) (events : List (SchedulerEvent σ ρ)) :
    accepts (made actor events) = events.filterMap (·.accepted?) := List.filterMap_map

@[simp] theorem starts_made (actor : Actor) (events : List (SchedulerEvent σ ρ)) :
    starts (made actor events) = events.filterMap (·.started?) := List.filterMap_map

@[simp] theorem ends_made (actor : Actor) (events : List (SchedulerEvent σ ρ)) :
    ends (made actor events) = events.filterMap (·.ended?) := List.filterMap_map

@[simp] theorem firstResponse?_made (actor : Actor) (events : List (SchedulerEvent σ ρ))
    (slot : ReplySlot) :
    firstResponse? (made actor events) slot = events.findSome? (·.response? slot) := by
  simp [firstResponse?, made, List.findSome?_map, Function.comp_def]

@[simp] theorem isStopped_made (actor : Actor) (events : List (SchedulerEvent σ ρ)) :
    IsStopped (made actor events) ↔ .stopped ∈ events := by
  simp [IsStopped, made]

end

/-- What must have happened before something happens. -/
def Justified (past : History σ ρ) (entry : HistoryEntry σ ρ) : Prop :=
  match entry.event with
  | .accepted _ _ => ¬IsStopped past
  | .refused ticket _ => IsStopped past ∧ (accepts past).length ≤ ticket
  | .started ticket handler => starts past ++ [(ticket, handler)] <+: accepts past
  | .joined => IsStopped past ∧ (ends past).Perm ((accepts past).map Prod.fst)
  | _ => True

/-- Whether all that happened was justified. -/
def Lawful (history : History σ ρ) : Prop :=
  ∀ past entry rest, history = past ++ entry :: rest → Justified past entry

theorem Lawful.of_append {past rest : History σ ρ} (lawful : Lawful (past ++ rest)) :
    Lawful past := by
  rintro before entry after rfl
  exact lawful before entry (after ++ rest) (by simp)

theorem Lawful.concat {past : History σ ρ} {entry : HistoryEntry σ ρ} (lawful : Lawful past)
    (justified : Justified past entry) : Lawful (past ++ [entry]) := by
  intro before other after split
  rcases List.eq_nil_or_concat after with rfl | ⟨earlier, last, rfl⟩
  · obtain ⟨rfl, same⟩ := List.append_inj' split rfl
    cases same
    exact justified
  · rw [List.concat_eq_append, ← List.cons_append, ← List.append_assoc] at split
    exact lawful before other earlier (List.append_inj' split rfl).1

/-- Handlers are started in the order in which they were accepted. -/
theorem Lawful.starts_prefix_accepts {history : History σ ρ} (lawful : Lawful history) :
    starts history <+: accepts history := by
  induction history using List.reverseRecOn with
  | nil => exact List.nil_prefix
  | append_singleton past entry ih =>
    have justified := lawful past entry [] rfl
    have before := ih lawful.of_append
    rw [starts_append, accepts_append]
    obtain ⟨actor, event⟩ := entry
    cases event with
    | started ticket handler =>
      have started : starts past ++ [(ticket, handler)] <+: accepts past := justified
      exact started.trans (List.prefix_append _ _)
    | _ =>
      refine List.IsPrefix.trans ?_ (before.trans (List.prefix_append _ _))
      simp [starts]

/-- Nothing is accepted after the stop. -/
theorem Lawful.accepts_append_of_isStopped {past rest : History σ ρ}
    (lawful : Lawful (past ++ rest)) (stopped : IsStopped past) :
    accepts (past ++ rest) = accepts past := by
  induction rest using List.reverseRecOn with
  | nil => rw [List.append_nil]
  | append_singleton rest entry ih =>
    rw [← List.append_assoc] at lawful ⊢
    have justified := lawful (past ++ rest) entry [] rfl
    have same := ih lawful.of_append
    obtain ⟨actor, event⟩ := entry
    cases event with
    | accepted ticket handler => exact absurd (by simp [stopped]) justified
    | _ => simpa [accepts] using same

end History

open History

/-- Whether what the threads share agrees with the history. Accepted handlers are numbered in their
order, and only refused ones have higher numbers. -/
structure SharedState.Agrees (shared : SharedState σ ρ) (history : History σ ρ) : Prop where
  numbered : (accepts history).map Prod.fst = List.range (accepts history).length
  offered : (accepts history).length ≤ shared.offered
  running : shared.stopped = false → shared.offered = (accepts history).length
  stopped : shared.stopped = true ↔ IsStopped history
  queued : accepts history = starts history ++ shared.queue
  slots : shared.responses.length = (starts history).length
  responses : ∀ slot, shared.response? slot = firstResponse? history slot

/-- Whether a frame is in order when so many handlers have been accepted: what it waits for has been
accepted, and who waits for the handlers to end is outside and has stopped the scheduler. -/
def Frame.Fits (accepted : Nat) (stopped : Bool) (frame : Frame σ ρ) : Prop :=
  match frame.activity with
  | .running _ => True
  | .waiting slot _ _ => slot < accepted
  | .joining _ => frame.handler = none ∧ stopped = true

/-- Whether the frames of a thread are in order: a worker runs handlers, and at most the outermost
program is none. -/
structure Thread.Fits (accepted : Nat) (stopped : Bool) (thread : Thread σ ρ) : Prop where
  handlers : thread.worker = true → ∀ frame ∈ thread.frames, frame.handler.isSome
  outermost : thread.frames.Pairwise fun inner _ => inner.handler.isSome
  frames : ∀ frame ∈ thread.frames, frame.Fits accepted stopped

namespace Thread

variable {thread : Thread σ ρ} {accepted : Nat} {stopped : Bool} {handler : Option Ticket}
  {activity : Activity σ ρ} {below : List (Frame σ ρ)}

theorem Fits.mono (fits : thread.Fits accepted stopped) {acceptedAfter : Nat}
    {stoppedAfter : Bool} (more : accepted ≤ acceptedAfter)
    (stays : stopped = true → stoppedAfter = true) :
    thread.Fits acceptedAfter stoppedAfter where
  handlers := fits.handlers
  outermost := fits.outermost
  frames := by
    rintro ⟨handler, activity⟩ mem
    have fit := fits.frames _ mem
    cases activity with
    | running action => trivial
    | waiting slot look next => exact lt_of_lt_of_le fit more
    | joining next => exact ⟨fit.1, stays fit.2⟩

theorem Fits.pop (fits : thread.Fits accepted stopped) :
    { thread with frames := thread.frames.tail }.Fits accepted stopped where
  handlers := fun worker frame mem => fits.handlers worker frame (List.mem_of_mem_tail mem)
  outermost := fits.outermost.tail
  frames := fun frame mem => fits.frames frame (List.mem_of_mem_tail mem)

theorem Fits.push (fits : thread.Fits accepted stopped) (ticket : Ticket) (action : Action σ ρ) :
    { thread with frames := ⟨some ticket, .running action⟩ :: thread.frames }.Fits accepted
      stopped where
  handlers := fun worker => List.forall_mem_cons.mpr ⟨rfl, fits.handlers worker⟩
  outermost := .cons (fun _ _ => rfl) fits.outermost
  frames := List.forall_mem_cons.mpr ⟨trivial, fits.frames⟩

/-- The innermost program may do anything else that is in order. -/
theorem Fits.replace (fits : thread.Fits accepted stopped)
    (top : thread.frames = ⟨handler, activity⟩ :: below) (other : Activity σ ρ)
    (fit : Frame.Fits accepted stopped ⟨handler, other⟩) :
    { thread with frames := ⟨handler, other⟩ :: thread.frames.tail }.Fits accepted stopped where
  handlers := fun worker => List.forall_mem_cons.mpr
    ⟨fits.handlers worker ⟨handler, activity⟩ (by simp [top]), fits.pop.handlers worker⟩
  outermost := by
    have outermost := fits.outermost
    rw [top] at outermost ⊢
    exact .cons (fun _ mem => List.rel_of_pairwise_cons outermost mem) outermost.of_cons
  frames := List.forall_mem_cons.mpr ⟨fit, fits.pop.frames⟩

end Thread

namespace SharedState

variable {shared : SharedState σ ρ} {thread : Thread σ ρ} {move : Move σ ρ}
  {history : History σ ρ}

theorem Agrees.stopped_eq_false (agrees : shared.Agrees history) (running : ¬IsStopped history) :
    shared.stopped = false :=
  Bool.eq_false_iff.mpr fun stopped => running (agrees.stopped.mp stopped)

theorem response?_fill (shared : SharedState σ ρ) {slot : ReplySlot}
    (inside : slot < shared.responses.length) (response : Except Bytes ρ) (other : ReplySlot) :
    (shared.fill slot response).response? other =
      (shared.response? other).or (if slot = other then some response else none) := by
  simp only [response?, fill]
  by_cases same : slot = other
  · subst same
    rw [List.getElem?_modify_eq, List.getElem?_eq_getElem inside, if_pos rfl]
    rfl
  · rw [List.getElem?_modify_ne _ _ same, if_neg same, Option.or_none]

/-- A handler that is started brings an empty slot. -/
theorem response?_startNext (shared : SharedState σ ρ) (queue : List (Ticket × Action σ ρ))
    (slot : ReplySlot) :
    { shared with queue, responses := shared.responses ++ [none] }.response? slot =
      shared.response? slot := by
  simp only [response?]
  rcases Nat.lt_trichotomy slot shared.responses.length with inside | rfl | outside
  · rw [List.getElem?_append_left inside]
  · simp
  · rw [List.getElem?_eq_none (by simp; omega), List.getElem?_eq_none outside.le]

/-- What happens elsewhere does not matter to what the threads share. -/
theorem Agrees.silent (agrees : shared.Agrees history) {after : SharedState σ ρ}
    {events : History σ ρ} (queue : after.queue = shared.queue)
    (offered : after.offered = shared.offered) (stopped : after.stopped = shared.stopped)
    (responses : after.responses = shared.responses) (noAccepts : accepts events = [])
    (noStarts : starts events = []) (unanswered : ∀ slot, firstResponse? events slot = none)
    (running : ¬IsStopped events) : after.Agrees (history ++ events) where
  numbered := by simpa [noAccepts] using agrees.numbered
  offered := by simpa [noAccepts, offered] using agrees.offered
  running := by simpa [noAccepts, offered, stopped] using agrees.running
  stopped := by simpa [running, stopped] using agrees.stopped
  queued := by simpa [noAccepts, noStarts, queue] using agrees.queued
  slots := by simpa [noStarts, responses] using agrees.slots
  responses := by simpa [unanswered, response?, responses] using agrees.responses

/-- A response is noted where it is put. -/
theorem Agrees.fill (agrees : shared.Agrees history) {slot : ReplySlot}
    {response : Except Bytes ρ} (inside : slot < shared.responses.length) {log : List LogEntry}
    {events : History σ ρ} (noAccepts : accepts events = []) (noStarts : starts events = [])
    (answered : ∀ other, firstResponse? events other =
      if slot = other then some response else none) (running : ¬IsStopped events) :
    { shared.fill slot response with log }.Agrees (history ++ events) where
  numbered := by simpa [noAccepts] using agrees.numbered
  offered := by simpa [noAccepts, SharedState.fill] using agrees.offered
  running := by simpa [noAccepts, SharedState.fill] using agrees.running
  stopped := by simpa [running, SharedState.fill] using agrees.stopped
  queued := by simpa [noAccepts, noStarts, SharedState.fill] using agrees.queued
  slots := by simpa [noStarts, SharedState.fill] using agrees.slots
  responses := by
    intro other
    rw [firstResponse?_append, answered, ← agrees.responses]
    exact shared.response?_fill inside response other

/-- A step keeps the history in agreement with what the threads share. -/
theorem Agrees.effect (agrees : shared.Agrees history) (effect : Effect shared thread move)
    (actor : Actor) : move.shared.Agrees (history ++ made actor move.events) := by
  cases effect with
  | wentOn | left | ended | looked | returned | joined =>
    exact agrees.silent rfl rfl rfl rfl rfl rfl (fun _ => rfl) (by simp)
  | replied top inside =>
    exact agrees.fill inside rfl rfl (fun other => by simp) (by simp)
  | dropped top inside =>
    exact agrees.fill inside rfl rfl (fun other => by simp) (by simp)
  | accepted top running goesOn =>
    have number := agrees.running running
    exact {
      numbered := by simp [agrees.numbered, List.range_succ, number]
      offered := by simp [accept, number]
      running := by simp [accept, number]
      stopped := by simpa [accept] using agrees.stopped
      queued := by simp [agrees.queued, accept]
      slots := by simpa [accept] using agrees.slots
      responses := by simpa [accept, response?] using agrees.responses }
  | refused top stopped told =>
    have offered := Nat.le_succ_of_le agrees.offered
    rcases told with rfl | rfl
    all_goals exact {
      numbered := by simpa using agrees.numbered
      offered := by simpa [refuse] using offered
      running := by simp [refuse, stopped]
      stopped := by simpa [refuse] using agrees.stopped
      queued := by simpa [refuse] using agrees.queued
      slots := by simpa [refuse] using agrees.slots
      responses := by simpa [refuse, response?] using agrees.responses }
  | started queued keeps =>
    exact {
      numbered := by simpa using agrees.numbered
      offered := by simpa using agrees.offered
      running := by simpa using agrees.running
      stopped := by simpa using agrees.stopped
      queued := by simpa [queued] using agrees.queued
      slots := by simpa using agrees.slots
      responses := by
        intro slot
        rw [response?_startNext]
        simpa using agrees.responses slot }
  | stopped top goesOn =>
    exact {
      numbered := by simpa using agrees.numbered
      offered := by simpa using agrees.offered
      running := nofun
      stopped := by simp
      queued := by simpa using agrees.queued
      slots := by simpa using agrees.slots
      responses := by simpa [response?] using agrees.responses }

/-- What happens in a step is justified by what happened before. -/
theorem Agrees.lawful (agrees : shared.Agrees history) (lawful : Lawful history)
    (effect : Effect shared thread move) (number : Nat)
    (fits : thread.Fits (accepts history).length shared.stopped)
    (joined : shared.unfinished = 0 → (ends history).Perm ((accepts history).map Prod.fst)) :
    Lawful (history ++ made ⟨number, thread.handler?⟩ move.events) := by
  cases effect with
  | wentOn | left | looked => rwa [made, List.map_nil, List.append_nil]
  | ended | replied | dropped | stopped | returned => exact lawful.concat trivial
  | accepted top running goesOn =>
    apply lawful.concat
    intro stopped
    exact Bool.false_ne_true (running.symm.trans (agrees.stopped.mpr stopped))
  | @refused _ _ program _ _ _ top stopped told =>
    have isStopped := agrees.stopped.mp stopped
    have refused :
        Lawful (history ++ made ⟨number, thread.handler?⟩ [.refused shared.offered program]) :=
      lawful.concat ⟨isStopped, agrees.offered⟩
    rcases told with rfl | rfl
    · exact refused
    · have told : Lawful (history ++ made ⟨number, thread.handler?⟩
          [.refused shared.offered program] ++ made ⟨number, thread.handler?⟩
          [.returned shared.offered (.error .notAccepted)]) :=
        refused.concat trivial
      simpa [made] using told
  | @started _ _ queue _ queued keeps =>
    apply lawful.concat
    exact ⟨queue, by simp [agrees.queued, queued]⟩
  | @joined handler next below top drained =>
    apply lawful.concat
    exact ⟨agrees.stopped.mp (fits.frames ⟨handler, .joining next⟩ (by simp [top])).2,
      joined drained⟩

end SharedState

namespace SharedState

variable {shared : SharedState σ ρ} {thread : Thread σ ρ} {move : Move σ ρ}

/-- What stays on a thread is in order. -/
theorem Keeps.fits {kept : List (Frame σ ρ)} (keeps : Keeps thread kept) {accepted : Nat}
    {stopped : Bool} (fits : thread.Fits accepted stopped) :
    { thread with frames := kept ++ thread.frames.tail }.Fits accepted stopped := by
  cases keeps with
  | free worker empty => exact fits.pop
  | running top => exact fits.replace top (.running _) trivial
  | @waiting handler slot next below top =>
    have fit : Frame.Fits accepted stopped ⟨handler, .waiting slot .queue next⟩ :=
      fits.frames _ (by rw [top]; exact List.mem_cons_self)
    exact fits.replace top (.waiting slot .slot next) fit

/-- The scheduler is stopped for good. -/
theorem Effect.stays (effect : Effect shared thread move) (stopped : shared.stopped = true) :
    move.shared.stopped = true := by
  cases effect with
  | stopped => rfl
  | _ => exact stopped

/-- A step leaves its thread in order. -/
theorem Effect.fits (effect : Effect shared thread move) {accepted : Nat}
    (fits : thread.Fits accepted shared.stopped)
    (offered : shared.stopped = false → shared.offered = accepted) :
    { thread with frames := move.frames ++ thread.frames.tail }.Fits
      (accepted + (move.events.filterMap SchedulerEvent.accepted?).length)
      move.shared.stopped := by
  cases effect with
  | wentOn top | replied top | dropped top | returned top | joined top =>
    exact fits.replace top (.running _) trivial
  | left | ended => exact fits.pop
  | @looked handler slot look nextLook next below top leads =>
    have fit : Frame.Fits accepted shared.stopped ⟨handler, .waiting slot look next⟩ :=
      fits.frames _ (by rw [top]; exact List.mem_cons_self)
    exact fits.replace top (.waiting slot nextLook next) fit
  | accepted top running goesOn =>
    refine (fits.mono (Nat.le_succ accepted) id).replace top _ ?_
    rcases goesOn with ⟨next, rfl⟩ | ⟨next, rfl⟩
    · trivial
    · exact (offered running).le.trans_lt (Nat.lt_succ_self accepted)
  | refused top stopped told =>
    rcases told with rfl | rfl
    all_goals exact fits.replace top (.running _) trivial
  | started queued keeps => exact (keeps.fits fits).push _ _
  | stopped top goesOn =>
    refine (fits.mono le_rfl fun _ => rfl).replace top _ ?_
    rcases goesOn with ⟨next, rfl⟩ | ⟨rfl, next, rfl⟩
    · trivial
    · exact ⟨rfl, rfl⟩

end SharedState

end FormatServer
