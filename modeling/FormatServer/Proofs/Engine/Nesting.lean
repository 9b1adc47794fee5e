import FormatServer.Proofs.Engine.Schedules

/-!
A call from outside and the same call from inside a handler, on a scheduler with one worker.

Outside, the caller stands still and the worker runs the handlers of the queue one after another.
Inside, the caller runs them above itself. The two are the same run of a worker, watched from two
sides: as long as the call waits, what runs above the caller is what the free worker would run.
-/

namespace FormatServer

variable {σ ρ : Type}

open History

/-- The result with which the request of a slot comes back. -/
@[simp] def SchedulerEvent.result? (slot : ReplySlot) :
    SchedulerEvent σ ρ → Option (Except WaitError ρ)
  | returned other result => if other = slot then some result else none
  | _ => none

/-- The result with which the request of a slot came back first. -/
def History.result? (history : History σ ρ) (slot : ReplySlot) : Option (Except WaitError ρ) :=
  history.findSome? (·.event.result? slot)

@[simp] theorem History.result?_nil (slot : ReplySlot) : result? ([] : History σ ρ) slot = none :=
  rfl

@[simp] theorem History.result?_append (first second : History σ ρ) (slot : ReplySlot) :
    result? (first ++ second) slot = (result? first slot).or (result? second slot) :=
  List.findSome?_append

@[simp] theorem History.result?_made (actor : Actor) (events : List (SchedulerEvent σ ρ))
    (slot : ReplySlot) : result? (made actor events) slot = events.findSome? (·.result? slot) := by
  simp [result?, made, List.findSome?_map, Function.comp_def]

/-- Whether a frame can stand above a call that waits for a slot: a handler that was started after
the call, whose own requests have later slots. -/
def Frame.IsAbove (slot : ReplySlot) (frame : Frame σ ρ) : Prop :=
  frame.handler.isSome ∧
    match frame.activity with
    | .running _ => True
    | .waiting other _ _ => slot < other
    | .joining _ => False

/-- The same without the count of unfinished handlers, at which only programs outside look. -/
def SharedState.uncounted (shared : SharedState σ ρ) : SharedState σ ρ :=
  { shared with unfinished := 0 }

/-- The same without the count. -/
def Move.uncounted (move : Move σ ρ) : Move σ ρ :=
  { move with shared := move.shared.uncounted }

namespace SharedState

variable {shared : SharedState σ ρ} {thread : Thread σ ρ} {move : Move σ ρ}
  {slot : ReplySlot} {frames : List (Frame σ ρ)}

theorem respond_uncounted (shared : SharedState σ ρ) (slot : ReplySlot)
    (response : Except Bytes ρ) :
    shared.uncounted.respond slot response = (shared.respond slot response).uncounted := by
  have same : shared.uncounted.response? slot = shared.response? slot := rfl
  unfold respond
  rw [same]
  cases shared.response? slot <;> cases response <;> rfl

theorem startNext?_uncounted (shared : SharedState σ ρ) (below : List (Frame σ ρ)) :
    shared.uncounted.startNext? below = (shared.startNext? below).map Move.uncounted := by
  have same : shared.uncounted.queue = shared.queue := rfl
  unfold startNext?
  rw [same]
  cases shared.queue <;> rfl

/-- What a program does next does not depend on the count. -/
theorem perform_uncounted (shared : SharedState σ ρ) (handler : Option Ticket)
    (action : Action σ ρ) :
    (shared.uncounted.perform handler action).uncounted =
      (shared.perform handler action).uncounted := by
  have same : shared.uncounted.stopped = shared.stopped := rfl
  cases action with
  | done => cases handler <;> rfl
  | read | write | drop | isStopped | inHandler => rfl
  | reply slot response next =>
    simp only [perform, respond_uncounted]
    rfl
  | runNext next =>
    simp only [perform, startNext?_uncounted]
    cases shared.startNext? _ <;> rfl
  | enqueue program next refused =>
    simp only [perform, same]
    split <;> rfl
  | stop next =>
    simp only [perform, same]
    split <;> rfl
  | await request next =>
    simp only [perform, same]
    split <;> rfl

theorem look?_uncounted (shared : SharedState σ ρ) (handler : Option Ticket) (slot : ReplySlot)
    (next : Except WaitError ρ → Action σ ρ) (look : Look) :
    (shared.uncounted.look? handler slot next look).map Move.uncounted =
      (shared.look? handler slot next look).map Move.uncounted := by
  have sameResponse : shared.uncounted.response? slot = shared.response? slot := rfl
  have sameStop : shared.uncounted.stopped = shared.stopped := rfl
  cases look with
  | slot =>
    simp only [look?, sameResponse]
    cases shared.response? slot with
    | some response => rfl
    | none => cases handler <;> rfl
  | queue =>
    simp only [look?, startNext?_uncounted]
    cases shared.startNext? _ <;> rfl
  | stop =>
    simp only [look?, sameStop]
    cases shared.stopped <;> rfl

/-- The next step of a worker does not depend on the count. -/
theorem advance?_uncounted (above : ∀ frame ∈ frames, frame.IsAbove slot) :
    (shared.uncounted.advance? ⟨true, frames⟩).map Move.uncounted =
      (shared.advance? ⟨true, frames⟩).map Move.uncounted := by
  cases frames with
  | nil =>
    simp only [advance?, startNext?_uncounted, if_true, Option.map_map]
    rfl
  | cons top below =>
    obtain ⟨handler, activity⟩ := top
    cases activity with
    | running action => exact congrArg some (shared.perform_uncounted handler action)
    | waiting other look next => exact shared.look?_uncounted handler other next look
    | joining next => exact (above _ List.mem_cons_self).2.elim

theorem startNext?_eq_map (shared : SharedState σ ρ) (below : List (Frame σ ρ)) :
    shared.startNext? below =
      (shared.startNext? []).map fun move => { move with frames := move.frames ++ below } := by
  unfold startNext?
  cases shared.queue <;> rfl

/-- A program that runs does not see what is below it. -/
theorem advance?_append (shared : SharedState σ ρ) (worker : Bool) (top : Frame σ ρ)
    (above below : List (Frame σ ρ)) :
    shared.advance? ⟨worker, top :: (above ++ below)⟩ =
      shared.advance? ⟨worker, top :: above⟩ := by
  obtain ⟨handler, activity⟩ := top
  cases activity <;> rfl

/-- The first response in a slot stays. -/
theorem Effect.response?_eq_some (effect : Effect shared thread move) {response : Except Bytes ρ}
    (present : shared.response? slot = some response) :
    move.shared.response? slot = some response := by
  cases effect with
  | replied top inside | dropped top inside =>
    exact (response?_fill shared inside _ slot).trans (by rw [present, Option.some_or])
  | started queued keeps => rwa [response?_startNext]
  | _ => exact present

/-- No number is given back. -/
theorem Effect.offered_le (effect : Effect shared thread move) :
    shared.offered ≤ move.shared.offered := by
  cases effect with
  | accepted | refused => exact Nat.le_succ _
  | _ => exact le_rfl

theorem Keeps.frames_above {kept : List (Frame σ ρ)} (keeps : Keeps ⟨true, frames⟩ kept)
    (above : ∀ frame ∈ frames, frame.IsAbove slot) :
    ∀ frame ∈ kept ++ frames.tail, frame.IsAbove slot := by
  cases keeps with
  | free worker empty =>
    obtain rfl : frames = [] := empty
    exact above
  | @running handler action next below top =>
    obtain rfl : frames = _ := top
    obtain ⟨first, rest⟩ := List.forall_mem_cons.mp above
    exact List.forall_mem_cons.mpr ⟨⟨first.1, trivial⟩, rest⟩
  | waiting top =>
    obtain rfl : frames = _ := top
    obtain ⟨first, rest⟩ := List.forall_mem_cons.mp above
    exact List.forall_mem_cons.mpr ⟨first, rest⟩

/-- What a worker runs above a call stays above it. -/
theorem Effect.frames_above (effect : Effect shared ⟨true, frames⟩ move)
    (above : ∀ frame ∈ frames, frame.IsAbove slot) (fresh : slot < shared.offered) :
    ∀ frame ∈ move.frames ++ frames.tail, frame.IsAbove slot := by
  have tail : ∀ frame ∈ frames.tail, frame.IsAbove slot :=
    fun frame mem => above frame (List.mem_of_mem_tail mem)
  have first {frame : Frame σ ρ} {below : List (Frame σ ρ)} (top : frames = frame :: below) :
      frame.IsAbove slot :=
    above frame (by simp [top])
  cases effect with
  | wentOn top | replied top | dropped top | refused top | returned top =>
    exact List.forall_mem_cons.mpr ⟨⟨(first top).1, trivial⟩, tail⟩
  | left | ended => exact tail
  | looked top leads => exact List.forall_mem_cons.mpr ⟨⟨(first top).1, (first top).2⟩, tail⟩
  | accepted top running goesOn =>
    refine List.forall_mem_cons.mpr ⟨⟨(first top).1, ?_⟩, tail⟩
    rcases goesOn with ⟨next, rfl⟩ | ⟨next, rfl⟩
    · trivial
    · exact fresh
  | started queued keeps =>
    exact List.forall_mem_cons.mpr ⟨⟨rfl, trivial⟩, keeps.frames_above above⟩
  | stopped top goesOn =>
    refine List.forall_mem_cons.mpr ⟨⟨(first top).1, ?_⟩, tail⟩
    rcases goesOn with ⟨next, rfl⟩ | ⟨rfl, -⟩
    · trivial
    · exact absurd (first top).1 Bool.false_ne_true
  | joined top => exact (first top).2.elim

/-- No request of a handler above a call comes back in the slot of the call. -/
theorem Effect.result?_eq_none (effect : Effect shared ⟨true, frames⟩ move)
    (above : ∀ frame ∈ frames, frame.IsAbove slot) (fresh : slot < shared.offered) :
    move.events.findSome? (·.result? slot) = none := by
  cases effect with
  | refused top stopped told =>
    rcases told with rfl | rfl <;> simp [fresh.ne']
  | @returned handler other look next below result top tells =>
    obtain rfl : frames = ⟨handler, .waiting other look next⟩ :: below := top
    have later : slot < other := (above _ List.mem_cons_self).2
    simp [later.ne']
  | _ => simp

/-- One step of a worker that has the scheduler to itself, without the count. -/
def drive? (state : SharedState σ ρ × List (Frame σ ρ)) :
    Option (SharedState σ ρ × List (Frame σ ρ)) :=
  ((state.1.advance? ⟨true, state.2⟩).map Move.uncounted).map fun move =>
    (move.shared, move.frames ++ state.2.tail)

/-- Whether a worker that has the scheduler to itself comes from one state to another. -/
def Drives : SharedState σ ρ × List (Frame σ ρ) → SharedState σ ρ × List (Frame σ ρ) → Prop :=
  Relation.ReflTransGen fun before after => drive? before = some after

/-- Where the worker can be, while a call waits that was made where `start` was shared. -/
structure Reaches (start : SharedState σ ρ) (slot : ReplySlot) (shared : SharedState σ ρ)
    (frames : List (Frame σ ρ)) : Prop where
  drives : Drives (start.uncounted, []) (shared.uncounted, frames)
  above : ∀ frame ∈ frames, frame.IsAbove slot
  fresh : slot < shared.offered

/-- What a call that waits can be told where the worker is. -/
inductive Told (shared : SharedState σ ρ) (slot : ReplySlot) :
    List (Frame σ ρ) → Except WaitError ρ → Prop where
  | answered {frames : List (Frame σ ρ)} {response : Except Bytes ρ}
      (present : shared.response? slot = some response) : Told shared slot frames (outcome response)
  | gaveUp (absent : shared.response? slot = none) (drained : shared.queue = []) :
      Told shared slot [] (.error .stoppedWhileWaiting)

variable {start : SharedState σ ρ} {result : Except WaitError ρ}

theorem Reaches.step (reaches : Reaches start slot shared frames)
    (advances : shared.advance? ⟨true, frames⟩ = some move) :
    Reaches start slot move.shared (move.frames ++ frames.tail) where
  drives := reaches.drives.tail (by rw [drive?, advance?_uncounted reaches.above, advances]; rfl)
  above := (effect_of_advance? advances).frames_above reaches.above reaches.fresh
  fresh := reaches.fresh.trans_le (effect_of_advance? advances).offered_le

theorem Told.uncounted (told : Told shared slot frames result) :
    Told shared.uncounted slot frames result := by
  cases told with
  | answered present => exact .answered present
  | gaveUp absent drained => exact .gaveUp absent drained

/-- What can be told at one place is no longer open. -/
theorem Told.unique {other : Except WaitError ρ} (told : Told shared slot frames result)
    (toldOther : Told shared slot frames other) : result = other := by
  cases told with
  | answered present =>
    cases toldOther with
    | answered presentOther => rw [Option.some.inj (present.symm.trans presentOther)]
    | gaveUp absent => simp [absent] at present
  | gaveUp absent drained =>
    cases toldOther with
    | answered present => simp [absent] at present
    | gaveUp => rfl

/-- What can be told stays so wherever the worker goes. -/
theorem Told.of_drives {before after : SharedState σ ρ × List (Frame σ ρ)}
    (drives : Drives before after) (told : Told before.1 slot before.2 result) :
    Told after.1 slot after.2 result := by
  induction drives with
  | refl => exact told
  | @tail middle last earlier step ih =>
    obtain ⟨shared, frames⟩ := middle
    obtain ⟨move, moves, rfl⟩ := Option.map_eq_some_iff.mp step
    obtain ⟨move, advances, rfl⟩ := Option.map_eq_some_iff.mp moves
    cases ih with
    | answered present => exact .answered ((effect_of_advance? advances).response?_eq_some present)
    | gaveUp absent drained =>
      have empty : shared.queue = [] := drained
      simp [advance?, startNext?, empty] at advances

/-- Wherever a call can be told something, it is told the same. -/
theorem Reaches.told_unique {other : SharedState σ ρ} {otherFrames : List (Frame σ ρ)}
    {otherResult : Except WaitError ρ} (reaches : Reaches start slot shared frames)
    (told : Told shared slot frames result) (reachesOther : Reaches start slot other otherFrames)
    (toldOther : Told other slot otherFrames otherResult) : result = otherResult := by
  have deterministic : Relator.RightUnique
      fun before after : SharedState σ ρ × List (Frame σ ρ) => drive? before = some after :=
    fun before first second isFirst isSecond => Option.some.inj (isFirst.symm.trans isSecond)
  rcases Relation.ReflTransGen.total_of_right_unique deterministic reaches.drives
    reachesOther.drives with onward | back
  · exact (Told.of_drives onward told.uncounted).unique toldOther.uncounted
  · exact told.uncounted.unique (Told.of_drives back toldOther.uncounted)

end SharedState

namespace Scheduler

open SharedState

/-- How the threads stand while a call waits, where the worker runs some frames. -/
abbrev Place (σ ρ : Type) := SharedState σ ρ → List (Frame σ ρ) → List (Thread σ ρ) → Prop

/-- Where a call that waits stands, as one watches it: the worker has come so far, or the call has
come back with what it could be told there. -/
inductive Watches (start : SharedState σ ρ) (slot : ReplySlot) (place : Place σ ρ)
    (scheduler : Scheduler σ ρ) : Prop where
  | waiting {frames : List (Frame σ ρ)}
      (reaches : Reaches start slot scheduler.toSharedState frames)
      (threads : place scheduler.toSharedState frames scheduler.threads)
      (pending : result? scheduler.history slot = none)
  | told {shared : SharedState σ ρ} {frames : List (Frame σ ρ)} {result : Except WaitError ρ}
      (reaches : Reaches start slot shared frames) (told : Told shared slot frames result)
      (back : result? scheduler.history slot = some result)

variable {scheduler after : Scheduler σ ρ} {start : SharedState σ ρ} {slot : ReplySlot}
  {place : Place σ ρ} {frames : List (Frame σ ρ)} {move : Move σ ρ}
  {thread : Thread σ ρ} {number : Nat} {next : Except WaitError ρ → Action σ ρ}

/-- The worker makes a step, above the call or on its own thread. -/
theorem Watches.drive (reaches : Reaches start slot scheduler.toSharedState frames)
    (pending : result? scheduler.history slot = none)
    (advances : scheduler.advance? ⟨true, frames⟩ = some move) {actor : Actor}
    (shared : after.toSharedState = move.shared)
    (history : after.history = scheduler.history ++ made actor move.events)
    (threads : place after.toSharedState (move.frames ++ frames.tail) after.threads) :
    Watches start slot place after := by
  refine .waiting (shared ▸ reaches.step advances) threads ?_
  have silent := (effect_of_advance? advances).result?_eq_none reaches.above reaches.fresh
  rw [history, result?_append, pending, result?_made, silent, Option.none_or]

/-- The call comes back. -/
theorem Watches.comeBack (reaches : Reaches start slot scheduler.toSharedState frames)
    (pending : result? scheduler.history slot = none) {result : Except WaitError ρ}
    (told : Told scheduler.toSharedState slot frames result) (handler : Option Ticket) :
    Watches start slot place
      (scheduler.after number thread (scheduler.comeBack handler slot next result)) :=
  .told reaches told (by simp [history_after, pending, SharedState.comeBack, goOn])

/-- A call that has come back does not come back otherwise. -/
theorem Watches.told_step {result : Except WaitError ρ} {shared : SharedState σ ρ}
    (reaches : Reaches start slot shared frames) (told : Told shared slot frames result)
    (back : result? scheduler.history slot = some result)
    (steps : scheduler.step? number = some after) : Watches start slot place after := by
  obtain ⟨thread, move, -, -, rfl⟩ := exists_of_step? steps
  exact .told reaches told (by rw [history_after, result?_append, back, Option.some_or])

/-- The threads while a call from outside waits and the worker runs some frames. -/
def besideCaller (slot : ReplySlot) (next : Except WaitError ρ → Action σ ρ) : Place σ ρ :=
  fun _ frames threads => threads = [⟨false, [⟨none, .waiting slot .slot next⟩]⟩, ⟨true, frames⟩]

/-- The threads while a call in a handler waits and the worker runs some frames above it. Nobody else
moves, so what the call has seen in its last looks is still so. -/
def aboveCaller (slot : ReplySlot) (caller : Ticket) (next : Except WaitError ρ → Action σ ρ)
    (below : List (Frame σ ρ)) : Place σ ρ := fun shared frames threads =>
  ∃ look, threads =
      [⟨false, []⟩, ⟨true, frames ++ ⟨some caller, .waiting slot look next⟩ :: below⟩] ∧
    (look ≠ .slot → frames = [] ∧ shared.response? slot = none) ∧
    (look = .stop → shared.queue = [])

theorem aboveCaller_of_slot {caller : Ticket} {below : List (Frame σ ρ)}
    {shared : SharedState σ ρ} {threads : List (Thread σ ρ)}
    (stand : threads =
      [⟨false, []⟩, ⟨true, frames ++ ⟨some caller, .waiting slot .slot next⟩ :: below⟩]) :
    aboveCaller slot caller next below shared frames threads :=
  ⟨.slot, stand, fun other => absurd rfl other, fun atStop => absurd atStop (by decide)⟩

theorem Watches.step_outside (watches : Watches start slot (besideCaller slot next) scheduler)
    (steps : scheduler.step? number = some after) :
    Watches start slot (besideCaller slot next) after := by
  cases watches with
  | told reaches told back => exact .told_step reaches told back steps
  | @waiting frames reaches threads pending =>
    obtain ⟨thread, move, found, advances, rfl⟩ := exists_of_step? steps
    have stand : scheduler.threads = _ := threads
    rw [stand] at found
    match number with
    | 0 =>
      cases found
      have looks : scheduler.look? none slot next .slot = some move := advances
      rcases look?_eq_some looks with ⟨result, tells, rfl⟩ | ⟨nextLook, leads, -⟩ | ⟨queue, -⟩
      · cases tells with
        | answered present => exact .comeBack reaches pending (.answered present) none
      · cases leads with
        | unanswered inHandler => cases inHandler
      · cases queue
    | 1 =>
      cases found
      exact .drive reaches pending advances rfl rfl
        (by simp [Scheduler.after, stand, besideCaller])
    | number + 2 => cases found

theorem Watches.step_inside {caller : Ticket} {below : List (Frame σ ρ)}
    (watches : Watches start slot (aboveCaller slot caller next below) scheduler)
    (steps : scheduler.step? number = some after) :
    Watches start slot (aboveCaller slot caller next below) after := by
  cases watches with
  | told reaches told back => exact .told_step reaches told back steps
  | @waiting frames reaches threads pending =>
    obtain ⟨look, stand, seen, drained⟩ := threads
    obtain ⟨thread, move, found, advances, rfl⟩ := exists_of_step? steps
    rw [stand] at found
    match number with
    | 0 =>
      cases found
      cases advances
    | 1 =>
      cases found
      cases frames with
      | nil =>
        rcases look?_eq_some advances with ⟨result, tells, rfl⟩ | ⟨nextLook, leads, rfl⟩ |
          ⟨rfl, starts⟩
        · cases tells with
          | answered present => exact .comeBack reaches pending (.answered present) (some caller)
          | gaveUp stopped =>
            have unanswered := (seen (by decide)).2
            exact .comeBack reaches pending (.gaveUp unanswered (drained rfl)) (some caller)
        · refine .waiting reaches ⟨nextLook, by simp [Scheduler.after, stand, lookOn], ?_⟩
            (by simpa [history_after, lookOn, made] using pending)
          cases leads with
          | unanswered inHandler absent =>
            exact ⟨fun _ => ⟨rfl, absent⟩, fun atStop => absurd atStop (by decide)⟩
          | drained empty => exact ⟨fun _ => seen (by decide), fun _ => empty⟩
          | running running =>
            exact ⟨fun other => absurd rfl other, fun atStop => absurd atStop (by decide)⟩
        · rw [startNext?_eq_map] at starts
          obtain ⟨move, started, rfl⟩ := Option.map_eq_some_iff.mp starts
          exact .drive reaches pending started rfl rfl
            (aboveCaller_of_slot (by simp [Scheduler.after, stand]))
      | cons top above =>
        have atSlot : look = .slot := by
          by_contra other
          cases (seen other).1
        subst atSlot
        rw [List.cons_append, advance?_append] at advances
        exact .drive reaches pending advances rfl rfl
          (aboveCaller_of_slot (by simp [Scheduler.after, stand]))
    | number + 2 => cases found

/-- A call that comes back was made after the stop, or is told what the worker came to. -/
theorem exists_told (called : Scheduler σ ρ) (place : Place σ ρ) (number : Nat)
    {worker : Bool} {handler : Option Ticket} {request : ReplySlot → Action σ ρ}
    {below : List (Frame σ ρ)}
    (found : called.threads[number]? =
      some ⟨worker, ⟨handler, .running (.await request next)⟩ :: below⟩)
    (placed : ∀ shared, place shared [] (called.threads.set number
      ⟨worker, ⟨handler, .waiting called.offered .slot next⟩ :: below⟩))
    (pending : called.history = [])
    (keeps : ∀ before number after, before.step? number = some after →
      Watches (called.accept (request called.offered)) called.offered place before →
      Watches (called.accept (request called.offered)) called.offered place after)
    (schedule : List Nat) {result : Except WaitError ρ}
    (returns : result? (called.follow (number :: schedule)).history called.offered = some result) :
    called.stopped = true ∧ result = .error .notAccepted ∨
    called.stopped = false ∧ ∃ shared frames,
      Reaches (called.accept (request called.offered)) called.offered shared frames ∧
      Told shared called.offered frames result := by
  cases stopped : called.stopped with
  | true =>
    obtain ⟨after, steps, back⟩ : ∃ after, called.step? number = some after ∧
        result? after.history called.offered = some (.error .notAccepted) :=
      ⟨_, step?_await_of_stopped found stopped, by simp [pending]⟩
    obtain ⟨rest, grown⟩ := history_follow_grows after schedule
    rw [follow_cons, steps, Option.getD_some, ← grown, result?_append, back,
      Option.some_or] at returns
    exact .inl ⟨rfl, (Option.some.inj returns).symm⟩
  | false =>
    obtain ⟨after, steps, watches⟩ : ∃ after, called.step? number = some after ∧
        Watches (called.accept (request called.offered)) called.offered place after :=
      ⟨_, step?_await found stopped,
        .waiting ⟨.refl, by simp, Nat.lt_succ_self _⟩ (placed _) (by simp [pending])⟩
    rw [follow_cons, steps, Option.getD_some] at returns
    cases follow_induction watches keeps schedule with
    | waiting _ _ waits => cases waits.symm.trans returns
    | told reaches told back =>
      cases back.symm.trans returns
      exact .inr ⟨rfl, _, _, reaches, told⟩

/-- A scheduler with one worker, which is free, while a request is about to be made outside. -/
def calledOutside (shared : SharedState σ ρ) (request : ReplySlot → Action σ ρ)
    (next : Except WaitError ρ → Action σ ρ) : Scheduler σ ρ :=
  { shared with threads := [⟨false, [⟨none, .running (.await request next)⟩]⟩, ⟨true, []⟩] }

/-- A scheduler with one worker, while a request is about to be made in a handler that it runs. -/
def calledInside (shared : SharedState σ ρ) (caller : Ticket) (below : List (Frame σ ρ))
    (request : ReplySlot → Action σ ρ) (next : Except WaitError ρ → Action σ ρ) : Scheduler σ ρ :=
  { shared with
    threads :=
      [⟨false, []⟩, ⟨true, ⟨some caller, .running (.await request next)⟩ :: below⟩] }

/-- On a scheduler with one worker, a request comes back with the same result from outside and from
inside a handler, whatever is queued, whenever both come back. The two schedulers may differ in how
many handlers are unfinished, as the one inside runs its caller. -/
theorem calls_from_outside_and_inside_agree (shared : SharedState σ ρ) (unfinished : Nat)
    (request : ReplySlot → Action σ ρ) (nextOutside nextInside : Except WaitError ρ → Action σ ρ)
    (caller : Ticket) (below : List (Frame σ ρ)) (outside inside : List Nat)
    {resultOutside resultInside : Except WaitError ρ}
    (returnsOutside : result? ((calledOutside shared request nextOutside).follow
      (0 :: outside)).history shared.offered = some resultOutside)
    (returnsInside : result? ((calledInside { shared with unfinished } caller below request
      nextInside).follow (1 :: inside)).history shared.offered = some resultInside) :
    resultOutside = resultInside := by
  have fromOutside := exists_told (calledOutside shared request nextOutside)
    (besideCaller shared.offered nextOutside) 0 rfl (fun _ => rfl) rfl
    (fun _ _ _ steps watches => watches.step_outside steps) outside returnsOutside
  have fromInside := exists_told
    (calledInside { shared with unfinished } caller below request nextInside)
    (aboveCaller shared.offered caller nextInside below) 1 rfl
    (fun _ => aboveCaller_of_slot rfl) rfl
    (fun _ _ _ steps watches => watches.step_inside steps) inside returnsInside
  have sameStop :
      (calledInside { shared with unfinished } caller below request nextInside).stopped =
        (calledOutside shared request nextOutside).stopped := rfl
  rw [sameStop] at fromInside
  rcases fromOutside with ⟨stopped, rfl⟩ | ⟨running, _, _, reaches, told⟩
  · rcases fromInside with ⟨-, rfl⟩ | ⟨running, -⟩
    · rfl
    · cases stopped.symm.trans running
  · rcases fromInside with ⟨stopped, -⟩ | ⟨-, _, _, ⟨drives, above, fresh⟩, toldInside⟩
    · cases stopped.symm.trans running
    · exact reaches.told_unique told ⟨drives, above, fresh⟩ toldInside

theorem calls_from_outside_and_inside_agree_behind_stop :
    ∃ (shared : SharedState Unit Nat) (request : ReplySlot → Action Unit Nat)
      (outside inside : List Nat) (result : Except WaitError Nat),
      shared.queue = [(1, .stop .done)] ∧
      result? ((calledOutside shared request fun _ => .done).follow (0 :: outside)).history
        shared.offered = some result ∧
      result? ((calledInside { shared with unfinished := 2 } 0 [] request fun _ => .done).follow
        (1 :: inside)).history shared.offered = some (.ok 7) ∧
      result = .ok 7 := by
  refine ⟨
    { queue := [(1, .stop .done)]
      offered := 2
      unfinished := 1
      responses := [none]
      state := () },
    fun slot => .reply slot (.ok 7) .done, [1, 1, 1, 1, 1, 0], [1, 1, 1, 1, 1, 1, 1, 1, 1], .ok 7,
    rfl, rfl, rfl, ?_⟩
  refine calls_from_outside_and_inside_agree
    { queue := [(1, .stop .done)]
      offered := 2
      unfinished := 1
      responses := [none]
      state := () }
    2 (fun slot => .reply slot (.ok 7) .done) (fun _ => .done) (fun _ => .done) 0 []
    [1, 1, 1, 1, 1, 0] [1, 1, 1, 1, 1, 1, 1, 1, 1] ?_ ?_
  · rfl
  · rfl

end Scheduler

end FormatServer
