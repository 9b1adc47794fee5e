import FormatServer.Proofs.Engine.Histories

namespace FormatServer

variable {σ ρ : Type}

open History

/-- The handlers that a thread is in, the innermost first. -/
def Thread.tickets (thread : Thread σ ρ) : List Ticket :=
  thread.frames.filterMap (·.handler)

namespace SharedState

variable {shared : SharedState σ ρ} {thread : Thread σ ρ} {move : Move σ ρ}

/-- What stays on a thread is in the handlers that the thread is in. -/
theorem Keeps.tickets {kept : List (Frame σ ρ)} (keeps : Keeps thread kept) :
    (kept ++ thread.frames.tail).filterMap (·.handler) = thread.tickets := by
  unfold Thread.tickets
  cases keeps with
  | free worker empty => simp [empty]
  | running top => simp [top, List.filterMap_cons]
  | waiting top => simp [top, List.filterMap_cons]

/-- The handlers that a thread is in change as handlers are started and come to their end. -/
theorem Effect.tickets (effect : Effect shared thread move) (actor : Actor) :
    ((move.frames ++ thread.frames.tail).filterMap (·.handler) ++
        ends (made actor move.events)).Perm
      (thread.tickets ++ (starts (made actor move.events)).map Prod.fst) := by
  cases effect with
  | wentOn top | left top | replied top | dropped top | accepted top | stopped top
    | looked top | returned top | joined top =>
    simp [Thread.tickets, top, List.filterMap_cons]
  | refused top stopped told =>
    rcases told with rfl | rfl <;> simp [Thread.tickets, top, List.filterMap_cons]
  | ended top => simp [Thread.tickets, top]
  | started queued keeps =>
    simpa [keeps.tickets] using (List.perm_append_singleton _ _).symm

/-- A step keeps count of the handlers that are not at their end. -/
theorem Effect.unfinished (effect : Effect shared thread move)
    (counted : thread.tickets ≠ [] → 0 < shared.unfinished) (actor : Actor) :
    move.shared.unfinished + (ends (made actor move.events)).length =
      shared.unfinished + (accepts (made actor move.events)).length := by
  cases effect with
  | ended top =>
    have positive := counted (by simp [Thread.tickets, top])
    simp
    omega
  | refused top stopped told => rcases told with rfl | rfl <;> simp [refuse]
  | _ => simp [accept, fill, abandon]

/-- A thread that is in a handler never stands still. -/
theorem isSome_advance? {accepted : Nat} {stopped : Bool} (fits : thread.Fits accepted stopped)
    (busy : thread.tickets ≠ []) :
    (shared.advance? thread).isSome := by
  obtain ⟨worker, frames⟩ := thread
  cases frames with
  | nil => exact absurd rfl busy
  | cons top below =>
    obtain ⟨handler, activity⟩ := top
    have inHandler : handler.isSome := by
      cases below with
      | nil => simpa [Thread.tickets, Option.isSome_iff_ne_none] using busy
      | cons outer rest => exact List.rel_of_pairwise_cons fits.outermost List.mem_cons_self
    cases activity with
    | running action => rfl
    | waiting slot look next =>
      cases look with
      | slot =>
        simp only [advance?, look?]
        cases shared.response? slot with
        | some response => rfl
        | none => simp [Option.isSome_iff_ne_none.mp inHandler]
      | queue => rfl
      | stop =>
        simp only [advance?, look?]
        split <;> rfl
    | joining next =>
      have outside := (fits.frames ⟨handler, .joining next⟩ List.mem_cons_self).1
      simp [show handler = none from outside] at inHandler

end SharedState

namespace Scheduler

variable {scheduler next : Scheduler σ ρ} {number : Nat} {thread : Thread σ ρ}

/-- The handlers that are being run. -/
def running (scheduler : Scheduler σ ρ) : List Ticket :=
  scheduler.threads.flatMap Thread.tickets

/-- Whether the history of a scheduler agrees with its state and all that happened was justified.
What was started runs or has ended. -/
structure Consistent (scheduler : Scheduler σ ρ) : Prop where
  lawful : Lawful scheduler.history
  agrees : scheduler.toSharedState.Agrees scheduler.history
  accounted : ((starts scheduler.history).map Prod.fst).Perm
    (scheduler.running ++ ends scheduler.history)
  unfinished : scheduler.unfinished + (ends scheduler.history).length =
    (accepts scheduler.history).length
  fits : ∀ thread ∈ scheduler.threads,
    thread.Fits (accepts scheduler.history).length scheduler.stopped
  worker : true ∈ scheduler.threads.map Thread.worker

theorem exists_of_step? (steps : scheduler.step? number = some next) :
    ∃ thread move, scheduler.threads[number]? = some thread ∧
      scheduler.advance? thread = some move ∧ scheduler.after number thread move = next := by
  unfold step? at steps
  split at steps
  · cases steps
  · next thread found =>
    obtain ⟨move, advances, same⟩ := Option.map_eq_some_iff.mp steps
    exact ⟨thread, move, found, advances, same⟩

theorem history_after (scheduler : Scheduler σ ρ) (number : Nat) (thread : Thread σ ρ)
    (move : Move σ ρ) : (scheduler.after number thread move).history =
      scheduler.history ++ made ⟨number, thread.handler?⟩ move.events := rfl

theorem getElem?_after (found : scheduler.threads[number]? = some thread) (move : Move σ ρ) :
    (scheduler.after number thread move).threads[number]? =
      some { thread with frames := move.frames ++ thread.frames.tail } := by
  obtain ⟨inside, -⟩ := List.getElem?_eq_some_iff.mp found
  exact List.getElem?_set_self inside

/-- No thread becomes a worker or is one no longer. -/
theorem workers_after (found : scheduler.threads[number]? = some thread) (move : Move σ ρ) :
    (scheduler.after number thread move).threads.map Thread.worker =
      scheduler.threads.map Thread.worker := by
  apply List.ext_getElem?
  intro other
  rw [List.getElem?_map, List.getElem?_map]
  by_cases same : number = other
  · rw [← same, getElem?_after found, found]
    rfl
  · rw [after, List.getElem?_set_ne same]

/-- A step changes the handlers of its thread only. -/
theorem exists_running (found : scheduler.threads[number]? = some thread) (move : Move σ ρ) :
    ∃ before rest, scheduler.running = before ++ (thread.tickets ++ rest) ∧
      (scheduler.after number thread move).running =
        before ++ ((move.frames ++ thread.frames.tail).filterMap (·.handler) ++ rest) := by
  obtain ⟨inside, same⟩ := List.getElem?_eq_some_iff.mp found
  obtain ⟨before, rest, whole, -, changed⟩ :
      ∃ before rest, scheduler.threads = before ++ scheduler.threads[number] :: rest ∧
        before.length = number ∧ (scheduler.after number thread move).threads =
          before ++ { thread with frames := move.frames ++ thread.frames.tail } :: rest :=
    List.exists_of_set inside
  rw [same] at whole
  exact ⟨before.flatMap Thread.tickets, rest.flatMap Thread.tickets,
    by rw [running, whole, List.flatMap_append, List.flatMap_cons],
    by rw [running, changed, List.flatMap_append, List.flatMap_cons, Thread.tickets]⟩

namespace Consistent

theorem starts_prefix_accepts (consistent : scheduler.Consistent) :
    starts scheduler.history <+: accepts scheduler.history :=
  ⟨scheduler.queue, consistent.agrees.queued.symm⟩

/-- While a handler is being run, it is counted. -/
theorem unfinished_pos (consistent : scheduler.Consistent) (busy : scheduler.running ≠ []) :
    0 < scheduler.unfinished := by
  have accounted := consistent.accounted.length_eq
  have unfinished := consistent.unfinished
  have started := consistent.starts_prefix_accepts.length_le
  have positive := List.length_pos_iff.mpr busy
  simp only [List.length_map, List.length_append] at accounted
  omega

/-- Once nothing is being run and nothing is queued, all that was accepted has come to its end. -/
theorem ends_perm (consistent : scheduler.Consistent) (idle : scheduler.running = [])
    (drained : scheduler.queue = []) :
    (ends scheduler.history).Perm ((accepts scheduler.history).map Prod.fst) := by
  have accounted := consistent.accounted
  rw [idle, List.nil_append] at accounted
  rw [consistent.agrees.queued, drained, List.append_nil]
  exact accounted.symm

/-- Once no accepted handler is unfinished, all have come to their end. -/
theorem ends_perm_of_unfinished (consistent : scheduler.Consistent)
    (finished : scheduler.unfinished = 0) :
    (ends scheduler.history).Perm ((accepts scheduler.history).map Prod.fst) := by
  have accounted := consistent.accounted.length_eq
  have unfinished := consistent.unfinished
  have queued := congrArg List.length consistent.agrees.queued
  simp only [List.length_map, List.length_append] at accounted queued
  exact consistent.ends_perm (List.length_eq_zero_iff.mp (by omega))
    (List.length_eq_zero_iff.mp (by omega))

theorem step (consistent : scheduler.Consistent) (steps : scheduler.step? number = some next) :
    next.Consistent := by
  obtain ⟨thread, move, found, advances, rfl⟩ := exists_of_step? steps
  have effect := SharedState.effect_of_advance? advances
  have mem := List.mem_of_getElem? found
  obtain ⟨before, rest, running, changed⟩ := exists_running found move
  have tickets := effect.tickets ⟨number, thread.handler?⟩
  have fits := effect.fits (consistent.fits thread mem) consistent.agrees.running
  have accepted : (accepts scheduler.history).length +
      (move.events.filterMap SchedulerEvent.accepted?).length =
        (accepts (scheduler.after number thread move).history).length := by
    rw [history_after, accepts_append, accepts_made, List.length_append]
  rw [accepted] at fits
  exact {
    lawful := consistent.agrees.lawful consistent.lawful effect number
      (consistent.fits thread mem) consistent.ends_perm_of_unfinished
    agrees := consistent.agrees.effect effect _
    accounted := by
      have accounted := consistent.accounted
      rw [history_after, starts_append, ends_append, changed]
      rw [running] at accounted
      rw [List.perm_iff_count] at accounted tickets ⊢
      intro ticket
      have all := accounted ticket
      have here := tickets ticket
      simp only [List.map_append, List.count_append] at all here ⊢
      omega
    unfinished := by
      have counted := effect.unfinished
        (fun busy => consistent.unfinished_pos (by simp [running, busy])) ⟨number, thread.handler?⟩
      have unfinished := consistent.unfinished
      rw [history_after, ends_append, accepts_append, List.length_append, List.length_append]
      change move.shared.unfinished + _ = _
      omega
    fits := by
      intro other otherMem
      rcases List.mem_or_eq_of_mem_set otherMem with elsewhere | rfl
      · exact (consistent.fits other elsewhere).mono (by simp [history_after]) effect.stays
      · exact fits
    worker := by
      rw [workers_after found]
      exact consistent.worker }

/-- Once nobody can make a step, all that was accepted has come to its end. -/
theorem ends_perm_of_stuck (consistent : scheduler.Consistent)
    (stuck : ∀ number, scheduler.step? number = none) :
    (ends scheduler.history).Perm ((accepts scheduler.history).map Prod.fst) := by
  have still : ∀ thread ∈ scheduler.threads, scheduler.advance? thread = none := by
    intro thread mem
    obtain ⟨number, found⟩ := List.mem_iff_getElem?.mp mem
    simpa [step?, found] using stuck number
  have idle : ∀ thread ∈ scheduler.threads, thread.tickets = [] := by
    intro thread mem
    by_contra busy
    have moves : (scheduler.advance? thread).isSome :=
      SharedState.isSome_advance? (consistent.fits thread mem) busy
    simp [still thread mem] at moves
  -- A worker that is in no handler is free, and only an empty queue keeps it from starting one.
  obtain ⟨⟨_, frames⟩, mem, rfl⟩ := List.mem_map.mp consistent.worker
  have free : frames = [] := by
    apply List.eq_nil_iff_forall_not_mem.mpr
    intro frame frameMem
    obtain ⟨ticket, handler⟩ := Option.isSome_iff_exists.mp
      ((consistent.fits _ mem).handlers rfl frame frameMem)
    have inside : ticket ∈ Thread.tickets ⟨true, frames⟩ :=
      List.mem_filterMap.mpr ⟨frame, frameMem, handler⟩
    simp [idle _ mem] at inside
  have drained : scheduler.queue = [] := by
    have waits := still _ mem
    cases queued : scheduler.queue with
    | nil => rfl
    | cons => simp [SharedState.advance?, SharedState.startNext?, free, queued] at waits
  exact consistent.ends_perm (by simpa [running] using idle) drained

end Consistent

/-- A scheduler with programs that run on threads outside, one each, and with free workers, at least
one. -/
def launch (workers : Nat) (programs : List (Action σ ρ)) (state : σ) : Scheduler σ ρ :=
  { threads :=
      programs.map (fun program =>
        { worker := false, frames := [{ handler := none, activity := .running program }] }) ++
      List.replicate (max 1 workers) { worker := true }
    state }

/-- The scheduler after the steps of a schedule. A thread that cannot make a step makes none. -/
def follow (scheduler : Scheduler σ ρ) (schedule : List Nat) : Scheduler σ ρ :=
  schedule.foldl (fun scheduler number => (scheduler.step? number).getD scheduler) scheduler

theorem follow_cons (scheduler : Scheduler σ ρ) (number : Nat) (schedule : List Nat) :
    scheduler.follow (number :: schedule) =
      ((scheduler.step? number).getD scheduler).follow schedule := rfl

/-- What every step keeps is kept along a schedule. -/
theorem follow_induction {motive : Scheduler σ ρ → Prop} (start : motive scheduler)
    (step : ∀ scheduler number next, scheduler.step? number = some next → motive scheduler →
      motive next) (schedule : List Nat) : motive (scheduler.follow schedule) := by
  induction schedule generalizing scheduler with
  | nil => exact start
  | cons number schedule ih =>
    rw [follow_cons]
    cases steps : scheduler.step? number with
    | none => exact ih start
    | some next => exact ih (step scheduler number next steps start)

theorem history_follow_grows (scheduler : Scheduler σ ρ) (schedule : List Nat) :
    scheduler.history <+: (scheduler.follow schedule).history := by
  refine follow_induction (motive := fun after => scheduler.history <+: after.history)
    (List.prefix_refl _) ?_ schedule
  intro before number next steps grown
  obtain ⟨thread, move, -, -, rfl⟩ := exists_of_step? steps
  exact grown.trans (List.prefix_append _ _)

theorem consistent_launch (workers : Nat) (programs : List (Action σ ρ)) (state : σ) :
    (launch workers programs state).Consistent := by
  have idle : (launch workers programs state).running = [] := by
    simp [running, launch, Thread.tickets]
  exact {
    lawful := by simp [Lawful, launch]
    agrees := by
      constructor <;> simp [launch, accepts, starts, IsStopped, firstResponse?,
        SharedState.response?]
    accounted := by rw [idle]; exact .nil
    unfinished := rfl
    fits := by
      intro thread mem
      rcases List.mem_append.mp mem with outside | worker
      · obtain ⟨program, -, rfl⟩ := List.mem_map.mp outside
        constructor <;> simp [Frame.Fits]
      · rw [List.eq_of_mem_replicate worker]
        constructor <;> simp
    worker := by simp [launch] }

theorem Consistent.follow (consistent : scheduler.Consistent) (schedule : List Nat) :
    (scheduler.follow schedule).Consistent :=
  follow_induction consistent (fun _ _ _ steps consistent => consistent.step steps) schedule

/-- A scheduler that settles follows a schedule. -/
theorem exists_settle_eq_follow (limit : Nat) (scheduler : Scheduler σ ρ) :
    ∃ schedule, scheduler.settle limit = scheduler.follow schedule := by
  induction limit generalizing scheduler with
  | zero => exact ⟨[], rfl⟩
  | succ limit ih =>
    cases first : scheduler.stepFirst? with
    | none => exact ⟨[], by rw [settle, first]; rfl⟩
    | some next =>
      obtain ⟨number, -, steps⟩ := List.exists_of_findSome?_eq_some first
      obtain ⟨schedule, same⟩ := ih next
      exact ⟨number :: schedule, by rw [settle, first, follow_cons, steps]; exact same⟩

/-- A program that is run outside follows a schedule of a scheduler that was launched with it. -/
theorem exists_runOutside_eq_follow (limit workers : Nat) (program : Action σ ρ) (state : σ) :
    ∃ schedule, (create workers state).runOutside limit program =
      (launch workers [program] state).follow schedule :=
  exists_settle_eq_follow limit (launch workers [program] state)

/-- The step of a thread whose innermost program runs. -/
theorem step?_of_running {worker : Bool} {handler : Option Ticket} {action : Action σ ρ}
    {below : List (Frame σ ρ)}
    (found : scheduler.threads[number]? = some ⟨worker, ⟨handler, .running action⟩ :: below⟩) :
    scheduler.step? number = some (scheduler.after number
      ⟨worker, ⟨handler, .running action⟩ :: below⟩ (scheduler.perform handler action)) := by
  simp [step?, found, SharedState.advance?]

/-- A request that is made before the stop is accepted, and its program waits. -/
theorem step?_await {worker : Bool} {handler : Option Ticket} {request : ReplySlot → Action σ ρ}
    {next : Except WaitError ρ → Action σ ρ} {below : List (Frame σ ρ)}
    (found : scheduler.threads[number]? =
      some ⟨worker, ⟨handler, .running (.await request next)⟩ :: below⟩)
    (running : scheduler.stopped = false) :
    scheduler.step? number = some
      { scheduler.accept (request scheduler.offered) with
        threads := scheduler.threads.set number
          ⟨worker, ⟨handler, .waiting scheduler.offered .slot next⟩ :: below⟩
        history := scheduler.history ++
          made ⟨number, handler⟩ [.accepted scheduler.offered (request scheduler.offered)] } := by
  rw [step?_of_running found]
  simp [SharedState.perform, running, after, made, Thread.handler?]

/-- A request that is made after the stop comes back at once. -/
theorem step?_await_of_stopped {worker : Bool} {handler : Option Ticket}
    {request : ReplySlot → Action σ ρ} {next : Except WaitError ρ → Action σ ρ}
    {below : List (Frame σ ρ)}
    (found : scheduler.threads[number]? =
      some ⟨worker, ⟨handler, .running (.await request next)⟩ :: below⟩)
    (stopped : scheduler.stopped = true) :
    scheduler.step? number = some
      { scheduler.refuse with
        threads := scheduler.threads.set number
          ⟨worker, ⟨handler, .running (next (.error .notAccepted))⟩ :: below⟩
        history := scheduler.history ++
          made ⟨number, handler⟩ [.refused scheduler.offered (request scheduler.offered),
            .returned scheduler.offered (.error .notAccepted)] } := by
  rw [step?_of_running found]
  simp [SharedState.perform, stopped, SharedState.comeBack, SharedState.goOn, after, made,
    Thread.handler?]

/-- Whether the handlers that a scheduler accepts are run exactly once and in order, and no
others. -/
structure RunsInOrder (scheduler : Scheduler σ ρ) : Prop where
  /-- Every accepted handler has a number of its own. -/
  distinct : ((accepts scheduler.history).map Prod.fst).Nodup
  /-- At every time, the handlers that have been started are the first of those that have been
  accepted, in the same order. -/
  inOrder : ∀ past rest, scheduler.history = past ++ rest → starts past <+: accepts past
  /-- A handler that is handed over is accepted before the stop and refused after it, and the
  program that hands it over learns which. -/
  handsOver : ∀ number worker handler program next refused below,
    scheduler.threads[number]? =
      some ⟨worker, ⟨handler, .running (.enqueue program next refused)⟩ :: below⟩ →
    ∃ after, scheduler.step? number = some after ∧
      (¬IsStopped scheduler.history →
        after.history = scheduler.history ++
          [⟨⟨number, handler⟩, .accepted scheduler.offered program⟩] ∧
        after.threads[number]? = some ⟨worker, ⟨handler, .running next⟩ :: below⟩) ∧
      (IsStopped scheduler.history →
        after.history = scheduler.history ++
          [⟨⟨number, handler⟩, .refused scheduler.offered program⟩] ∧
        after.threads[number]? = some ⟨worker, ⟨handler, .running refused⟩ :: below⟩)
  /-- A handler that was refused is never started. -/
  refused : ∀ actor ticket program, ⟨actor, .refused ticket program⟩ ∈ scheduler.history →
    ∀ other, (ticket, other) ∉ starts scheduler.history
  /-- The first stop, made outside, does not return at once. -/
  stopsOutside : ∀ number worker next below, ¬IsStopped scheduler.history →
    scheduler.threads[number]? = some ⟨worker, ⟨none, .running (.stop next)⟩ :: below⟩ →
    ∃ after, scheduler.step? number = some after ∧ IsStopped after.history ∧
      after.threads[number]? = some ⟨worker, ⟨none, .joining next⟩ :: below⟩
  /-- When it returns, every accepted handler has come to its end. -/
  joined : ∀ number worker handler next below after,
    scheduler.threads[number]? = some ⟨worker, ⟨handler, .joining next⟩ :: below⟩ →
    scheduler.step? number = some after →
    (ends scheduler.history).Perm ((accepts scheduler.history).map Prod.fst)
  /-- Wherever the stop was made, when no step is possible any more, every accepted handler has come
  to its end. -/
  drained : IsStopped scheduler.history → (∀ number, scheduler.step? number = none) →
    (ends scheduler.history).Perm ((accepts scheduler.history).map Prod.fst)

theorem Consistent.runsInOrder (consistent : scheduler.Consistent) : scheduler.RunsInOrder where
  distinct := by
    rw [consistent.agrees.numbered]
    exact List.nodup_range
  inOrder := by
    intro past rest split
    have lawful := consistent.lawful
    rw [split] at lawful
    exact lawful.of_append.starts_prefix_accepts
  handsOver := by
    intro number worker handler program next refused below found
    refine ⟨_, step?_of_running found, fun running => ?_, fun stopped => ?_⟩
    · have accepting := consistent.agrees.stopped_eq_false running
      rw [getElem?_after found]
      simp [SharedState.perform, accepting, after, SharedState.goOn, Thread.handler?]
    · have closed := consistent.agrees.stopped.mpr stopped
      rw [getElem?_after found]
      simp [SharedState.perform, closed, after, SharedState.goOn, Thread.handler?]
  refused := by
    intro actor ticket program mem other started
    obtain ⟨past, rest, split⟩ := List.append_of_mem mem
    have lawful := consistent.lawful
    rw [split] at lawful
    obtain ⟨stopped, beyond⟩ :
        IsStopped past ∧ (accepts past).length ≤ ticket := lawful past _ rest rfl
    have same := lawful.accepts_append_of_isStopped stopped
    have numbered : ticket ∈ (accepts scheduler.history).map Prod.fst :=
      List.mem_map_of_mem (f := Prod.fst) (consistent.starts_prefix_accepts.subset started)
    rw [consistent.agrees.numbered, List.mem_range, split, same] at numbered
    omega
  stopsOutside := by
    intro number worker next below running found
    have accepting := consistent.agrees.stopped_eq_false running
    refine ⟨_, step?_of_running found, ?_, ?_⟩
    · simp [SharedState.perform, accepting, history_after]
    · rw [getElem?_after found]
      simp [SharedState.perform, accepting]
  joined := by
    intro number worker handler next below after found steps
    apply consistent.ends_perm_of_unfinished
    by_contra busy
    simp [step?, found, SharedState.advance?, busy] at steps
  drained := fun _ stuck => consistent.ends_perm_of_stuck stuck

/-- Whatever the programs do and however their steps are interleaved, every handler that is accepted
is started once, in its turn, and is at its end before a scheduler that was stopped rests. -/
theorem accepted_handlers_run_once_and_in_order (workers : Nat) (programs : List (Action σ ρ))
    (state : σ) (schedule : List Nat) :
    ((launch workers programs state).follow schedule).RunsInOrder :=
  ((consistent_launch workers programs state).follow schedule).runsInOrder

example : ends ((launch 1 [.enqueue (.enqueue .done (.stop .done) .done) .done .done] () :
    Scheduler Unit Unit).follow [0, 1, 1, 1, 1, 1, 1]).history = [0, 1] := rfl

end Scheduler

end FormatServer
