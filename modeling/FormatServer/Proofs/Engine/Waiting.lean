import FormatServer.Engine.Hosted
import FormatServer.Proofs.Engine.Schedules

namespace FormatServer

variable {σ ρ : Type}

open History

/-- What a program that waits on a thread has seen when it takes a look: no response in its slot, and
after that an empty queue, so that its own request had been started. Since its look at the slot only
other threads have done anything. -/
inductive History.Seen (number : Nat) (slot : ReplySlot) : Look → History σ ρ → Prop where
  | slot {past : History σ ρ} : Seen number slot .slot past
  | queue {asked since : History σ ρ} (unanswered : firstResponse? asked slot = none)
      (others : ∀ entry ∈ since, entry.actor.thread ≠ number) :
      Seen number slot .queue (asked ++ since)
  | stop {asked between since : History σ ρ} (unanswered : firstResponse? asked slot = none)
      (drained : accepts (asked ++ between) = starts (asked ++ between))
      (started : slot < (starts (asked ++ between)).length)
      (others : ∀ entry ∈ between ++ since, entry.actor.thread ≠ number) :
      Seen number slot .stop (asked ++ between ++ since)

namespace History

variable {history more : History σ ρ} {number : Nat} {slot : ReplySlot} {look : Look}

/-- What other threads do takes nothing away from what was seen. -/
theorem Seen.append (seen : Seen number slot look history)
    (others : ∀ entry ∈ more, entry.actor.thread ≠ number) :
    Seen number slot look (history ++ more) := by
  cases seen with
  | slot => exact .slot
  | queue unanswered before =>
    rw [List.append_assoc]
    exact .queue unanswered (List.forall_mem_append.mpr ⟨before, others⟩)
  | stop unanswered drained started before =>
    rw [List.append_assoc]
    refine .stop unanswered drained started ?_
    rw [← List.append_assoc]
    exact List.forall_mem_append.mpr ⟨before, others⟩

/-- A look adds to what was seen. -/
theorem Seen.leadsOn {shared : SharedState σ ρ} {handler : Option Ticket} {nextLook : Look}
    (seen : Seen number slot look history) (agrees : shared.Agrees history)
    (known : slot < (accepts history).length)
    (leads : shared.LeadsOn handler slot look nextLook) : Seen number slot nextLook history := by
  cases leads with
  | unanswered inHandler absent =>
    have unanswered := (agrees.responses slot).symm.trans absent
    have seen : Seen number slot .queue (history ++ []) := .queue unanswered (by simp)
    rwa [List.append_nil] at seen
  | drained empty =>
    cases seen with
    | @queue asked since unanswered others =>
      have all : accepts (asked ++ since) = starts (asked ++ since) := by
        rw [agrees.queued, empty, List.append_nil]
      have seen : Seen number slot .stop (asked ++ since ++ []) :=
        .stop unanswered all (all ▸ known) (by rwa [List.append_nil])
      rwa [List.append_nil] at seen
  | running => exact .slot

end History

namespace Scheduler

variable {scheduler : Scheduler σ ρ} {number : Nat} {worker : Bool} {handler : Option Ticket}
  {slot : ReplySlot} {next : Except WaitError ρ → Action σ ρ} {below : List (Frame σ ρ)}

/-- Whether a program waits on a thread. Only the innermost one looks further than at its slot, and
only in a handler. -/
structure Waits (scheduler : Scheduler σ ρ) (number : Nat) (worker : Bool)
    (handler : Option Ticket) (slot : ReplySlot) (next : Except WaitError ρ → Action σ ρ)
    (below above : List (Frame σ ρ)) (look : Look) : Prop where
  place : scheduler.threads[number]? =
    some ⟨worker, above ++ ⟨handler, .waiting slot look next⟩ :: below⟩
  seen : Seen number slot look scheduler.history
  further : look ≠ .slot → above = [] ∧ handler.isSome

theorem Waits.of_place {above : List (Frame σ ρ)}
    (place : scheduler.threads[number]? =
      some ⟨worker, above ++ ⟨handler, .waiting slot .slot next⟩ :: below⟩) :
    scheduler.Waits number worker handler slot next below above .slot :=
  ⟨place, .slot, fun further => absurd rfl further⟩

/-- Whatever thread is next, a program that waits keeps waiting or is told a result, in a step of its
thread. -/
theorem Waits.step {above : List (Frame σ ρ)} {look : Look}
    (waits : scheduler.Waits number worker handler slot next below above look)
    (consistent : scheduler.Consistent) (other : Nat) :
    (∃ above look,
      (scheduler.follow [other]).Waits number worker handler slot next below above look) ∨
    other = number ∧ ∃ result, scheduler.Tells slot look result ∧
      (scheduler.follow [other]).threads[number]? =
        some ⟨worker, ⟨handler, .running (next result)⟩ :: below⟩ := by
  have goesTo : scheduler.follow [other] = (scheduler.step? other).getD scheduler := rfl
  rw [goesTo]
  cases steps : scheduler.step? other with
  | none => exact .inl ⟨above, look, waits⟩
  | some after =>
    obtain ⟨thread, move, found, advances, rfl⟩ := exists_of_step? steps
    by_cases same : other = number
    · subst same
      obtain rfl := Option.some.inj (waits.place.symm.trans found)
      cases above with
      | nil =>
        have looks : scheduler.look? handler slot next look = some move := advances
        rcases SharedState.look?_eq_some looks with ⟨result, tells, rfl⟩ | ⟨nextLook, leads, rfl⟩ |
          ⟨rfl, starts⟩
        · exact .inr ⟨rfl, result, tells, getElem?_after found _⟩
        · refine .inl ⟨[], nextLook, getElem?_after found _, ?_, fun further => ⟨rfl, ?_⟩⟩
          · have known : slot < (accepts scheduler.history).length :=
              (consistent.fits _ (List.mem_of_getElem? found)).frames
                ⟨handler, .waiting slot look next⟩ List.mem_cons_self
            simpa [history_after, SharedState.lookOn, made] using
              waits.seen.leadsOn consistent.agrees known leads
          · cases leads with
            | unanswered inHandler => exact inHandler
            | drained => exact (waits.further (by decide)).2
            | running => exact absurd rfl further
        · cases queued : scheduler.queue with
          | nil => simp [SharedState.startNext?, queued] at starts
          | cons first queue =>
            simp only [SharedState.startNext?, queued, Option.some.injEq] at starts
            subst starts
            exact .inl ⟨[_], .slot, .of_place (getElem?_after found _)⟩
      | cons top above =>
        obtain rfl : look = .slot := by
          by_contra notSlot
          cases (waits.further notSlot).1
        exact .inl
          ⟨move.frames ++ above, .slot, .of_place (by simpa using getElem?_after found move)⟩
    · refine .inl ⟨above, look, ?_, waits.seen.append ?_, waits.further⟩
      · rw [← waits.place]
        exact List.getElem?_set_ne same
      · simp [same]

/-- Along a schedule a program that waits keeps waiting, up to a step of its thread in which it is
told a result. -/
theorem Waits.follow {above : List (Frame σ ρ)} {look : Look}
    (waits : scheduler.Waits number worker handler slot next below above look)
    (consistent : scheduler.Consistent) (schedule : List Nat) :
    (∃ above look,
      (scheduler.follow schedule).Waits number worker handler slot next below above look) ∨
    ∃ waited rest above look result, schedule = waited ++ number :: rest ∧
      (scheduler.follow waited).Waits number worker handler slot next below above look ∧
      (scheduler.follow waited).Tells slot look result ∧
      (scheduler.follow (waited ++ [number])).threads[number]? =
        some ⟨worker, ⟨handler, .running (next result)⟩ :: below⟩ := by
  induction schedule generalizing scheduler above look with
  | nil => exact .inl ⟨above, look, waits⟩
  | cons other schedule ih =>
    rcases waits.step consistent other with ⟨above, look, still⟩ | ⟨rfl, result, tells, goesOn⟩
    · rcases ih still (consistent.follow [other]) with
        still | ⟨waited, rest, above, look, result, rfl, told⟩
      · exact .inl still
      · exact .inr ⟨other :: waited, rest, above, look, result, rfl, told⟩
    · exact .inr ⟨[], schedule, above, look, result, rfl, waits, tells, goesOn⟩

end Scheduler

end FormatServer
