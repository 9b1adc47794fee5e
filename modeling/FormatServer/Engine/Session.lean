import FormatServer.Log

namespace FormatServer

/-- What a computation of the server carries: the state of the engines, and the log with its oldest
entry first. -/
structure SessionState (σ : Type) where
  engine : σ
  log : List LogEntry := []

/-- A computation of the server over engines with the given states. -/
abbrev Session (σ : Type) := StateM (SessionState σ)

namespace Session

variable {σ α : Type}

/-- Writes an entry to the log. -/
def write (entry : LogEntry) : Session σ Unit :=
  modify fun state => { state with log := state.log ++ [entry] }

/-- Writes entries that came with a value and goes on with the value. -/
def logged (result : Logged α) : Session σ α := do
  modify fun state => { state with log := state.log ++ result.entries }
  return result.value

/-- Lets the engines compute. -/
def engine (compute : StateM σ α) : Session σ α := fun state =>
  let (value, engine) := compute state.engine
  (value, { state with engine })

variable {β : Type}

/-- A computation runs from the state that the one before it leaves. -/
theorem run_bind (first : Session σ α) (next : α → Session σ β) (state : SessionState σ) :
    (first >>= next).run state = (next (first.run state).1).run (first.run state).2 := rfl

@[simp] theorem run_pure (value : α) (state : SessionState σ) :
    (pure value : Session σ α).run state = (value, state) := rfl

@[simp] theorem run_write (entry : LogEntry) (state : SessionState σ) :
    (write entry).run state = ((), { state with log := state.log ++ [entry] }) := rfl

@[simp] theorem run_logged (result : Logged α) (state : SessionState σ) :
    (logged result : Session σ α).run state =
      (result.value, { state with log := state.log ++ result.entries }) := rfl

end Session

end FormatServer
