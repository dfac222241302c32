import Mathlib.Logic.Basic

/-! The `select!` loop that accepts connections: the admin loop of `Server::run` and the loop of
`run_project_socket`.  Both create a `Notified` future in each iteration, poll it before
`accept()`, and run the accept branch without one.  `notify_waiters` reaches only a `Notified` that
exists at the call and stores no permit. -/

namespace RemoBroker

inductive AcceptPc where
  /-- No `Notified` exists: the task has not started, or an iteration has ended. -/
  | starting
  /-- `select!` polls the `Notified` next. -/
  | polling
  /-- The `Notified` was pending; `select!` polls `accept()` next, in the same pass. -/
  | polled
  /-- Both were pending: the loop waits to be woken. -/
  | parked
  | accepted
  /-- The accept branch sleeps after a failed `accept()`. -/
  | backoff
  | stopped
deriving DecidableEq

/-- An accept loop, with whether its `Notified` has been notified. -/
structure AcceptLoop where
  pc : AcceptPc
  notified : Bool
deriving DecidableEq

inductive AcceptAction where
  /-- Start an iteration: create the `Notified` future. -/
  | iterate
  | pollStop
  | acceptOk
  | acceptErr
  | acceptPending
  /-- A wake-up starts another pass of the same `select!`. -/
  | wake
  | finishBranch
deriving DecidableEq

namespace AcceptLoop

def new : AcceptLoop := ⟨.starting, false⟩

def hasNotified (l : AcceptLoop) : Bool :=
  l.pc = .polling || l.pc = .polled || l.pc = .parked

/-- The effect of `notify_waiters` on the loop. -/
def notifyWaiters (l : AcceptLoop) : AcceptLoop :=
  if l.hasNotified then { l with notified := true } else l

def step (l : AcceptLoop) : AcceptAction → Option AcceptLoop
  | .iterate => if l.pc = .starting then some ⟨.polling, false⟩ else none
  | .pollStop =>
    if l.pc = .polling then some { l with pc := if l.notified then .stopped else .polled } else none
  | .acceptOk => if l.pc = .polled then some ⟨.accepted, false⟩ else none
  | .acceptErr => if l.pc = .polled then some ⟨.backoff, false⟩ else none
  | .acceptPending => if l.pc = .polled then some { l with pc := .parked } else none
  | .wake => if l.pc = .parked then some { l with pc := .polling } else none
  | .finishBranch =>
    if l.pc = .accepted ∨ l.pc = .backoff then some ⟨.starting, false⟩ else none

def running (l : AcceptLoop) : Bool := l.pc != .stopped

/-- Without a notification a loop goes on running. -/
theorem step_running {l l' : AcceptLoop} {a : AcceptAction} (h : l.step a = some l')
    (hn : l.notified = false) :
    l'.notified = false ∧ l'.running = true := by
  cases a <;> simp only [step, Option.ite_none_right_eq_some, Option.some.injEq] at h <;>
    obtain ⟨hpc, rfl⟩ := h <;> simp_all [running]

end AcceptLoop

end RemoBroker
