import RemoBroker.AcceptLoop
import RemoBroker.Lib.Machine

/-! The signal task of `install_sigterm` beside the accept loop of `Server::run`.  The task calls
`notify_waiters` once; whether the loop ever sees it depends on where in an iteration it stands. -/

namespace RemoBroker

/-- The accept loop, and whether the signal task has notified. -/
structure Sigterm where
  loop : AcceptLoop
  issued : Bool
deriving DecidableEq

inductive SigtermAction where
  | signal
  | loop (a : AcceptAction)
deriving DecidableEq

namespace Sigterm

/-- `install_sigterm` has returned and the loop has not started. -/
def start : Sigterm := ⟨.new, false⟩

def step : Machine.Step Sigterm SigtermAction SigtermAction := fun x a =>
  match a with
  | .signal => if x.issued then none else some (⟨x.loop.notifyWaiters, true⟩, [.signal])
  | .loop a => (x.loop.step a).map fun l => ({ x with loop := l }, [.loop a])

end Sigterm

def afterSignal : List SigtermAction → List SigtermAction
  | [] => []
  | .signal :: rest => rest
  | .loop _ :: rest => afterSignal rest

/-- Once the signal is issued the loop does not wait without a pending notification and accepts
nothing more, and in at most three steps, each of which it can take, it is in its shutdown
branch. -/
structure SignalDelivered (tr : List SigtermAction) (x : Sigterm) : Prop where
  pending : x.issued = true → x.loop.pc = .parked → x.loop.notified = true
  accepts : .loop .acceptOk ∉ afterSignal tr
  stops : x.issued = true → x.loop.pc = .stopped ∨
    (afterSignal tr).length < 3 ∧ ∃ a, (Sigterm.step x (.loop a)).isSome = true

/-- The signal finds a `Notified` future, and `accept()` is not ready in the pass in which it
does. -/
def timely (x : Sigterm) : SigtermAction → Bool
  | .signal => x.loop.hasNotified
  | .loop .acceptOk | .loop .acceptErr => !x.loop.notified
  | _ => true

theorem afterSignal_append {tr : List SigtermAction} (h : .signal ∈ tr) (r : List SigtermAction) :
    afterSignal (tr ++ r) = afterSignal tr ++ r := by
  induction tr with
  | nil => cases h
  | cons a tr ih =>
    cases a with
    | signal => rfl
    | loop a => exact ih (by simpa using h)

theorem afterSignal_append_of_notMem {tr : List SigtermAction} (h : .signal ∉ tr)
    (r : List SigtermAction) : afterSignal (tr ++ r) = afterSignal r := by
  induction tr with
  | nil => rfl
  | cons a tr ih =>
    cases a with
    | signal => simp at h
    | loop a => exact ih (by simpa using h)

theorem afterSignal_eq_nil {tr : List SigtermAction} (h : .signal ∉ tr) : afterSignal tr = [] := by
  simpa [afterSignal] using afterSignal_append_of_notMem h []

namespace AcceptLoop

/-- The steps from a notification to the shutdown branch. -/
def distance (l : AcceptLoop) : Nat :=
  match l.pc with
  | .polled => 3
  | .parked => 2
  | .polling => 1
  | _ => 0

theorem distance_le (l : AcceptLoop) : l.distance ≤ 3 := by
  unfold distance
  split <;> decide

/-- The loop has been notified and will see it, or has seen it. -/
def reached (l : AcceptLoop) : Bool := l.pc = .stopped || (l.hasNotified && l.notified)

theorem reached_notifyWaiters {l : AcceptLoop} (h : l.hasNotified = true) :
    l.notifyWaiters.reached = true ∧ l.notifyWaiters.distance ≤ 3 := by
  obtain ⟨pc, notified⟩ := l
  cases pc <;> simp_all [hasNotified, notifyWaiters, reached, distance]

/-- A loop that was notified and whose `accept()` is not ready comes nearer to its end. -/
theorem step_reached {l l' : AcceptLoop} {a : AcceptAction} (h : l.step a = some l')
    (hl : l.reached = true) (hok : a ≠ .acceptOk) (herr : a ≠ .acceptErr) :
    l'.reached = true ∧ l'.distance < l.distance := by
  obtain ⟨pc, notified⟩ := l
  cases pc <;> cases a <;> simp_all [step, reached, hasNotified] <;> subst h <;> simp [distance]

/-- A loop that was notified can go on without a connection. -/
theorem step_of_reached {l : AcceptLoop} (h : l.reached = true) (hpc : l.pc ≠ .stopped) :
    ∃ a, a ≠ .acceptOk ∧ a ≠ .acceptErr ∧ (l.step a).isSome = true := by
  obtain ⟨pc, notified⟩ := l
  cases pc with
  | polling => exact ⟨.pollStop, by simp, by simp, rfl⟩
  | polled => exact ⟨.acceptPending, by simp, by simp, rfl⟩
  | parked => exact ⟨.wake, by simp, by simp, rfl⟩
  | starting | accepted | backoff => simp [reached, hasNotified] at h
  | stopped => exact absurd rfl hpc

theorem notified_of_reached {l : AcceptLoop} (h : l.reached = true) (hpc : l.pc ≠ .stopped) :
    l.notified = true := by
  simp only [reached, Bool.or_eq_true, decide_eq_true_eq, Bool.and_eq_true] at h
  exact (h.resolve_left hpc).2

theorem distance_pos {l : AcceptLoop} (h : l.reached = true) (hpc : l.pc ≠ .stopped) :
    0 < l.distance := by
  obtain ⟨pc, notified⟩ := l
  cases pc <;> simp_all [reached, hasNotified, distance]

end AcceptLoop

/-- The steps after the signal and those that are left are three together. -/
structure Delivery (tr : List SigtermAction) (x : Sigterm) : Prop where
  before : x.issued = false → x.loop.notified = false ∧ .signal ∉ tr
  after : x.issued = true → .signal ∈ tr ∧ x.loop.reached = true ∧
    .loop .acceptOk ∉ afterSignal tr ∧ (afterSignal tr).length + x.loop.distance ≤ 3

section
variable {tr : List SigtermAction} {x : Sigterm}

theorem Delivery.signal (h : Delivery tr x) (hissued : x.issued = false)
    (hhas : x.loop.hasNotified = true) :
    Delivery (tr ++ [.signal]) ⟨x.loop.notifyWaiters, true⟩ := by
  obtain ⟨-, hnot⟩ := h.before hissued
  obtain ⟨hreached, hdistance⟩ := AcceptLoop.reached_notifyWaiters hhas
  have hnone : afterSignal (tr ++ [.signal]) = [] := afterSignal_append_of_notMem hnot [.signal]
  refine ⟨by simp, fun _ => ⟨by simp, hreached, ?_, ?_⟩⟩
  · simp [hnone]
  · simpa [hnone] using hdistance

theorem Delivery.loopStep {a : AcceptAction} {l : AcceptLoop} (h : Delivery tr x)
    (htimely : timely x (.loop a) = true) (hstep : x.loop.step a = some l) :
    Delivery (tr ++ [.loop a]) { x with loop := l } := by
  constructor
  · intro hissued
    obtain ⟨hnotified, hnot⟩ := h.before hissued
    exact ⟨(AcceptLoop.step_running hstep hnotified).1, by simpa using hnot⟩
  · intro hissued
    obtain ⟨hmem, hreached, haccepts, hlength⟩ := h.after hissued
    have hpc : x.loop.pc ≠ .stopped := by
      intro hpc
      cases a <;> simp [AcceptLoop.step, hpc] at hstep
    have hnotified := AcceptLoop.notified_of_reached hreached hpc
    have hok : a ≠ .acceptOk := by
      rintro rfl
      simp [timely, hnotified] at htimely
    have herr : a ≠ .acceptErr := by
      rintro rfl
      simp [timely, hnotified] at htimely
    obtain ⟨hnext, hnearer⟩ := AcceptLoop.step_reached hstep hreached hok herr
    rw [afterSignal_append hmem]
    refine ⟨by simp [hmem], hnext, ?_, ?_⟩
    · simp [haccepts, Ne.symm hok]
    · simp only [List.length_append, List.length_singleton]
      omega

theorem Delivery.step {a : SigtermAction} {y : Sigterm} {o : List SigtermAction} (h : Delivery tr x)
    (htimely : timely x a = true) (hstep : Sigterm.step x a = some (y, o)) :
    Delivery (tr ++ o) y := by
  cases a with
  | signal =>
    simp only [Sigterm.step] at hstep
    split at hstep
    · cases hstep
    · rename_i hissued
      cases hstep
      exact h.signal (by simpa using hissued) htimely
  | loop a =>
    obtain ⟨l, hl, heq⟩ := Option.map_eq_some_iff.mp hstep
    cases heq
    exact h.loopStep htimely hl

theorem Delivery.delivered (h : Delivery tr x) : SignalDelivered tr x := by
  constructor
  · intro hissued hpc
    obtain ⟨-, hreached, -⟩ := h.after hissued
    exact AcceptLoop.notified_of_reached hreached (by simp [hpc])
  · cases hissued : x.issued with
    | false => simp [afterSignal_eq_nil (h.before hissued).2]
    | true => exact (h.after hissued).2.2.1
  · intro hissued
    obtain ⟨-, hreached, -, hlength⟩ := h.after hissued
    by_cases hpc : x.loop.pc = .stopped
    · exact .inl hpc
    · have hpos := AcceptLoop.distance_pos hreached hpc
      obtain ⟨a, -, -, ha⟩ := AcceptLoop.step_of_reached hreached hpc
      exact .inr ⟨by omega, a, by simpa [Sigterm.step] using ha⟩

/-- In every run in which the signal finds a `Notified` future and the pass that it falls into
accepts nothing, the signal is delivered. -/
theorem run_signal_delivered {as : List SigtermAction}
    (hrun : Machine.exec Sigterm.step .start as = some (x, tr))
    (htimely : Machine.Along Sigterm.step (fun x a => timely x a = true) .start as) :
    SignalDelivered tr x := by
  have h : Delivery tr x :=
    Machine.exec_induction_along (I := Delivery)
      ⟨fun _ => ⟨rfl, by simp⟩, fun hissued => by cases hissued⟩
      (fun tr x a y o h htimely hstep => h.step htimely hstep) htimely hrun
  exact h.delivered

/-- A notification that was lost is lost for good: the loop never stops. -/
theorem never_stops_of_lost {y : Sigterm} {as : List SigtermAction} (hissued : x.issued = true)
    (hlost : x.loop.notified = false) (hrunning : x.loop.running = true)
    (hrun : Machine.exec Sigterm.step x as = some (y, tr)) : y.loop.running = true := by
  have h : y.issued = true ∧ y.loop.notified = false ∧ y.loop.running = true := by
    refine Machine.exec_invariant (I := fun x : Sigterm =>
      x.issued = true ∧ x.loop.notified = false ∧ x.loop.running = true)
      ⟨hissued, hlost, hrunning⟩ ?_ hrun
    rintro x a y o ⟨hissued, hlost, -⟩ hstep
    cases a with
    | signal => simp [Sigterm.step, hissued] at hstep
    | loop a =>
      obtain ⟨l, hl, heq⟩ := Option.map_eq_some_iff.mp hstep
      cases heq
      exact ⟨hissued, AcceptLoop.step_running hl hlost⟩
  exact h.2.2

end

/-- The signal comes while the loop waits, after one connection. -/
def waitingRun : List SigtermAction :=
  [.iterate, .pollStop, .acceptOk, .finishBranch, .iterate, .pollStop, .acceptPending].map .loop ++
  .signal :: [.wake, .pollStop].map .loop

theorem run_signal_delivered_waiting :
    ∃ x tr, Machine.exec Sigterm.step .start waitingRun = some (x, tr) ∧
      x.loop.pc = .stopped ∧ SignalDelivered tr x := by
  have hpc : (Machine.exec Sigterm.step .start waitingRun).map (fun r => r.1.loop.pc) =
      some .stopped := by decide
  obtain ⟨⟨x, tr⟩, hrun, hx⟩ := Option.map_eq_some_iff.mp hpc
  exact ⟨x, tr, hrun, hx, run_signal_delivered hrun (Machine.along_checked (by decide))⟩

/-- The signal comes while the accept branch spawns the task of a connection. -/
def busyRun : List SigtermAction :=
  [.iterate, .pollStop, .acceptOk].map .loop ++
  .signal :: [.finishBranch, .iterate, .pollStop, .acceptPending].map .loop

/-- The loop waits with the signal issued and no notification pending, and it never stops. -/
theorem signal_lost_in_accept_branch :
    ∃ x tr, Machine.exec Sigterm.step .start busyRun = some (x, tr) ∧
      x.issued = true ∧ x.loop = ⟨.parked, false⟩ ∧ ¬ SignalDelivered tr x ∧
      ∀ as y tr', Machine.exec Sigterm.step x as = some (y, tr') → y.loop.running = true := by
  have hstate : (Machine.exec Sigterm.step .start busyRun).map Prod.fst =
      some ⟨⟨.parked, false⟩, true⟩ := by decide
  obtain ⟨⟨x, tr⟩, hrun, rfl⟩ := Option.map_eq_some_iff.mp hstate
  refine ⟨_, tr, hrun, rfl, rfl, fun hdelivered => ?_, ?_⟩
  · cases hdelivered.pending rfl rfl
  · intro as y tr' hmore
    exact never_stops_of_lost rfl rfl rfl hmore

end RemoBroker
