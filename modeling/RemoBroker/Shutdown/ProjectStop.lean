import RemoBroker.ServeLoop
import RemoBroker.Shutdown.Sigterm

/-! The stop of a project: `unregister` and the shutdown call `notify_waiters` on `project.stop`
once, beside the loop of `run_project_socket`.  The loop enables its `Notified` at the start of each
iteration; whether it ever sees the call depends on where in an iteration the call finds it. -/

namespace RemoBroker

namespace ServeAction

/-- A step of the loop or of its connections, not another call of `notify_waiters` or an abort by
the caller. -/
def Own : ServeAction → Prop
  | .notifyWaiters | .abort => False
  | _ => True

/-- The step of the `select!` loop that an action is. -/
def selected : ServeAction → Option AcceptAction
  | .select a => some a
  | _ => none

/-- The next step of the `select!` loop, if there is one, is `r`. -/
def Next (r : AcceptAction) (post : List ServeAction) : Prop :=
  ∀ a, (post.filterMap selected).head? = some a → a = r

end ServeAction

/-- A loop in `drain_join_set`.  It has all connections that have not ended in its set, it returns
only when they have, and then it needs nobody else for it.  Its caller waits no longer than its own
limit: the abort ends the task, whatever has ended until then. -/
structure Drains (y : ServeLoop) : Prop where
  held : y.connections.Held
  returned : y.state = .ended → ∀ num, y.connections.finished num ≠ some false
  returns : y.state = .draining → (∀ num, y.connections.finished num ≠ some false) →
    ∃ z, Machine.exec ServeLoop.step y (y.connections.retained.map .joinNext ++ [.drained]) =
      some (z, []) ∧ z.state = .ended
  limit : ∃ z, ServeLoop.step y .abort = some (z, []) ∧ z.state = .ended ∧
    z.connections.finished = y.connections.finished

/-- In `post`, the actions since the call, the loop has accepted nothing, and in at most `n` steps,
each of which it can take, it leaves `select!` for `drain_join_set`. -/
structure LeavesWithin (n : Nat) (post : List ServeAction) (y : ServeLoop) : Prop where
  accepts : .acceptOk ∉ post.filterMap ServeAction.selected
  stops : (∀ l, y.state ≠ .accepting l) ∨ (post.filterMap ServeAction.selected).length < n ∧
    ∃ a, (ServeLoop.step y (.select a)).isSome = true

namespace LeavesWithin

variable {n m : Nat} {post : List ServeAction} {y : ServeLoop}

theorem mono (h : LeavesWithin n post y) (hle : n ≤ m) : LeavesWithin m post y :=
  ⟨h.accepts, h.stops.imp_right fun ⟨hlt, hnext⟩ => ⟨hlt.trans_le hle, hnext⟩⟩

theorem select {b : AcceptAction} (h : LeavesWithin n post y) (hb : b ≠ .acceptOk) :
    LeavesWithin (n + 1) (.select b :: post) y := by
  have hcons : (ServeAction.select b :: post).filterMap ServeAction.selected =
      b :: post.filterMap ServeAction.selected := rfl
  constructor
  · rw [hcons, List.mem_cons, not_or]
    exact ⟨hb.symm, h.accepts⟩
  · rw [hcons, List.length_cons]
    exact h.stops.imp_right fun ⟨hlt, hnext⟩ => ⟨Nat.succ_lt_succ hlt, hnext⟩

theorem finish {num : Nat} (h : LeavesWithin n post y) : LeavesWithin n (.finish num :: post) y :=
  ⟨h.accepts, h.stops⟩

end LeavesWithin

/-- The loop leaves `select!` and then drains its connections. -/
structure StopsWithin (n : Nat) (post : List ServeAction) (y : ServeLoop) : Prop extends
    LeavesWithin n post y where
  drains : (∀ l, y.state ≠ .accepting l) → Drains y

namespace ServeLoop

variable {x y : ServeLoop} {l : AcceptLoop} {a : ServeAction} {o tr : List Empty}
  {pre post : List ServeAction}

theorem step_notifyWaiters (hl : x.state = .accepting l) :
    step x .notifyWaiters = some (⟨.accepting l.notifyWaiters, x.connections⟩, []) := by
  obtain ⟨state, connections⟩ := x
  cases hl
  rfl

/-- The steps of its own that a loop takes while it accepts. -/
inductive Accepts (x : ServeLoop) (l : AcceptLoop) : ServeAction → ServeLoop → Prop
  | select {b l'} (step : l.step b = some l') :
      Accepts x l (.select b) ⟨.ofAccept l', x.connections⟩
  | spawn {num l'} (pc : l.pc = .accepted) (step : l.step .finishBranch = some l') :
      Accepts x l (.spawn num) ⟨.ofAccept l', x.connections.spawn num⟩
  | finish {num} : Accepts x l (.finish num) ⟨.accepting l, x.connections.finish num⟩

theorem step_accepts (hl : x.state = .accepting l) (ha : a.Own) (h : step x a = some (y, o)) :
    Accepts x l a y := by
  obtain ⟨state, connections⟩ := x
  cases hl
  cases a with
  | notifyWaiters | abort => exact ha.elim
  | select b =>
    simp only [step] at h
    split at h
    · cases h
    · obtain ⟨l', hstep, heq⟩ := Option.map_eq_some_iff.mp h
      cases heq
      exact .select hstep
  | spawn num =>
    simp only [step] at h
    split at h
    · rename_i hspawn
      obtain ⟨l', hstep, heq⟩ := Option.map_eq_some_iff.mp h
      cases heq
      exact .spawn hspawn.1 hstep
    · cases h
  | finish num =>
    simp only [step] at h
    split at h
    · cases h
      exact .finish
    · cases h
  | joinNext | drained | abortAll => cases h

/-- A loop that has left `select!` does not come back to it. -/
theorem step_left (hleft : ∀ l, x.state ≠ .accepting l) (h : step x a = some (y, o)) :
    a.selected = none ∧ ∀ l, y.state ≠ .accepting l := by
  constructor
  · cases a with
    | select b =>
      obtain ⟨state, connections⟩ := x
      cases state with
      | accepting l => exact absurd rfl (hleft l)
      | draining | ended => cases h
    | _ => rfl
  · intro l hl
    have hx : ∃ l, x.state = .accepting l := by
      cases step_change h with
      | same _ _ stays => exact stays l hl
      | task _ _ stays => exact (stays l hl).1
    obtain ⟨l', hl'⟩ := hx
    exact hleft l' hl'

theorem exec_left (hleft : ∀ l, x.state ≠ .accepting l)
    (hrun : Machine.exec step x post = some (y, tr)) :
    post.filterMap ServeAction.selected = [] ∧ ∀ l, y.state ≠ .accepting l := by
  induction post generalizing x tr with
  | nil =>
    cases hrun
    exact ⟨rfl, hleft⟩
  | cons a post ih =>
    obtain ⟨z, o, os, hstep, hrest, -⟩ := Machine.exec_cons_iff.mp hrun
    obtain ⟨hselected, hz⟩ := step_left hleft hstep
    rw [List.filterMap_cons_none hselected]
    exact ih hz hrest

theorem leavesWithin_of_left {n : Nat} (hleft : ∀ l, x.state ≠ .accepting l)
    (hrun : Machine.exec step x post = some (y, tr)) : LeavesWithin n post y := by
  obtain ⟨hnone, hy⟩ := exec_left hleft hrun
  exact ⟨by simp [hnone], .inl hy⟩

theorem exists_select (hl : x.state = .accepting l) (hreached : l.reached = true)
    (hpc : l.pc ≠ .stopped) : ∃ a, (step x (.select a)).isSome = true := by
  obtain ⟨state, connections⟩ := x
  cases hl
  have haccepted : l.pc ≠ .accepted := by
    intro haccepted
    simp [AcceptLoop.reached, AcceptLoop.hasNotified, haccepted] at hreached
  obtain ⟨a, -, -, ha⟩ := AcceptLoop.step_of_reached hreached hpc
  exact ⟨a, by simpa [step, haccepted] using ha⟩

/-- A loop that was notified leaves `select!`, if `accept()` is pending in the pass in which the
call found it. -/
theorem leavesWithin_of_reached (hl : x.state = .accepting l) (hreached : l.reached = true)
    (hpc : l.pc ≠ .stopped) (hpolled : l.pc = .polled → ServeAction.Next .acceptPending post)
    (hown : ∀ a ∈ post, a.Own) (hrun : Machine.exec step x post = some (y, tr)) :
    LeavesWithin l.distance post y := by
  induction post generalizing x l tr with
  | nil =>
    cases hrun
    exact ⟨by simp, .inr ⟨AcceptLoop.distance_pos hreached hpc, exists_select hl hreached hpc⟩⟩
  | cons a post ih =>
    obtain ⟨z, o, os, hstep, hrest, -⟩ := Machine.exec_cons_iff.mp hrun
    obtain ⟨ha, hrestOwn⟩ := List.forall_mem_cons.mp hown
    cases step_accepts hl ha hstep with
    | @select b l' hb =>
      have hready : b ≠ .acceptPending → l.pc ≠ .polled := fun hne hpc => hne (hpolled hpc b rfl)
      have hok : b ≠ .acceptOk := by
        rintro rfl
        simp [AcceptLoop.step, hready] at hb
      have herr : b ≠ .acceptErr := by
        rintro rfl
        simp [AcceptLoop.step, hready] at hb
      obtain ⟨hreached', hnearer⟩ := AcceptLoop.step_reached hb hreached hok herr
      refine LeavesWithin.mono (LeavesWithin.select ?_ hok) hnearer
      by_cases hpc' : l'.pc = .stopped
      · refine leavesWithin_of_left (fun l => ?_) hrest
        simp [LoopState.ofAccept, AcceptLoop.running, hpc']
      · refine ih ?_ hreached' hpc' (fun hpolled' => ?_) hrestOwn hrest
        · simp [LoopState.ofAccept, AcceptLoop.running, hpc']
        · -- Only a loop that was not notified is polled again.
          have hfar : l'.distance = 3 := by simp [AcceptLoop.distance, hpolled']
          have hnear := l.distance_le
          omega
    | spawn haccepted =>
      simp [AcceptLoop.reached, AcceptLoop.hasNotified, haccepted] at hreached
    | finish => exact (ih rfl hreached hpc hpolled hrestOwn hrest).finish

/-- A call that finds a `Notified` stops the loop, under the same condition. -/
theorem leavesWithin_of_call (hl : x.state = .accepting l) (hhas : l.hasNotified = true)
    (hpolled : l.pc = .polled → ServeAction.Next .acceptPending post) (hown : ∀ a ∈ post, a.Own)
    (hrun : Machine.exec step x (.notifyWaiters :: post) = some (y, tr)) :
    LeavesWithin 3 post y := by
  obtain ⟨z, o, os, hcall, hrest, -⟩ := Machine.exec_cons_iff.mp hrun
  rw [step_notifyWaiters hl] at hcall
  cases hcall
  obtain ⟨hreached, hdistance⟩ := AcceptLoop.reached_notifyWaiters hhas
  have hsame : l.notifyWaiters.pc = l.pc := by simp [AcceptLoop.notifyWaiters, hhas]
  refine (leavesWithin_of_reached rfl hreached ?_ (hsame ▸ hpolled) hown hrest).mono hdistance
  intro hstopped
  simp [AcceptLoop.hasNotified, ← hsame, hstopped] at hhas

/-- Only an abort drops the set. -/
theorem step_held (ha : a ≠ .abort) (h : x.connections.Held) (hstep : step x a = some (y, o)) :
    y.connections.Held := by
  cases step_change hstep with
  | same _ connections _ => rwa [connections]
  | @task e event step _ =>
    refine step.held h ?_
    rintro rfl
    cases a <;> first | exact ha rfl | cases event

/-- A loop that accepts has its connections in its set. -/
theorem step_held_accepting (h : ∀ l, x.state = .accepting l → x.connections.Held)
    (hstep : step x a = some (y, o)) : ∀ l, y.state = .accepting l → y.connections.Held := by
  intro l hl
  by_cases ha : a = .abort
  · subst ha
    cases hstate : x.state <;> simp only [step, hstate] at hstep <;> cases hstep <;> cases hl
  · by_cases hx : ∃ l, x.state = .accepting l
    · obtain ⟨l', hl'⟩ := hx
      exact step_held ha (h l' hl') hstep
    · exact absurd hl ((step_left (fun l hl => hx ⟨l, hl⟩) hstep).2 l)

theorem exec_held (hrun : Machine.exec step new pre = some (x, tr)) (hl : x.state = .accepting l) :
    x.connections.Held :=
  Machine.exec_invariant (I := fun x : ServeLoop => ∀ l, x.state = .accepting l →
    x.connections.Held) (fun _ _ _ h => by cases h) (fun _ _ _ _ => step_held_accepting) hrun l hl

theorem ofAccept_ne_ended (l : AcceptLoop) : LoopState.ofAccept l ≠ .ended := by
  unfold LoopState.ofAccept
  split <;> simp

/-- A loop that was not aborted has returned with an empty set. -/
theorem step_emptied (ha : a ≠ .abort) (h : x.state = .ended → x.connections.retained = [])
    (hstep : step x a = some (y, o)) (hended : y.state = .ended) :
    y.connections.retained = [] := by
  unfold step at hstep
  split at hstep
  · cases hstep
    cases hended
  · cases hstep
    exact h hended
  · split at hstep
    · cases hstep
    · obtain ⟨l', -, heq⟩ := Option.map_eq_some_iff.mp hstep
      cases heq
      exact absurd hended (ofAccept_ne_ended l')
  · split at hstep
    · obtain ⟨l', -, heq⟩ := Option.map_eq_some_iff.mp hstep
      cases heq
      exact absurd hended (ofAccept_ne_ended l')
    · cases hstep
  · split at hstep
    · cases hstep
      exact h hended
    · cases hstep
  · rename_i hstate
    split at hstep
    · cases hstep
      cases hstate.symm.trans hended
    · cases hstep
  · split at hstep
    · rename_i hempty
      cases hstep
      exact hempty
    · cases hstep
  · cases hstep
    exact h hended
  · exact absurd rfl ha
  · cases hstep

/-- The loop joins its connections, which have all ended, and returns. -/
theorem exec_joins (hstate : x.state = .draining)
    (hdone : ∀ num, x.connections.finished num ≠ some false) :
    ∃ z, Machine.exec step x (x.connections.retained.map .joinNext ++ [.drained]) = some (z, []) ∧
      z.state = .ended := by
  obtain ⟨state, retained, finished⟩ := x
  cases hstate
  replace hdone : ∀ num, finished num ≠ some false := hdone
  induction retained with
  | nil => exact ⟨_, rfl, rfl⟩
  | cons num retained ih =>
    obtain ⟨z, hz, hended⟩ := ih
    have hjoin : step ⟨.draining, num :: retained, finished⟩ (.joinNext num) =
        some (⟨.draining, retained, finished⟩, []) := by
      simp [step, hdone, JoinSet.Tasks.join]
    exact ⟨z, Machine.exec_cons hjoin hz, hended⟩

theorem drains_of_held (hheld : x.connections.Held)
    (hemptied : x.state = .ended → x.connections.retained = []) : Drains x := by
  refine ⟨hheld, fun hended num hrunning => ?_, exec_joins, ?_⟩
  · have hmem := hheld num hrunning
    rw [hemptied hended] at hmem
    cases hmem
  · obtain ⟨state, connections⟩ := x
    cases state <;> exact ⟨_, rfl, rfl, rfl⟩

/-- A loop that is left to itself after a call drains its connections. -/
theorem exec_drains (hrun : Machine.exec step new pre = some (x, tr)) (hl : x.state = .accepting l)
    (hown : ∀ a ∈ post, a.Own) {tr' : List Empty}
    (hpost : Machine.exec step x (.notifyWaiters :: post) = some (y, tr')) : Drains y := by
  have hkept : ∀ a ∈ ServeAction.notifyWaiters :: post, a ≠ .abort := by
    rintro a ha rfl
    exact hown .abort ((List.mem_cons.mp ha).resolve_left nofun)
  have hinv : y.connections.Held ∧ (y.state = .ended → y.connections.retained = []) := by
    refine Machine.exec_invariant_along (I := fun x : ServeLoop => x.connections.Held ∧
      (x.state = .ended → x.connections.retained = [])) (G := fun _ a => a ≠ .abort)
      ⟨exec_held hrun hl, fun hended => ?_⟩ ?_ (Machine.along_of_forall hkept) hpost
    · cases hl.symm.trans hended
    · rintro x a y o ⟨hheld, hemptied⟩ ha hstep
      exact ⟨step_held ha hheld hstep, step_emptied ha hemptied hstep⟩
  exact drains_of_held hinv.1 hinv.2

/-- A loop that starts an iteration may find a connection in it. -/
theorem exec_acceptsNext {notified : Bool} (hl : x.state = .accepting ⟨.starting, notified⟩) :
    ∃ y, Machine.exec step x [.select .iterate, .select .pollStop, .select .acceptOk] =
      some (y, []) := by
  obtain ⟨state, connections⟩ := x
  cases hl
  exact ⟨_, rfl⟩

/-- Some number is free for the next connection. -/
theorem exec_fresh (hrun : Machine.exec step new pre = some (x, tr)) :
    ∃ num, x.connections.finished num = none := by
  have hfinite : {num | x.connections.finished num ≠ none}.Finite := by
    refine Machine.exec_invariant (I := fun x : ServeLoop =>
      {num | x.connections.finished num ≠ none}.Finite) ?_ ?_ hrun
    · simp [new, JoinSet.Tasks.new]
    · intro x a y o h hstep
      cases step_change hstep with
      | same _ connections _ => rwa [connections]
      | task _ step _ => exact step.finite h
  obtain ⟨num, hnum⟩ := hfinite.exists_notMem
  exact ⟨num, by simpa using hnum⟩

theorem ofAccept_running {l' : AcceptLoop} (h : LoopState.ofAccept l' = .accepting l) :
    l.running = true := by
  unfold LoopState.ofAccept at h
  split at h
  · cases h
    assumption
  · cases h

theorem Accepts.running (h : Accepts x l a y) (hrunning : l.running = true) :
    ∀ l', y.state = .accepting l' → l'.running = true := by
  intro l' hl'
  cases h with
  | select => exact ofAccept_running hl'
  | spawn => exact ofAccept_running hl'
  | finish =>
    cases hl'
    exact hrunning

theorem step_keeps_running (hx : ∀ l, x.state = .accepting l → l.running = true)
    (h : step x a = some (y, o)) : ∀ l, y.state = .accepting l → l.running = true := by
  cases hstate : x.state with
  | draining | ended =>
    have hleft := (step_left (by simp [hstate]) h).2
    exact fun l hl => absurd hl (hleft l)
  | accepting l =>
    cases a with
    | notifyWaiters =>
      rw [step_notifyWaiters hstate] at h
      cases h
      rintro l' ⟨⟩
      have hrunning := hx l hstate
      unfold AcceptLoop.notifyWaiters
      split <;> exact hrunning
    | abort =>
      obtain ⟨state, connections⟩ := x
      cases hstate
      cases h
      rintro l' ⟨⟩
    | _ => exact (step_accepts hstate (by trivial) h).running (hx l hstate)

theorem exec_running (hrun : Machine.exec step new pre = some (x, tr))
    (hl : x.state = .accepting l) : l.running = true := by
  refine Machine.exec_invariant (I := fun x : ServeLoop =>
    ∀ l, x.state = .accepting l → l.running = true) ?_ ?_ hrun l hl
  · rintro l ⟨⟩
    rfl
  · intro x a y o hx hstep
    exact step_keeps_running hx hstep

/-- A loop that was not notified accepts on, whatever it and its connections do. -/
theorem exec_unnotified (hl : x.state = .accepting l) (hnotified : l.notified = false)
    (hown : ∀ a ∈ post, a.Own) (hrun : Machine.exec step x post = some (y, tr)) :
    ∃ l, y.state = .accepting l ∧ l.notified = false := by
  refine Machine.exec_invariant_along (I := fun x : ServeLoop =>
    ∃ l, x.state = .accepting l ∧ l.notified = false) (G := fun _ a => a.Own)
    ⟨l, hl, hnotified⟩ ?_ (Machine.along_of_forall hown) hrun
  rintro x a y o ⟨l, hl, hnotified⟩ ha hstep
  cases step_accepts hl ha hstep with
  | select hb | spawn _ hb =>
    obtain ⟨hnotified', hrunning⟩ := AcceptLoop.step_running hb hnotified
    exact ⟨_, if_pos hrunning, hnotified'⟩
  | finish => exact ⟨l, rfl, hnotified⟩

/-- After the call the loop may accept a connection, where `accept()` answers with `r`. -/
def MayAccept (r : AcceptAction) (x : ServeLoop) (l : AcceptLoop) : Prop :=
  ∃ post y, Machine.exec step x (.notifyWaiters :: post) = some (y, []) ∧ (∀ a ∈ post, a.Own) ∧
    (l.pc = .polled → ServeAction.Next r post) ∧ .acceptOk ∈ post.filterMap ServeAction.selected

/-- A loop that goes on to its next iteration may accept a connection in it. -/
theorem mayAccept_of_lead {r : AcceptAction} (lead : List ServeAction)
    (hrun : Machine.exec step x (.notifyWaiters :: lead) = some (y, []))
    (hy : ∃ notified, y.state = .accepting ⟨.starting, notified⟩) (hown : ∀ a ∈ lead, a.Own)
    (hnext : l.pc = .polled → (lead.filterMap ServeAction.selected).head? = some r) :
    MayAccept r x l := by
  obtain ⟨notified, hy⟩ := hy
  obtain ⟨z, hz⟩ := exec_acceptsNext hy
  have hboth := Machine.exec_append hrun hz
  rw [List.cons_append] at hboth
  refine ⟨_, z, hboth, ?_, ?_, ?_⟩
  · intro a ha
    rcases List.mem_append.mp ha with hlead | haccepts
    · exact hown a hlead
    · simp only [List.mem_cons, List.not_mem_nil, or_false] at haccepts
      rcases haccepts with rfl | rfl | rfl <;> trivial
  · intro hpc a ha
    rw [List.filterMap_append, List.head?_append, hnext hpc] at ha
    exact (Option.some.inj ha).symm
  · simp [ServeAction.selected]

/-- A call that finds the loop without a `Notified` is lost. -/
theorem mayAccept_of_unreached {r : AcceptAction} (hl : x.state = .accepting l)
    (hrunning : l.running = true) (hnotified : l.hasNotified = false)
    (hfresh : ∃ num, x.connections.finished num = none) : MayAccept r x l := by
  obtain ⟨num, hfresh⟩ := hfresh
  obtain ⟨state, connections⟩ := x
  obtain ⟨pc, notified⟩ := l
  cases hl
  replace hfresh : connections.finished num = none := hfresh
  cases pc with
  | polling | polled | parked => cases hnotified
  | stopped => cases hrunning
  | starting => exact mayAccept_of_lead [] rfl ⟨notified, rfl⟩ (by simp) (by simp)
  | accepted =>
    have hspawn : Machine.exec step ⟨.accepting ⟨.accepted, notified⟩, connections⟩
        [.notifyWaiters, .spawn num] = some (⟨.accepting .new, connections.spawn num⟩, []) := by
      simp [Machine.exec, step, AcceptLoop.notifyWaiters, AcceptLoop.hasNotified, AcceptLoop.step,
        hfresh, LoopState.ofAccept, AcceptLoop.running, AcceptLoop.new]
    exact mayAccept_of_lead [.spawn num] hspawn ⟨false, rfl⟩ (by simp [ServeAction.Own]) (by simp)
  | backoff =>
    exact mayAccept_of_lead [.select .finishBranch] rfl ⟨false, rfl⟩ (by simp [ServeAction.Own])
      (by simp)

/-- A call after the poll of the `Notified` is lost when `accept()` is ready in the same pass. -/
theorem mayAccept_of_ready {r : AcceptAction} (hl : x.state = .accepting l)
    (hpc : l.pc = .polled) (hr : r = .acceptOk ∨ r = .acceptErr) : MayAccept r x l := by
  obtain ⟨state, connections⟩ := x
  obtain ⟨pc, notified⟩ := l
  cases hl
  cases hpc
  rcases hr with rfl | rfl
  · exact ⟨[.select .acceptOk], _, rfl, by simp [ServeAction.Own],
      by simp [ServeAction.Next, ServeAction.selected], by simp [ServeAction.selected]⟩
  · exact mayAccept_of_lead [.select .acceptErr, .select .finishBranch] rfl ⟨false, rfl⟩
      (by simp [ServeAction.Own]) (fun _ => rfl)

end ServeLoop

/-- The call stops the loop by itself exactly when it finds a `Notified` that is still to be polled
in its pass, or `accept()` is pending in the pass. -/
theorem project_stop_delivered_iff {pre : List ServeAction} {x : ServeLoop} {tr : List Empty}
    {l : AcceptLoop} {r : AcceptAction} (hrun : Machine.exec ServeLoop.step .new pre = some (x, tr))
    (hl : x.state = .accepting l) (hr : r = .acceptOk ∨ r = .acceptErr ∨ r = .acceptPending) :
    (∀ post y tr', Machine.exec ServeLoop.step x (.notifyWaiters :: post) = some (y, tr') →
      (∀ a ∈ post, a.Own) → (l.pc = .polled → ServeAction.Next r post) → StopsWithin 3 post y) ↔
      l.pc = .polling ∨ l.pc = .parked ∨ l.pc = .polled ∧ r = .acceptPending := by
  constructor
  · intro h
    have hmay : ¬ServeLoop.MayAccept r x l := by
      rintro ⟨post, y, hpost, hown, hnext, haccepts⟩
      exact (h post y [] hpost hown hnext).accepts haccepts
    have hhas : l.hasNotified = true := by
      by_contra hhas
      exact hmay (ServeLoop.mayAccept_of_unreached hl (ServeLoop.exec_running hrun hl)
        (by simpa using hhas) (ServeLoop.exec_fresh hrun))
    simp only [AcceptLoop.hasNotified, Bool.or_eq_true, decide_eq_true_eq] at hhas
    rcases hhas with (hpolling | hpolled) | hparked
    · exact .inl hpolling
    · have hpending : r = .acceptPending := by
        rcases hr with hok | herr | hpending
        · exact absurd (ServeLoop.mayAccept_of_ready hl hpolled (.inl hok)) hmay
        · exact absurd (ServeLoop.mayAccept_of_ready hl hpolled (.inr herr)) hmay
        · exact hpending
      exact .inr (.inr ⟨hpolled, hpending⟩)
    · exact .inr (.inl hparked)
  · intro hpc post y tr' hpost hown hnext
    have hhas : l.hasNotified = true := by
      rcases hpc with hpc | hpc | ⟨hpc, -⟩ <;> simp [AcceptLoop.hasNotified, hpc]
    refine ⟨ServeLoop.leavesWithin_of_call hl hhas (fun hpolled => ?_) hown hpost,
      fun _ => ServeLoop.exec_drains hrun hl hown hpost⟩
    rcases hpc with hpc | hpc | ⟨-, rfl⟩
    · cases hpolled.symm.trans hpc
    · cases hpolled.symm.trans hpc
    · exact hnext hpolled

/-- A loop that waits in `select!`, with no connection yet. -/
def waitingLoop : List ServeAction := [.select .iterate, .select .pollStop, .select .acceptPending]

/-- The call finds the loop waiting: in every run after it the loop leaves `select!`. -/
theorem project_stop_delivered_parked : ∃ x,
    Machine.exec ServeLoop.step .new waitingLoop = some (x, []) ∧
    (∃ y, Machine.exec ServeLoop.step x [.notifyWaiters, .select .wake, .select .pollStop] =
      some (y, []) ∧ y.state = .draining) ∧
    ∀ post y tr, Machine.exec ServeLoop.step x (.notifyWaiters :: post) = some (y, tr) →
      (∀ a ∈ post, a.Own) → StopsWithin 3 post y := by
  have hrun : Machine.exec ServeLoop.step .new waitingLoop =
      some (⟨.accepting ⟨.parked, false⟩, .new⟩, []) := rfl
  refine ⟨_, hrun, ⟨_, rfl, rfl⟩, fun post y tr hpost hown => ?_⟩
  have hdelivered := project_stop_delivered_iff hrun rfl (r := .acceptPending) (.inr (.inr rfl))
  refine hdelivered.mpr (.inr (.inl rfl)) post y tr hpost hown fun hpolled => ?_
  cases hpolled

/-- What the loop does after a call in its accept branch: it accepts a second connection, and then
it waits. -/
def lostStop : List ServeAction :=
  [.spawn 0, .select .iterate, .select .pollStop, .select .acceptOk,
    .spawn 1, .select .iterate, .select .pollStop, .select .acceptPending]

/-- The call comes while the accept branch runs: the loop accepts another connection after it, and
never leaves `select!` by itself. -/
theorem project_stop_lost : ∃ x,
    Machine.exec ServeLoop.step .new
      ([.select .iterate, .select .pollStop, .select .acceptOk] ++ .notifyWaiters :: lostStop) =
        some (x, []) ∧
    x.state = .accepting ⟨.parked, false⟩ ∧ ¬StopsWithin 3 lostStop x ∧
    ∀ post y tr, Machine.exec ServeLoop.step x post = some (y, tr) → (∀ a ∈ post, a.Own) →
      ∃ l, y.state = .accepting l := by
  refine ⟨_, rfl, rfl, fun hstops => ?_, fun post y tr hpost hown => ?_⟩
  · exact hstops.accepts (by decide)
  · obtain ⟨l, hl, -⟩ := ServeLoop.exec_unnotified rfl rfl hown hpost
    exact ⟨l, hl⟩

end RemoBroker
