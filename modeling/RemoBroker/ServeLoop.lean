import RemoBroker.Daemon.Supervision
import RemoBroker.Lib.JoinSet

/-! What an accept loop retains of its connections.  The loop of `Server::run` and that of
`run_project_socket` spawn a task for each connection into a `JoinSet`, and join none of them before
the loop has stopped, so the set grows by one with every connection that was ever accepted. -/

namespace RemoBroker

open JoinSet (Tasks Event tally)

/-- An accept loop, of the admin socket or of a project socket, with its connection tasks. -/
structure ServeLoop where
  state : LoopState
  connections : Tasks Nat

inductive ServeAction where
  /-- `notify_waiters` on the loop's stop notification. -/
  | notifyWaiters
  | select (a : AcceptAction)
  | spawn (num : Nat)
  /-- The task of a connection ends: its handler returns, or it is dropped at an await. -/
  | finish (num : Nat)
  | joinNext (num : Nat)
  | drained
  /-- The drain ran into its limit and requests the abort of the connections that are left, which
  end like others. -/
  | abortAll
  /-- `JoinHandle::abort` on the task of a project loop, which drops the `JoinSet`. -/
  | abort

def ServeAction.event : ServeAction → Option (Event Nat)
  | .spawn num => some (.spawn num)
  | .finish num => some (.finish num)
  | .joinNext num => some (.join num)
  | .abort => some .drop
  | _ => none

namespace ServeLoop

def new : ServeLoop := ⟨.accepting .new, .new⟩

def step : Machine.Step ServeLoop ServeAction Empty := fun x a =>
  match x.state, a with
  | .accepting l, .notifyWaiters => some ({ x with state := .accepting l.notifyWaiters }, [])
  | _, .notifyWaiters => some (x, [])
  | .accepting l, .select a =>
    if l.pc = .accepted then none
    else (l.step a).map fun l' => ({ x with state := .ofAccept l' }, [])
  | .accepting l, .spawn num =>
    if l.pc = .accepted ∧ x.connections.finished num = none then
      (l.step .finishBranch).map fun l' => (⟨.ofAccept l', x.connections.spawn num⟩, [])
    else none
  | _, .finish num =>
    if x.connections.finished num = some false then
      some ({ x with connections := x.connections.finish num }, [])
    else none
  | .draining, .joinNext num =>
    if num ∈ x.connections.retained ∧ x.connections.finished num ≠ some false then
      some ({ x with connections := x.connections.join num }, [])
    else none
  | .draining, .drained =>
    if x.connections.retained = [] then some ({ x with state := .ended }, []) else none
  | .draining, .abortAll => some (x, [])
  | _, .abort => some (⟨.ended, x.connections.drop⟩, [])
  | _, _ => none

/-- What a step does to the connection tasks; none of them is joined before the loop has stopped. -/
inductive Change (x : ServeLoop) (a : ServeAction) (y : ServeLoop) : Prop where
  | same (event : a.event = none) (connections : y.connections = x.connections)
      (stays : ∀ l, y.state = .accepting l → ∃ l, x.state = .accepting l)
  | task {e} (event : a.event = some e) (step : JoinSet.Step x.connections e y.connections)
      (stays : ∀ l, y.state = .accepting l → (∃ l, x.state = .accepting l) ∧
        ∀ n : JoinSet.Tally, (n.note e).left = n.left)

theorem step_change {x y : ServeLoop} {a : ServeAction} {o : List Empty}
    (h : step x a = some (y, o)) : Change x a y := by
  unfold step at h
  split at h
  · rename_i l hstate
    cases h
    exact .same rfl rfl fun _ _ => ⟨l, hstate⟩
  · cases h
    exact .same rfl rfl fun l hl => ⟨l, hl⟩
  · rename_i l a hstate
    split at h
    · cases h
    · obtain ⟨l', -, heq⟩ := Option.map_eq_some_iff.mp h
      cases heq
      exact .same rfl rfl fun _ _ => ⟨l, hstate⟩
  · rename_i l num hstate
    split at h
    · rename_i hspawn
      obtain ⟨l', -, heq⟩ := Option.map_eq_some_iff.mp h
      cases heq
      exact .task rfl (.spawn hspawn.2) fun _ _ => ⟨⟨l, hstate⟩, fun _ => rfl⟩
    · cases h
  · split at h
    · rename_i hrunning
      cases h
      exact .task rfl (.finish hrunning) fun l hl => ⟨⟨l, hl⟩, fun _ => rfl⟩
    · cases h
  · rename_i hstate
    split at h
    · rename_i hjoin
      cases h
      refine .task rfl (.join hjoin.1 hjoin.2) fun l hl => ?_
      cases hstate.symm.trans hl
    · cases h
  · split at h
    · cases h
      refine .same rfl rfl fun l hl => ?_
      cases hl
    · cases h
  · cases h
    exact .same rfl rfl fun l hl => ⟨l, hl⟩
  · cases h
    refine .task rfl .drop fun l hl => ?_
    cases hl
  · cases h

/-- The numbers of a loop agree with a tally, in which nothing is joined while the loop accepts. -/
structure Counted (n : JoinSet.Tally) (x : ServeLoop) : Prop where
  accounted : JoinSet.Accounted x.connections n
  unjoined : ∀ l, x.state = .accepting l → n.left = 0

theorem Counted.step {n : JoinSet.Tally} {x y : ServeLoop} {a : ServeAction} {o : List Empty}
    (h : Counted n x) (hstep : ServeLoop.step x a = some (y, o)) :
    Counted (a.event.elim n n.note) y := by
  cases step_change hstep with
  | same event connections stays =>
    rw [event, Option.elim_none]
    refine ⟨connections ▸ h.accounted, fun l hl => ?_⟩
    obtain ⟨l, hl⟩ := stays l hl
    exact h.unjoined l hl
  | task event step stays =>
    rw [event, Option.elim_some]
    refine ⟨h.accounted.step step, fun l hl => ?_⟩
    obtain ⟨⟨l, hl⟩, hleft⟩ := stays l hl
    exact (hleft n).trans (h.unjoined l hl)

theorem exec_counted {as : List ServeAction} {x : ServeLoop} {tr : List Empty}
    (hrun : Machine.exec step new as = some (x, tr)) :
    Counted (tally (as.filterMap ServeAction.event)) x := by
  rw [JoinSet.tally_filterMap]
  exact Machine.exec_foldl (I := Counted) ⟨.new, fun _ _ => rfl⟩
    (fun _ _ _ _ _ h hs => h.step hs) hrun

end ServeLoop

/-- What a loop retains after the actions of a run.  While it accepts, it retains a task for every
connection that it ever accepted, and these are within a constant of the unfinished ones exactly
when no more connections than that have ended.  At any time, so few ended connections are enough. -/
structure Retention (as : List ServeAction) (x : ServeLoop) : Prop where
  accepting : ∀ l, x.state = .accepting l →
    x.connections.retained.length = (tally (as.filterMap ServeAction.event)).spawned
  bounded : ∀ l, x.state = .accepting l → ∀ bound,
    x.connections.retained.length ≤ x.connections.unfinished + bound ↔
      (tally (as.filterMap ServeAction.event)).ended ≤ bound
  enough : ∀ bound, (tally (as.filterMap ServeAction.event)).ended ≤ bound →
    x.connections.retained.length ≤ x.connections.unfinished + bound

theorem serveLoop_retention {as : List ServeAction} {x : ServeLoop} {tr : List Empty}
    (hrun : Machine.exec ServeLoop.step .new as = some (x, tr)) : Retention as x := by
  have h := ServeLoop.exec_counted hrun
  have hretained := h.accounted.retained
  have hadd := h.accounted.retained_add
  refine ⟨fun l hl => ?_, fun l hl bound => ?_, fun bound hbound => ?_⟩
  · rwa [h.unjoined l hl] at hretained
  · rw [h.unjoined l hl] at hadd
    omega
  · omega

/-- A connection is accepted, and its handler returns. -/
def ServeAction.served (num : Nat) : List ServeAction :=
  [.select .iterate, .select .pollStop, .select .acceptOk, .spawn num, .finish num]

def ServeLoop.servedTo (x : ServeLoop) (num : Nat) : ServeLoop :=
  { x with connections := (x.connections.spawn num).finish num }

theorem ServeLoop.exec_served {x : ServeLoop} {num : Nat} (hstate : x.state = .accepting .new)
    (hfresh : x.connections.finished num = none) :
    Machine.exec step x (ServeAction.served num) = some (x.servedTo num, []) := by
  obtain ⟨state, connections⟩ := x
  cases hstate
  replace hfresh : connections.finished num = none := hfresh
  simp [ServeAction.served, Machine.exec, step, AcceptLoop.step, AcceptLoop.new,
    LoopState.ofAccept, AcceptLoop.running, hfresh, servedTo]

/-- So many connections are opened and closed, one after the other. -/
def ServeAction.servedAll (count : Nat) : List ServeAction := (List.range count).flatMap served

theorem ServeLoop.exec_servedAll (count : Nat) : ∃ x,
    Machine.exec step new (ServeAction.servedAll count) = some (x, []) ∧
      x.state = .accepting .new ∧ x.connections.retained.length = count ∧
      ∀ num, x.connections.finished num = if num < count then some true else none := by
  induction count with
  | zero => exact ⟨new, rfl, rfl, rfl, fun _ => rfl⟩
  | succ count ih =>
    obtain ⟨x, hrun, hstate, hretained, hfinished⟩ := ih
    have hfresh : x.connections.finished count = none := by simp [hfinished]
    refine ⟨x.servedTo count, ?_, hstate, ?_, ?_⟩
    · rw [ServeAction.servedAll, List.range_succ, List.flatMap_append, List.flatMap_singleton]
      exact Machine.exec_append hrun (exec_served hstate hfresh)
    · simp [servedTo, hretained]
    · intro num
      rcases Nat.lt_trichotomy num count with hlt | rfl | hgt
      · simp [servedTo, Function.update_of_ne hlt.ne, hfinished, hlt, Nat.lt_succ_of_lt hlt]
      · simp [servedTo]
      · have hle : ¬num < count + 1 := Nat.not_lt.mpr hgt
        simp [servedTo, Function.update_of_ne hgt.ne', hfinished, hgt.le, hle]

/-- Two connections have been served, a third one is open. -/
theorem serveLoop_retention_open : ∃ x tr,
    Machine.exec ServeLoop.step .new (ServeAction.servedAll 2 ++ (ServeAction.served 2).take 4) =
      some (x, tr) ∧
    Retention (ServeAction.servedAll 2 ++ (ServeAction.served 2).take 4) x ∧
    x.connections.retained = [2, 1, 0] := by
  have hfacts : (Machine.exec ServeLoop.step .new
      (ServeAction.servedAll 2 ++ (ServeAction.served 2).take 4)).map (·.1.connections.retained) =
        some [2, 1, 0] := by
    decide
  obtain ⟨⟨x, tr⟩, hrun, hretained⟩ := Option.map_eq_some_iff.mp hfacts
  exact ⟨x, tr, hrun, serveLoop_retention hrun, hretained⟩

/-- No constant bounds what a loop retains beyond the connections that are still served. -/
theorem serveLoop_unbounded : ¬∃ bound, ∀ as x tr,
    Machine.exec ServeLoop.step .new as = some (x, tr) →
      x.connections.retained.length ≤ x.connections.unfinished + bound := by
  rintro ⟨bound, hbound⟩
  obtain ⟨x, hrun, -, hretained, hfinished⟩ := ServeLoop.exec_servedAll (bound + 1)
  have hunfinished : x.connections.unfinished = 0 := by
    have hset : {num | x.connections.finished num = some false} = ∅ :=
      Set.eq_empty_of_forall_notMem fun num hnum => by
        have hnum : x.connections.finished num = some false := hnum
        rw [hfinished] at hnum
        split at hnum <;> cases hnum
    rw [Tasks.unfinished, hset, Set.ncard_empty]
  have hle := hbound _ x [] hrun
  rw [hretained, hunfinished] at hle
  omega

/-! The accept loops of the daemon are such loops. -/

def Daemon.finished (s : Daemon) (reg : RegId) (num : Nat) : Option Bool :=
  (s.conns ⟨reg, num⟩).map Conn.isClosed

/-- The accept loop of a registration, as it is before and after it is spawned. -/
def Daemon.serveLoop (s : Daemon) (reg : RegId) : ServeLoop :=
  ⟨((s.loops reg).getD .new).state, ((s.loops reg).getD .new).joinSet, s.finished reg⟩

namespace ServeLoop

theorem step_finish {x : ServeLoop} {num : Nat} (h : x.connections.finished num = some false) :
    step x (.finish num) = some ({ x with connections := x.connections.finish num }, []) := by
  obtain ⟨state, connections⟩ := x
  cases state <;> exact if_pos h

/-- Some steps of the loop and its connections. -/
def Moves (x y : ServeLoop) : Prop := ∃ as, Machine.exec step x as = some (y, [])

variable {x y z : ServeLoop}

theorem Moves.stay (same : y = x) : Moves x y := ⟨[], by rw [same]; rfl⟩

theorem Moves.step {a : ServeAction} (hstep : ServeLoop.step x a = some (y, [])) : Moves x y :=
  ⟨[a], Machine.exec_cons hstep rfl⟩

theorem Moves.trans (h : Moves x y) (h' : Moves y z) : Moves x z := by
  obtain ⟨as, has⟩ := h
  obtain ⟨bs, hbs⟩ := h'
  exact ⟨as ++ bs, Machine.exec_append has hbs⟩

/-- Some of the connections in a list end. -/
theorem Moves.finish {nums : List Nat} {finished : Nat → Option Bool}
    (h : ∀ num, finished num = x.connections.finished num ∨
      num ∈ nums ∧ x.connections.finished num = some false ∧ finished num = some true) :
    Moves x { x with connections.finished := finished } := by
  induction nums generalizing x with
  | nil =>
    refine .stay ?_
    rw [show finished = x.connections.finished from funext fun num => (h num).resolve_right
      fun hend => List.not_mem_nil hend.1]
  | cons num nums ih =>
    by_cases hsame : finished num = x.connections.finished num
    · refine ih fun n => (h n).imp_right fun ⟨hmem, hrunning, hdone⟩ => ⟨?_, hrunning, hdone⟩
      refine (List.mem_cons.mp hmem).resolve_left ?_
      rintro rfl
      cases (hdone.symm.trans hsame).trans hrunning
    · obtain ⟨-, hrunning, hdone⟩ := (h num).resolve_left hsame
      refine (Moves.step (step_finish hrunning)).trans (ih fun n => ?_)
      by_cases hn : n = num
      · exact .inl (by simp [hn, hdone])
      · simp only [Tasks.finish_finished, Function.update_of_ne hn]
        exact (h n).imp_right fun ⟨hmem, hend⟩ => ⟨(List.mem_cons.mp hmem).resolve_left hn, hend⟩

end ServeLoop

section
variable {env : Env} {s t : Daemon} {o : List Obs} {id : AdminId} {reg : RegId}

theorem Daemon.serveLoop_eq {task : LoopTask} {finished : Nat → Option Bool}
    (hloop : s.loops reg = some task) (hfinished : s.finished reg = finished) :
    s.serveLoop reg = ⟨task.state, task.joinSet, finished⟩ := by
  rw [serveLoop, hloop, Option.getD_some, hfinished]

theorem Daemon.serveLoop_congr (hloop : t.loops reg = s.loops reg)
    (hconns : ∀ num, t.conns ⟨reg, num⟩ = s.conns ⟨reg, num⟩) :
    t.serveLoop reg = s.serveLoop reg := by
  have hfinished : t.finished reg = s.finished reg := by
    funext num
    rw [finished, finished, hconns]
  rw [serveLoop, serveLoop, hloop, hfinished]

theorem Daemon.finished_update {num : Nat} {conn : Conn}
    (hconns : t.conns = Function.update s.conns ⟨reg, num⟩ (some conn)) :
    t.finished reg = Function.update (s.finished reg) num (some conn.isClosed) := by
  funext n
  by_cases hn : n = num
  · simp [finished, hconns, hn]
  · simp [finished, hconns, hn, Function.update_of_ne]

theorem Conn.isClosed_abort (conn : Conn) :
    conn.abort.isClosed = conn.isClosed ∨ conn.isClosed = false ∧ conn.abort.isClosed = true := by
  unfold Conn.abort
  split
  · exact .inl rfl
  · cases hclosed : conn.isClosed with
    | false => exact .inr ⟨rfl, rfl⟩
    | true => exact .inl rfl

/-- An abort of the connections in a `JoinSet` ends some of them. -/
theorem Daemon.finished_abortConns {joinSet : List Nat}
    (hconns : t.conns = Daemon.abortConns s.conns reg joinSet) (num : Nat) :
    t.finished reg num = s.finished reg num ∨
      num ∈ joinSet ∧ s.finished reg num = some false ∧ t.finished reg num = some true := by
  rw [finished, finished, hconns, Daemon.abortConns]
  by_cases hmem : num ∈ joinSet
  · rw [if_pos ⟨rfl, hmem⟩]
    cases s.conns ⟨reg, num⟩ with
    | none => exact .inl rfl
    | some conn =>
      simp only [Option.map_some, Option.some.injEq]
      exact conn.isClosed_abort.imp_right fun h => ⟨hmem, h⟩
  · exact .inl (by rw [if_neg fun h => hmem h.2])

theorem LoopStep.move {a : LoopAction} (step : LoopStep s reg a t) :
    ServeLoop.Moves (s.serveLoop reg) (t.serveLoop reg) := by
  cases step with
  | @selected task l l' a htask state pc accept =>
    refine .step (a := .select a) ?_
    rw [Daemon.serveLoop_eq htask rfl, Daemon.serveLoop_eq (Function.update_self ..) rfl]
    simp [ServeLoop.step, state, pc, accept]
    rfl
  | @spawned task l l' num pid uid htask state pc fresh accept =>
    refine .step (a := .spawn num) ?_
    rw [Daemon.serveLoop_eq htask rfl,
      Daemon.serveLoop_eq (Function.update_self ..) (Daemon.finished_update rfl)]
    simp [ServeLoop.step, state, pc, accept, Daemon.finished, fresh]
    rfl
  | @joined task num htask state closed mem =>
    refine .step (a := .joinNext num) ?_
    have hclosed : s.finished reg num ≠ some false := by
      intro hopen
      obtain ⟨conn, hconn, hisClosed⟩ := Option.map_eq_some_iff.mp hopen
      rw [closed conn hconn] at hisClosed
      cases hisClosed
    rw [Daemon.serveLoop_eq htask rfl, Daemon.serveLoop_eq (Function.update_self ..) rfl]
    simp [ServeLoop.step, state, mem, hclosed]
    rfl
  | @drained task htask state empty =>
    refine .step (a := .drained) ?_
    rw [Daemon.serveLoop_eq htask rfl, Daemon.serveLoop_eq (Function.update_self ..) rfl]
    simp [ServeLoop.step, state, empty]
    rfl
  | @aborted task htask state =>
    let t : Daemon := { s with conns := Daemon.abortConns s.conns reg task.joinSet }
    have hs : s.serveLoop reg = ⟨task.state, task.joinSet, s.finished reg⟩ :=
      Daemon.serveLoop_eq htask rfl
    have ht : t.serveLoop reg = ⟨task.state, task.joinSet, t.finished reg⟩ :=
      Daemon.serveLoop_eq htask rfl
    have hrequest : ServeLoop.Moves (s.serveLoop reg) (s.serveLoop reg) := by
      refine .step (a := .abortAll) ?_
      simp [hs, ServeLoop.step, state]
    refine hrequest.trans ?_
    rw [hs, ht]
    exact .finish (Daemon.finished_abortConns rfl)

theorem Daemon.notifyStop_move (s : Daemon) (reg : RegId) :
    ServeLoop.Moves (s.serveLoop reg) ((s.notifyStop reg).serveLoop reg) := by
  cases hloop : s.loops reg with
  | none =>
    refine .stay (Daemon.serveLoop_congr ?_ fun _ => rfl)
    simp [hloop]
  | some task =>
    have hnotified : (s.notifyStop reg).loops reg = some task.notifyWaiters := by simp [hloop]
    refine .step (a := .notifyWaiters) ?_
    rw [Daemon.serveLoop_eq hloop rfl, Daemon.serveLoop_eq hnotified rfl]
    obtain ⟨state, joinSet⟩ := task
    cases state <;> rfl

theorem Daemon.abortLoop_move (s : Daemon) (reg : RegId) :
    ServeLoop.Moves (s.serveLoop reg) ((s.abortLoop reg).serveLoop reg) := by
  cases hloop : s.loops reg with
  | none =>
    refine .stay (Daemon.serveLoop_congr ?_ fun num => ?_)
    · rw [Daemon.abortLoop_loops, Function.update_self, hloop, Option.map_none]
    · rw [Daemon.abortLoop_conns, hloop, Option.elim_none, Daemon.abortConns, if_neg (by simp)]
  | some task =>
    have hended : (s.abortLoop reg).loops reg = some ⟨.ended, []⟩ := by simp [hloop]
    have hconns : (s.abortLoop reg).conns = Daemon.abortConns s.conns reg task.joinSet := by
      funext c
      rw [Daemon.abortLoop_conns, hloop, Option.elim_some]
    rw [Daemon.serveLoop_eq hloop rfl, Daemon.serveLoop_eq hended rfl]
    have habort : ServeLoop.Moves ⟨task.state, task.joinSet, s.finished reg⟩
        ⟨.ended, [], s.finished reg⟩ := by
      refine .step (a := .abort) ?_
      obtain ⟨state, joinSet⟩ := task
      cases state <;> rfl
    exact habort.trans (.finish (Daemon.finished_abortConns hconns))

theorem Daemon.abortLoop_other {handle : RegId} (hreg : reg ≠ handle) :
    (s.abortLoop handle).serveLoop reg = s.serveLoop reg := by
  refine Daemon.serveLoop_congr (Function.update_of_ne hreg ..) fun num => ?_
  simp [Daemon.abortConns, hreg]

theorem AdminStep.move {a : AdminAction} (step : AdminStep env s id a t o) (h : Supervised s)
    (reg : RegId) : ServeLoop.Moves (s.serveLoop reg) (t.serveLoop reg) := by
  cases step with
  | @spawned reg' task =>
    refine .stay ?_
    by_cases hreg : reg = reg'
    · subst hreg
      rw [Daemon.serveLoop_eq (Function.update_self ..) rfl, Daemon.serveLoop,
        h.unspawned id reg task]
      rfl
    · exact Daemon.serveLoop_congr (Function.update_of_ne hreg ..) fun _ => rfl
  | @notified reg' task =>
    by_cases hreg : reg = reg'
    · subst hreg
      exact s.notifyStop_move reg
    · exact .stay (Daemon.serveLoop_congr (Function.update_of_ne hreg ..) fun _ => rfl)
  | @timedOut reg' handle task =>
    by_cases hreg : reg = handle
    · subst hreg
      exact s.abortLoop_move reg
    · exact .stay (Daemon.abortLoop_other hreg)
  | _ => exact .stay rfl

theorem ConnStep.move {backend : Option Session} {q : RequestId} {c : ConnId} {p p' : Project}
    {conn conn' : Conn} {a : ConnAction} (step : ConnStep env backend q p conn a p' conn' o)
    (task : s.conns c = some conn) (hloops : t.loops = s.loops)
    (hconns : t.conns = Function.update s.conns c (some conn')) (reg : RegId) :
    ServeLoop.Moves (s.serveLoop reg) (t.serveLoop reg) := by
  by_cases hreg : c.reg = reg
  · obtain ⟨creg, num⟩ := c
    obtain rfl : creg = reg := hreg
    have hopen : s.finished creg num = some false := by
      rw [Daemon.finished, task, Option.map_some, step.isOpen]
    have ht : t.serveLoop creg = { s.serveLoop creg with
        connections.finished := Function.update (s.finished creg) num (some conn'.isClosed) } := by
      rw [Daemon.serveLoop, hloops, Daemon.finished_update hconns]
      rfl
    rw [ht]
    cases hclosed : conn'.isClosed with
    | false =>
      refine .stay ?_
      rw [Function.update_eq_self_iff.mpr hopen.symm]
      rfl
    | true =>
      refine .step (a := .finish num) ?_
      exact ServeLoop.step_finish hopen
  · refine .stay (Daemon.serveLoop_congr (congrFun hloops reg) fun num => ?_)
    rw [hconns, Function.update_of_ne]
    rintro rfl
    exact hreg rfl

theorem DaemonStep.move {a : Action} (step : DaemonStep env s a t o) (h : Supervised s)
    (reg : RegId) : ServeLoop.Moves (s.serveLoop reg) (t.serveLoop reg) := by
  cases step with
  | admin step => exact step.move h reg
  | conn task project step =>
    refine step.move task ?_ ?_ reg <;> rfl
  | @loop reg' a t step =>
    by_cases hreg : reg = reg'
    · subst hreg
      exact step.move
    · exact .stay (Daemon.serveLoop_congr (step.loops_other hreg) fun num => step.conns_other hreg)
  | rotate | status | writer => exact .stay rfl

/-- In every run of the daemon, what the accept loop of a registration does is a run of a loop. -/
theorem run_serveLoop {backend : Option Session} {stale : Daemon.Stale} {as : List Action}
    {tr : List Obs} (hrun : run env backend stale as = some (s, tr)) (reg : RegId) :
    ∃ bs, Machine.exec ServeLoop.step .new bs = some (s.serveLoop reg, []) := by
  have h : Records env s ∧ Supervised s ∧
      ∃ bs, Machine.exec ServeLoop.step .new bs = some (s.serveLoop reg, []) := by
    refine Machine.exec_invariant (I := fun s => Records env s ∧ Supervised s ∧
      ∃ bs, Machine.exec ServeLoop.step .new bs = some (s.serveLoop reg, []))
      ⟨.initial, .initial, [], rfl⟩ ?_ hrun
    rintro s a t o ⟨hrecords, hsupervised, bs, hbs⟩ hs
    have step := step_cases hs
    refine ⟨hrecords.step step, hsupervised.step hrecords step, ?_⟩
    exact ServeLoop.Moves.trans ⟨bs, hbs⟩ (step.move hsupervised reg)
  exact h.2.2

end

end RemoBroker
