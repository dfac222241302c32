import RemoBroker.Daemon.Records

/-! A request on a project socket, and an admin request about a project, is answered after a bounded
number of its own steps, whatever the other tasks and the audit log do meanwhile.  An admin request
can always take its next step; a request on a project socket waits for nothing but the backend and
the client that reads the response. -/

namespace RemoBroker

/-- The number of steps that a connection takes until its request is answered, at most. -/
def ConnPc.remaining : ConnPc → Nat
  | .reading | .closed => 0
  | .writing _ => 1
  | .responding _ => 2
  | .emitting _ _ => 3
  | .readingTtl _ _ _ => 4
  | .inserting _ _ _ => 5
  | .awaiting _ _ _ => 6
  | .calling _ _ => 7
  | .lookingUp _ _ => 8
  | .dispatching _ _ => 9

/-- The number of steps that an admin request takes until it is answered, at most. -/
def AdminTask.remaining : AdminTask → Nat
  | .done _ | .aborted => 0
  | .inserting _ | .unlinking _ | .storing _ _ => 1
  | .spawning _ | .joining _ _ | .configuring _ _ => 2
  | .locking _ _ _ | .taking _ | .loading _ => 3
  | .register _ | .notifying _ | .reload => 4
  | .unregister => 5

def Action.isConn (c : ConnId) : Action → Bool
  | .conn c' _ => c' = c
  | _ => false

def Action.isAdmin (id : AdminId) : Action → Bool
  | .admin id' _ => id' = id
  | _ => false

/-- The action can end a connection: its client is gone, or its accept loop is drained or stopped
for too long. -/
def Action.drops (c : ConnId) : Action → Bool
  | .conn c' .close => c' = c
  | .loop reg .abortAll => reg = c.reg
  | .admin id .abortTask => id.name = c.reg.name
  | _ => false

section
variable {env : Env} {s t : Daemon} {o tr : List Obs} {q : RequestId} {c : ConnId}

/-! ### Requests on a project socket -/

/-- A request that has been read is in progress, with no abort requested, or has been answered. -/
inductive Asked (q : RequestId) (tr : List Obs) (s : Daemon) : Prop where
  | pending {conn} (task : s.conns q.conn = some conn) (served : conn.served = q.seq)
      (busy : 0 < conn.pc.remaining) (live : conn.cancelled = false)
  | answered {conn response} (task : s.conns q.conn = some conn) (served : q.seq < conn.served)
      (shown : .answered q response ∈ tr)

def Daemon.remaining (s : Daemon) (q : RequestId) : Nat :=
  match s.conns q.conn with
  | some conn => if conn.served = q.seq then conn.pc.remaining else 0
  | none => 0

theorem dispatchProject_remaining {p : Project} {line : ProjectLine} {start : Instant} :
    0 < (dispatchProject env p line start).remaining ∧
      (dispatchProject env p line start).remaining < 9 := by
  rcases dispatchProject_cases env p line start with ⟨r, heq⟩ | ⟨event, r, heq⟩ | ⟨name, heq⟩
  all_goals simp [heq, ConnPc.remaining]

theorem afterLookup_remaining {name : String} {start : Instant} {hit : Option CacheHit} :
    0 < (afterLookup name start hit).remaining ∧ (afterLookup name start hit).remaining < 8 := by
  cases hit <;> simp [afterLookup, ConnPc.remaining]

theorem afterReturn_remaining {name : String} {start : Instant}
    {answer : Except String (Option String)} :
    0 < (afterReturn env name start answer).remaining ∧
      (afterReturn env name start answer).remaining < 6 := by
  rcases answer with _ | _ | _ <;> simp [afterReturn, ConnPc.remaining]

/-- A step of a connection that does not end it brings its request closer to the answer. -/
theorem ConnStep.remaining {backend : Option Session} {p p' : Project} {conn conn' : Conn}
    {a : ConnAction} (step : ConnStep env backend q p conn a p' conn' o) (hclose : a ≠ .close)
    (busy : 0 < conn.pc.remaining) :
    conn'.pc.remaining < conn.pc.remaining ∧
      (conn'.served = conn.served ∧ 0 < conn'.pc.remaining ∨
        conn'.served = conn.served + 1 ∧ ∃ response, .answered q response ∈ o) := by
  cases step with
  | received pc =>
    rw [pc] at busy
    cases busy
  | dispatched pc =>
    rw [pc]
    exact ⟨dispatchProject_remaining.2, .inl ⟨rfl, dispatchProject_remaining.1⟩⟩
  | lookedUp pc =>
    rw [pc]
    exact ⟨afterLookup_remaining.2, .inl ⟨rfl, afterLookup_remaining.1⟩⟩
  | returned pc =>
    rw [pc]
    exact ⟨afterReturn_remaining.2, .inl ⟨rfl, afterReturn_remaining.1⟩⟩
  | noSession pc | called pc | inserted pc | readTtl pc | emitted pc | started pc =>
    rw [pc]
    exact ⟨by simp [ConnPc.remaining], .inl ⟨rfl, by simp [ConnPc.remaining]⟩⟩
  | answered pc =>
    rw [pc]
    exact ⟨by simp [ConnPc.remaining], .inr ⟨rfl, _, List.mem_singleton_self _⟩⟩
  | closed => exact absurd rfl hclose

/-- A step of another task that does not end a connection leaves it as it is. -/
theorem DaemonStep.conn_kept {a : Action} {conn : Conn} (step : DaemonStep env s a t o)
    (hrec : Records env s) (task : s.conns c = some conn) (hown : a.isConn c = false)
    (hdrops : a.drops c = false) : t.conns c = some conn := by
  cases step with
  | @admin id a t o step =>
    cases step with
    | @timedOut reg handle joining =>
      have hhandle := (hrec.request id _ joining handle (by simp [AdminTask.regs])).1
      have hne : c.reg ≠ handle := by
        rintro heq
        simp [Action.drops, ← hhandle, heq] at hdrops
      simpa [Daemon.abortLoop, Daemon.abortConns, hne] using task
    | _ => exact task
  | @conn c' a conn' p p' conn'' o task' project step =>
    have hne : c ≠ c' := by
      rintro rfl
      simp [Action.isConn] at hown
    simpa [Function.update_of_ne hne] using task
  | @loop reg a t step =>
    cases step with
    | @spawned l acc acc' num pid uid loop state pc fresh accept =>
      have hne : c ≠ ⟨reg, num⟩ := by
        rintro rfl
        cases fresh.symm.trans task
      simpa [Function.update_of_ne hne] using task
    | aborted =>
      have hne : c.reg ≠ reg := by
        rintro rfl
        simp [Action.drops] at hdrops
      simpa [Daemon.abortConns, hne] using task
    | selected | joined | drained => exact task
  | rotate | status | writer => exact task

theorem ConnStep.served_le {backend : Option Session} {p p' : Project} {conn conn' : Conn}
    {a : ConnAction} (step : ConnStep env backend q p conn a p' conn' o) :
    conn.served ≤ conn'.served := by
  cases step with
  | answered => exact Nat.le_succ _
  | _ => exact Nat.le_refl _

theorem ConnStep.cancelled_eq {backend : Option Session} {p p' : Project} {conn conn' : Conn}
    {a : ConnAction} (step : ConnStep env backend q p conn a p' conn' o) :
    conn'.cancelled = conn.cancelled := by
  cases step <;> rfl

theorem Daemon.remaining_of_answered {conn : Conn} (task : s.conns q.conn = some conn)
    (served : q.seq < conn.served) : s.remaining q = 0 := by
  simp [remaining, task, Nat.ne_of_gt served]

theorem Asked.own {backend : Option Session} {p p' : Project} {conn conn' : Conn} {a : ConnAction}
    (h : Asked q tr s) (task : s.conns q.conn = some conn) (task' : t.conns q.conn = some conn')
    (step : ConnStep env backend ⟨q.conn, conn.served⟩ p conn a p' conn' o) (hclose : a ≠ .close) :
    Asked q (tr ++ o) t ∧ t.remaining q ≤ s.remaining q - 1 := by
  cases h with
  | pending before served busy live =>
    cases task.symm.trans before
    have hbefore : s.remaining q = conn.pc.remaining := by simp [Daemon.remaining, task, served]
    obtain ⟨hless, ⟨hserved, hbusy⟩ | ⟨hserved, response, hshown⟩⟩ := step.remaining hclose busy
    · have hafter : t.remaining q = conn'.pc.remaining := by
        simp [Daemon.remaining, task', hserved, served]
      exact ⟨.pending task' (hserved.trans served) hbusy (step.cancelled_eq.trans live), by omega⟩
    · have hlater : q.seq < conn'.served := by omega
      rw [served] at hshown
      refine ⟨.answered task' hlater (List.mem_append_right tr hshown), ?_⟩
      rw [Daemon.remaining_of_answered task' hlater]
      exact Nat.zero_le _
  | answered before served shown =>
    cases task.symm.trans before
    have hlater : q.seq < conn'.served := Nat.lt_of_lt_of_le served step.served_le
    refine ⟨.answered task' hlater (List.mem_append_left o shown), ?_⟩
    rw [Daemon.remaining_of_answered task' hlater]
    exact Nat.zero_le _

theorem Asked.other (h : Asked q tr s)
    (hsame : ∀ conn, s.conns q.conn = some conn → t.conns q.conn = some conn) :
    Asked q (tr ++ o) t ∧ t.remaining q = s.remaining q := by
  cases h with
  | pending task served busy live =>
    exact ⟨.pending (hsame _ task) served busy live,
      by simp [Daemon.remaining, task, hsame _ task]⟩
  | answered task served shown =>
    exact ⟨.answered (hsame _ task) served (List.mem_append_left o shown),
      by simp [Daemon.remaining, task, hsame _ task]⟩

theorem Asked.step {a : Action} (h : Asked q tr s) (hrec : Records env s)
    (hdrops : a.drops q.conn = false) (step : DaemonStep env s a t o) :
    Asked q (tr ++ o) t ∧ t.remaining q ≤ s.remaining q - if a.isConn q.conn then 1 else 0 := by
  by_cases hown : a.isConn q.conn = true
  · cases step with
    | @conn c a conn p p' conn' o task project step =>
      obtain rfl : c = q.conn := by simpa [Action.isConn] using hown
      have hclose : a ≠ .close := by
        rintro rfl
        simp [Action.drops] at hdrops
      simpa only [hown, if_true] using
        h.own (t := { s.setProject q.conn.reg p' with
            conns := Function.update s.conns q.conn (some conn')
            audit := Daemon.recordAll s.audit o })
          task (Function.update_self ..) step hclose
    | _ => cases hown
  · obtain ⟨hasked, hsame⟩ := h.other (o := o) fun conn task =>
      step.conn_kept hrec task (by simpa using hown) hdrops
    exact ⟨hasked, by simp [hown, hsame]⟩

/-- What the next step of a connection with a request needs: nothing while the task runs, the answer
of the backend at its call, and at the write of the response a client that reads it. -/
inductive NextStep (env : Env) (s : Daemon) (c : ConnId) : ConnPc → Prop where
  | own {pc a} (running : pc.running = true) (enabled : (step env s (.conn c a)).isSome) :
      NextStep env s c pc
  | backend {name start session} (enabled : ∀ at_, (step env s (.conn c (.return at_))).isSome) :
      NextStep env s c (.awaiting name start session)
  | client {response} (enabled : (step env s (.conn c .finishWrite)).isSome) :
      NextStep env s c (.writing response)

theorem nextStep_of_busy {p : Project} {conn : Conn} (task : s.conns c = some conn)
    (project : s.projects c.reg = some p) (busy : 0 < conn.pc.remaining) :
    NextStep env s c conn.pc := by
  have henabled : ∀ a, (connStep env s.backend ⟨c, conn.served⟩ p conn a).isSome = true →
      (step env s (.conn c a)).isSome = true := by
    intro a hsome
    obtain ⟨⟨p', conn', o⟩, hstep⟩ := Option.isSome_iff_exists.mp hsome
    simp [step, stepConn, task, project, hstep]
  cases hpc : conn.pc with
  | reading | closed => simp [hpc, ConnPc.remaining] at busy
  | dispatching line start => exact .own rfl (henabled .dispatch (by simp [connStep, hpc]))
  | lookingUp name start => exact .own rfl (henabled (.lookUp 0) (by simp [connStep, hpc]))
  | calling name start =>
    refine .own rfl (henabled .call ?_)
    cases hbackend : s.backend <;> simp [connStep, hpc]
  | awaiting name start session =>
    exact .backend fun at_ => henabled (.return at_) (by simp [connStep, hpc])
  | inserting name start value => exact .own rfl (henabled (.insert 0 "") (by simp [connStep, hpc]))
  | readingTtl name start value => exact .own rfl (henabled .readTtl (by simp [connStep, hpc]))
  | emitting event response => exact .own rfl (henabled (.emit 0 0) (by simp [connStep, hpc]))
  | responding response => exact .own rfl (henabled .startWrite (by simp [connStep, hpc]))
  | writing response => exact .client (henabled .finishWrite (by simp [connStep, hpc]))

theorem Asked.next (h : Asked q tr s) (hrec : Records env s) :
    (∃ response, .answered q response ∈ tr) ∨
      ∃ conn, s.conns q.conn = some conn ∧ conn.cancelled = false ∧
        NextStep env s q.conn conn.pc := by
  cases h with
  | @pending conn task served busy live =>
    obtain ⟨p, hp⟩ := Option.isSome_iff_exists.mp (hrec.conn q.conn (by rw [task]; rfl))
    exact .inr ⟨conn, task, live, nextStep_of_busy task hp busy⟩
  | answered task served shown => exact .inl ⟨_, shown⟩

/-- A request that has been read on a project socket is answered after at most nine steps of its
connection, the answer of the backend and the client's reading of the response among them, whatever
else happens, unless the client goes or the project is taken down.  Until then it waits for nothing
else. -/
theorem request_answered {backend : Option Session} {stale : Daemon.Stale} {as bs : List Action}
    {os : List Obs} {conn : Conn} (hrun : run env backend stale as = some (s, tr))
    (htask : s.conns c = some conn) (hbusy : conn.pc ≠ .reading) (hopen : conn.pc ≠ .closed)
    (hlive : conn.cancelled = false) (hrest : Machine.exec (step env) s bs = some (t, os))
    (hkept : ∀ a ∈ bs, a.drops c = false) :
    (9 ≤ bs.countP (Action.isConn c) → ∃ r, .answered ⟨c, conn.served⟩ r ∈ os) ∧
      ((∃ r, .answered ⟨c, conn.served⟩ r ∈ os) ∨
        ∃ conn', t.conns c = some conn' ∧ conn'.cancelled = false ∧
          NextStep env t c conn'.pc) := by
  have hremaining : 0 < conn.pc.remaining ∧ conn.pc.remaining ≤ 9 := by
    cases hpc : conn.pc with
    | reading => exact absurd hpc hbusy
    | closed => exact absurd hpc hopen
    | _ => simp [ConnPc.remaining]
  obtain ⟨⟨hrec, hasked⟩, hrank⟩ := Machine.exec_rank_along (Action.isConn c)
    (fun s => s.remaining ⟨c, conn.served⟩) (G := fun _ a => a.drops c = false)
    (I := fun os s => Records env s ∧ Asked ⟨c, conn.served⟩ os s)
    ⟨run_records hrun, .pending htask rfl hremaining.1 hlive⟩
    (fun os s a t o hs ha hstep =>
      have hnext := hs.2.step hs.1 ha (step_cases hstep)
      ⟨⟨hs.1.step (step_cases hstep), hnext.1⟩, hnext.2⟩)
    (Machine.along_of_forall hkept) hrest
  refine ⟨?_, hasked.next hrec⟩
  intro hcount
  have hstart : s.remaining ⟨c, conn.served⟩ = conn.pc.remaining := by
    simp [Daemon.remaining, htask]
  cases hasked with
  | @pending conn' task served busy live =>
    have hleft : t.remaining ⟨c, conn.served⟩ = conn'.pc.remaining := by
      simp only [Daemon.remaining, task, served, if_true]
    omega
  | answered task served shown => exact ⟨_, shown⟩

end

/-- A client has sent a `get` on a connection to a project. -/
def pendingRun : List Action :=
  Action.register ⟨"web", 0⟩ "/srv/web" "web" 0 ++ Action.connect ⟨⟨"web", 0⟩, 0⟩ ++
    [.conn ⟨⟨"web", 0⟩, 0⟩ (.receive (.ok (.get "A")) 0)]

/-- The daemon fetches the value while the manifest is reloaded. -/
def fetchedRun : List Action :=
  [.admin ⟨"web", 1⟩ (.submit .reload), .admin ⟨"web", 1⟩ .lookupProject] ++
    (Action.fetch ⟨⟨"web", 0⟩, 0⟩ "A" 0).tail

theorem request_answered_reloading : ∃ s tr t os r,
    run webEnv (some 0) (fun _ => none) pendingRun = some (s, tr) ∧
    Machine.exec (step webEnv) s fetchedRun = some (t, os) ∧
    .answered ⟨⟨⟨"web", 0⟩, 0⟩, 0⟩ r ∈ os := by
  have hfacts : (run webEnv (some 0) (fun _ => none) pendingRun).bind (fun r =>
      (Machine.exec (step webEnv) r.1 fetchedRun).bind fun _ =>
        (r.1.conns ⟨⟨"web", 0⟩, 0⟩).map fun conn =>
          (conn.served, conn.pc.remaining, conn.cancelled)) = some (0, 9, false) := by
    decide +kernel
  obtain ⟨⟨s, tr⟩, hrun, hs⟩ := Option.bind_eq_some_iff.mp hfacts
  obtain ⟨⟨t, os⟩, hrest, ht⟩ := Option.bind_eq_some_iff.mp hs
  obtain ⟨conn, hconn, heq⟩ := Option.map_eq_some_iff.mp ht
  simp only [Prod.mk.injEq] at heq
  obtain ⟨hserved, hremaining, hlive⟩ := heq
  have hpc : conn.pc ≠ .reading ∧ conn.pc ≠ .closed := by
    constructor <;> (intro hpc; rw [hpc] at hremaining; cases hremaining)
  have hanswer := (request_answered hrun hconn hpc.1 hpc.2 hlive hrest (by decide)).1 (by decide)
  rw [hserved] at hanswer
  obtain ⟨r, hr⟩ := hanswer
  exact ⟨s, tr, t, os, r, hrun, hrest, hr⟩

section
variable {env : Env} {s t : Daemon} {o tr : List Obs} {id : AdminId}

/-! ### Admin requests -/

/-- An admin request is in progress, or has been answered. -/
inductive Requested (id : AdminId) (tr : List Obs) (s : Daemon) : Prop where
  | pending {current} (task : s.requests id = some current) (busy : 0 < current.remaining)
  | answered {response} (task : s.requests id = some (.done response))
      (shown : .replied id response ∈ tr)

def Daemon.adminRemaining (s : Daemon) (id : AdminId) : Nat :=
  (s.requests id).elim 0 AdminTask.remaining

/-- A step of a request brings it closer to the answer. -/
theorem AdminStep.remaining {a : AdminAction} {task : AdminTask} (step : AdminStep env s id a t o)
    (before : s.requests id = some task) :
    ∃ task', t.requests id = some task' ∧ task'.remaining < task.remaining ∧
      (0 < task'.remaining ∨ ∃ response, task' = .done response ∧ .replied id response ∈ o) := by
  cases step with
  | submit absent => cases absent.symm.trans before
  | registerFailed current | projectExists current | bindFailed current | inserted current
  | unregisterUnknown current | unlinked current | reloadUnknown current | reloadFailed current
  | stored current =>
    cases current.symm.trans before
    exact ⟨_, Function.update_self .., by simp [AdminTask.remaining], .inr ⟨_, rfl, by simp⟩⟩
  | registerLoaded current | bound current | spawned current | removed current | notified current
  | taken current | noTask current | joined current | timedOut current | lookedUp current
  | reloadLoaded current | configured current =>
    cases current.symm.trans before
    exact ⟨_, Function.update_self .., by simp [AdminTask.remaining],
      .inl (by simp [AdminTask.remaining])⟩

theorem DaemonStep.request_kept {a : Action} (step : DaemonStep env s a t o)
    (hown : a.isAdmin id = false) : t.requests id = s.requests id := by
  cases step with
  | @admin id' a t o step =>
    obtain ⟨task, hrequests⟩ := step.requests_eq
    have hne : id ≠ id' := by
      rintro rfl
      simp [Action.isAdmin] at hown
    rw [hrequests, Function.update_of_ne hne]
  | loop step => rw [step.frame.2.2.1]
  | conn | rotate | status | writer => rfl

theorem Requested.step {a : Action} (h : Requested id tr s) (step : DaemonStep env s a t o) :
    Requested id (tr ++ o) t ∧
      t.adminRemaining id ≤ s.adminRemaining id - if a.isAdmin id then 1 else 0 := by
  by_cases hown : a.isAdmin id = true
  · cases step with
    | @admin id' a t o step =>
      obtain rfl : id' = id := by simpa [Action.isAdmin] using hown
      simp only [hown, if_true]
      cases h with
      | @pending task before busy =>
        obtain ⟨task', after, hless, hnext⟩ := step.remaining before
        refine ⟨?_, by simp only [Daemon.adminRemaining, before, after, Option.elim_some]; omega⟩
        rcases hnext with hbusy | ⟨response, rfl, hshown⟩
        · exact .pending after hbusy
        · exact .answered after (List.mem_append_right tr hshown)
      | answered before shown =>
        obtain ⟨task', -, hless, -⟩ := step.remaining before
        exact absurd hless (Nat.not_lt_zero _)
    | _ => cases hown
  · have hsame : t.requests id = s.requests id := step.request_kept (by simpa using hown)
    refine ⟨?_, by simp [Daemon.adminRemaining, hsame, hown]⟩
    cases h with
    | pending before busy => exact .pending (hsame.trans before) busy
    | answered before shown => exact .answered (hsame.trans before) (List.mem_append_left o shown)

/-- Only finitely many registrations have a record. -/
def Daemon.Finite (s : Daemon) : Prop := ∃ n, ∀ reg, (s.projects reg).isSome → reg.gen < n

theorem Daemon.Finite.update {reg : RegId} {p : Project} (h : s.Finite)
    (hprojects : t.projects = Function.update s.projects reg (some p)) : t.Finite := by
  obtain ⟨n, hn⟩ := h
  refine ⟨max n (reg.gen + 1), fun reg' hsome => ?_⟩
  by_cases hreg : reg' = reg
  · subst hreg
    omega
  · rw [hprojects, Function.update_of_ne hreg] at hsome
    have := hn reg' hsome
    omega

theorem Daemon.Finite.step {a : Action} (h : s.Finite) (step : DaemonStep env s a t o) :
    t.Finite := by
  cases step with
  | admin step =>
    cases step with
    | bound | configured | stored => exact h.update rfl
    | _ => exact h
  | conn => exact h.update rfl
  | loop step =>
    obtain ⟨n, hn⟩ := h
    exact ⟨n, fun reg hsome => hn reg (step.projects_eq ▸ hsome)⟩
  | rotate | status | writer => exact h

end

end RemoBroker
