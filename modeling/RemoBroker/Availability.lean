import RemoBroker.Isolation
import RemoBroker.Lifecycle.Agreement
import RemoBroker.Liveness

/-! A registered project stays reachable.  Until an `unregister` of its name is made or the daemon
shuts down, the project is in the registry, its socket file is the one that its listener bound, and
its accept loop takes the next connection after a few steps of its own, whatever its connections,
failed accepts and the requests for other projects do. -/

namespace RemoBroker

/-- An `unregister` that has not been answered. -/
def AdminTask.isUnregister : AdminTask → Bool
  | .unregister => true
  | task => task.leaving

/-- The number of steps of the loop before it has accepted a connection that waits for it. -/
def AcceptLoop.untilAccepted (l : AcceptLoop) : Nat :=
  match l.pc with
  | .accepted | .stopped => 0
  | .polled => 1
  | .polling => 2
  | .starting | .parked => 3
  | .backoff => 4

/-- No abort of the connection was requested; if it has ended, its handler has returned from a read
or a write. -/
def Conn.EndsItself (as : List Action) (c : ConnId) (conn : Conn) : Prop :=
  conn.cancelled = false ∧ (conn.isClosed = true → .conn c .close ∈ as)

/-- The name `n` in a run with the actions `as`, as long as no `unregister` of it is made. -/
structure Stays (env : Env) (as : List Action) (n : String) (s : Daemon) : Prop where
  slot : isValidProjectName n = true → ∃ σ, Slot.Holds env s n σ
  calm : ∀ id task, id.name = n → s.requests id = some task → task.isUnregister = false
  registered : ∀ id path, id.name = n → s.requests id = some (.done (.registered path)) →
    ∃ reg, s.inner.lookup n = some reg ∧ (s.loops reg).isSome
  conns : ∀ c conn, c.reg.name = n → s.conns c = some conn → conn.EndsItself as c

section
variable {env : Env} {s t : Daemon} {o : List Obs} {id : AdminId} {reg : RegId} {n : String}
  {as : List Action}

theorem AcceptLoop.step_nearer {l : AcceptLoop} {k : Nat} (hn : l.notified = false)
    (hk : l.untilAccepted = k + 1) :
    ∃ a l', l.pc ≠ .accepted ∧ l.step a = some l' ∧ l'.untilAccepted = k := by
  obtain ⟨pc, notified⟩ := l
  cases hn
  cases pc with
  | starting => exact ⟨.iterate, _, by simp, rfl, Nat.succ.inj hk⟩
  | polling => exact ⟨.pollStop, _, by simp, rfl, Nat.succ.inj hk⟩
  | polled => exact ⟨.acceptOk, _, by simp, rfl, Nat.succ.inj hk⟩
  | parked => exact ⟨.wake, _, by simp, rfl, Nat.succ.inj hk⟩
  | backoff => exact ⟨.finishBranch, _, by simp, rfl, Nat.succ.inj hk⟩
  | accepted => cases hk
  | stopped => cases hk

theorem AcceptLoop.untilAccepted_le (l : AcceptLoop) : l.untilAccepted ≤ 4 := by
  obtain ⟨pc, notified⟩ := l
  cases pc <;> simp [untilAccepted]

theorem AcceptLoop.accepted_of_untilAccepted {l : AcceptLoop} (hrunning : l.running = true)
    (h : l.untilAccepted = 0) : l.pc = .accepted := by
  obtain ⟨pc, notified⟩ := l
  cases pc with
  | accepted => rfl
  | stopped => cases hrunning
  | _ => cases h

theorem step_select {task : LoopTask} {l l' : AcceptLoop} {a : AcceptAction}
    (hloop : s.loops reg = some task) (hstate : task.state = .accepting l)
    (hpc : l.pc ≠ .accepted) (ha : l.step a = some l') (hrunning : l'.running = true) :
    step env s (.loop reg (.select a)) =
      some (s.setLoop reg { task with state := .accepting l' }, []) := by
  simp [step, loopStep, hloop, hstate, hpc, ha, LoopState.ofAccept, hrunning]

theorem step_spawn {task : LoopTask} {l : AcceptLoop} {num : Nat} {pid : Option Int}
    {uid : Option UInt32} (hloop : s.loops reg = some task) (hstate : task.state = .accepting l)
    (hpc : l.pc = .accepted) (hfree : s.conns ⟨reg, num⟩ = none) :
    ∃ t, step env s (.loop reg (.spawn num pid uid)) = some (t, []) ∧
      t.conns ⟨reg, num⟩ = some ⟨pid, uid, 0, .reading, false⟩ := by
  simp [step, loopStep, hloop, hstate, hpc, hfree, AcceptLoop.step]

/-- A loop that has not been told to stop takes a connection by its own steps. -/
theorem Daemon.Untouched.accepts {num : Nat} (pid : Option Int) (uid : Option UInt32)
    (h : s.Untouched reg) (hfree : s.conns ⟨reg, num⟩ = none) :
    ∃ bs t, bs.length ≤ 5 ∧ (∀ b ∈ bs, ∃ a, b = .loop reg a) ∧
      Machine.exec (step env) s bs = some (t, []) ∧
      t.conns ⟨reg, num⟩ = some ⟨pid, uid, 0, .reading, false⟩ := by
  obtain ⟨task, l, hloop, hstate, hn, hrunning⟩ := h
  have hle := l.untilAccepted_le
  generalize hk : l.untilAccepted = k at hle
  suffices hexact : ∃ bs t, bs.length = k + 1 ∧ (∀ b ∈ bs, ∃ a, b = .loop reg a) ∧
      Machine.exec (step env) s bs = some (t, []) ∧
      t.conns ⟨reg, num⟩ = some ⟨pid, uid, 0, .reading, false⟩ by
    obtain ⟨bs, t, hlength, hrest⟩ := hexact
    exact ⟨bs, t, by omega, hrest⟩
  clear hle
  induction k generalizing s task l with
  | zero =>
    obtain ⟨t, hstep, hconn⟩ := step_spawn hloop hstate
      (AcceptLoop.accepted_of_untilAccepted hrunning hk) hfree
    refine ⟨[.loop reg (.spawn num pid uid)], t, rfl, by simp, ?_, hconn⟩
    exact Machine.exec_cons hstep rfl
  | succ k ih =>
    obtain ⟨a, l', hpc, ha, hk'⟩ := AcceptLoop.step_nearer hn hk
    obtain ⟨hn', hrunning'⟩ := AcceptLoop.step_running ha hn
    have hstep : step env s (.loop reg (.select a)) = _ :=
      step_select hloop hstate hpc ha hrunning'
    obtain ⟨bs, t, hlength, hown, hrun, hconn⟩ := @ih
      (s.setLoop reg { task with state := .accepting l' }) hfree
      { task with state := .accepting l' } l' (Function.update_self ..) rfl hn' hrunning' hk'
    refine ⟨.loop reg (.select a) :: bs, t, by simp [hlength], ?_, ?_, hconn⟩
    · intro b hb
      rcases List.mem_cons.mp hb with rfl | hb
      · exact ⟨_, rfl⟩
      · exact hown b hb
    · exact Machine.exec_cons hstep hrun

theorem Conn.not_closed {conn : Conn} (h : 0 < conn.pc.remaining) : conn.isClosed = false := by
  obtain ⟨pid, uid, served, pc, cancelled⟩ := conn
  cases pc with
  | closed => cases h
  | _ => rfl

/-- A connection ends only by an action of its own. -/
theorem ConnStep.close_of_closed {backend : Option Session} {q : RequestId} {p p' : Project}
    {conn conn' : Conn} {a : ConnAction} (step : ConnStep env backend q p conn a p' conn' o)
    (h : conn'.isClosed = true) : a = .close := by
  cases step with
  | closed => rfl
  | dispatched pc => cases (Conn.not_closed dispatchProject_remaining.1).symm.trans h
  | lookedUp pc => cases (Conn.not_closed afterLookup_remaining.1).symm.trans h
  | returned pc => cases (Conn.not_closed afterReturn_remaining.1).symm.trans h
  | _ => cases h

theorem Slot.Holds.staying {σ : Option Slot} (h : Slot.Holds env s n σ)
    (found : s.inner.lookup n = some reg) : ∃ boot, σ = some ⟨reg, boot, .staying⟩ := by
  rw [h.inner] at found
  cases σ with
  | none => cases found
  | some x =>
    obtain ⟨reg', boot, leave⟩ := x
    cases leave with
    | staying =>
      cases found
      exact ⟨boot, rfl⟩
    | _ => cases found

/-- The loop of a project in the registry, once it is there, has not been told to stop. -/
theorem Slot.Holds.untouched {σ : Option Slot} (h : Slot.Holds env s n σ)
    (found : s.inner.lookup n = some reg) (hloop : (s.loops reg).isSome) : s.Untouched reg := by
  obtain ⟨boot, rfl⟩ := h.staying found
  have hown := (h.own _ rfl).2
  cases boot with
  | spawning id =>
    rw [show s.loops reg = none from hown] at hloop
    cases hloop
  | inserting id => exact hown
  | done => exact hown

theorem AdminTask.isUnregister_of_leaving {task : AdminTask} (h : task.leaving = true) :
    task.isUnregister = true := by
  cases task <;> first | exact h | rfl

theorem Stays.not_leaving (h : Stays env as n s) {task : AdminTask} (hid : id.name = n)
    (htask : s.requests id = some task) : task.leaving = false := by
  by_contra hleaving
  have hunregister := AdminTask.isUnregister_of_leaving (by simpa using hleaving)
  cases (h.calm id task hid htask).symm.trans hunregister

/-- What a step for the name may do while no `unregister` of it is in progress. -/
theorem Stays.noOverlap {a : AdminAction} (h : Stays env as id.name s)
    (step : AdminStep env s id a t o) : NoOverlap s (.admin id a) := by
  have hno : ∀ {task}, s.requests id = some task → task.isUnregister = true → False :=
    fun htask hdep => by cases (h.calm id _ rfl htask).symm.trans hdep
  cases step with
  | taken task | noTask task | unlinked task => exact (hno task rfl).elim
  | projectExists | bindFailed | bound => exact fun _ _ hid htask => h.not_leaving hid htask
  | _ => trivial

theorem Stays.slot_staying {x : Slot} (h : Stays env as n s) (hx : Slot.Holds env s n (some x)) :
    x.leave = .staying := by
  obtain ⟨reg, boot, leave⟩ := x
  have hno : ∀ id task, (id, task) ∈ leave.pending reg → False := by
    intro id task hmem
    have hpending : (id, task) ∈ (⟨reg, boot, leave⟩ : Slot).pending :=
      List.mem_append_right _ hmem
    have hstays := h.not_leaving (hx.named _ rfl id task hpending) (hx.request_of_mem hpending)
    cases hstays.symm.trans (Slot.leaving_of_mem hmem)
  cases leave with
  | staying => rfl
  | notifying id | taking id | joining id | unlinking id =>
    exact (hno id _ (List.mem_singleton_self _)).elim

/-- The loop of a registration of the name is the one of the project in the registry, and has not
been told to stop. -/
theorem Stays.loop (h : Stays env as n s) (hvalid : isValidProjectName n = true)
    (hreg : reg.name = n) (halive : s.loopAlive reg = true) :
    s.inner.lookup n = some reg ∧ s.Untouched reg := by
  obtain ⟨σ, hσ⟩ := h.slot hvalid
  obtain ⟨x, rfl, rfl⟩ : ∃ x, σ = some x ∧ x.reg = reg := by
    by_contra hno
    have hdead := hσ.others reg hreg fun x hx heq => hno ⟨x, hx, heq⟩
    cases hdead.symm.trans halive
  have hstaying := h.slot_staying hσ
  obtain ⟨reg, boot, leave⟩ := x
  cases hstaying
  refine ⟨hσ.inner, hσ.untouched hσ.inner ?_⟩
  unfold Daemon.loopAlive at halive
  cases hloop : s.loops reg with
  | none => simp [hloop] at halive
  | some task => rfl

/-- A `register` that stores its handle has its project in the registry and its loop running. -/
theorem Stays.inserting (h : Stays env as id.name s) (hvalid : isValidProjectName id.name = true)
    (htask : s.requests id = some (.inserting reg)) :
    s.inner.lookup id.name = some reg ∧ (s.loops reg).isSome := by
  obtain ⟨σ, hσ⟩ := h.slot hvalid
  obtain ⟨x, rfl, hmem⟩ := (hσ.requests id _ rfl rfl).mp htask
  have hstaying := h.slot_staying hσ
  obtain ⟨leave, rfl⟩ := Slot.at_of_mem hmem
  cases hstaying
  obtain ⟨task, l, hloop, -⟩ : s.Untouched reg := (hσ.own _ rfl).2
  exact ⟨hσ.inner, by rw [hloop]; rfl⟩

/-- What a step of a `register` or `reload` leaves of the name, and where its request stands. -/
structure Keeps (s : Daemon) (id : AdminId) (task : AdminTask) (t : Daemon) : Prop where
  requests : t.requests = Function.update s.requests id (some task)
  calm : task.isUnregister = false
  inner : ∀ reg, s.inner.lookup id.name = some reg → t.inner.lookup id.name = some reg
  loops : ∀ reg, (s.loops reg).isSome → (t.loops reg).isSome
  conns : t.conns = s.conns
  registered : ∀ path, task = .done (.registered path) →
    ∃ reg, s.requests id = some (.inserting reg)

theorem adminErrorFor_ne_registered {debug : String → String} {e : RegistryError} {path : String} :
    AdminTask.done (adminErrorFor debug e) ≠ .done (.registered path) := by
  cases e <;> simp [adminErrorFor]

theorem AdminStep.keeps {a : AdminAction} (step : AdminStep env s id a t o)
    (hcalm : ∀ task, s.requests id = some task → task.isUnregister = false)
    (hsubmit : a ≠ .submit .unregister) : ∃ task, Keeps s id task t := by
  have hno : ∀ {task}, s.requests id = some task → task.isUnregister = true → False :=
    fun htask hdep => by cases (hcalm _ htask).symm.trans hdep
  cases step with
  | @submit op task =>
    refine ⟨op.start, rfl, ?_, fun _ h => h, fun _ h => h, rfl, ?_⟩
    · cases op with
      | unregister => exact absurd rfl hsubmit
      | _ => rfl
    · cases op <;> exact fun _ h => nomatch h
  | bound task absent fresh bind =>
    refine ⟨_, rfl, rfl, fun reg found => ?_, fun _ h => h, rfl, fun _ h => nomatch h⟩
    cases found.symm.trans absent
  | spawned task =>
    exact ⟨_, rfl, rfl, fun _ h => h, fun _ h => Function.update_isSome h, rfl,
      fun _ h => nomatch h⟩
  | inserted task project =>
    exact ⟨_, rfl, rfl, fun _ h => h, fun _ h => h, rfl, fun _ _ => ⟨_, task⟩⟩
  | unregisterUnknown task | removed task | notified task | taken task | noTask task
  | joined task | timedOut task | unlinked task => exact (hno task rfl).elim
  | registerFailed | projectExists | bindFailed | reloadUnknown | reloadFailed =>
    exact ⟨_, rfl, rfl, fun _ h => h, fun _ h => h, rfl,
      fun _ h => absurd h adminErrorFor_ne_registered⟩
  | registerLoaded | lookedUp | reloadLoaded | configured | stored =>
    exact ⟨_, rfl, rfl, fun _ h => h, fun _ h => h, rfl, fun _ h => nomatch h⟩

theorem Stays.admin {a : AdminAction} (h : Stays env as id.name s) (hrec : Records env s)
    (hsubmit : a ≠ .submit .unregister) (step : AdminStep env s id a t o) :
    Stays env as id.name t := by
  obtain ⟨task, keeps⟩ := step.keeps (fun task => h.calm id task rfl) hsubmit
  constructor
  · intro hvalid
    obtain ⟨σ, hσ⟩ := h.slot hvalid
    exact hσ.admin hrec step (h.noOverlap step)
  · intro id' task' hid htask
    rw [keeps.requests] at htask
    by_cases hsame : id' = id
    · rw [hsame, Function.update_self] at htask
      cases htask
      exact keeps.calm
    · rw [Function.update_of_ne hsame] at htask
      exact h.calm id' task' hid htask
  · intro id' path hid htask
    rw [keeps.requests] at htask
    obtain ⟨reg, hinner, hloop⟩ : ∃ reg, s.inner.lookup id.name = some reg ∧
        (s.loops reg).isSome := by
      by_cases hsame : id' = id
      · rw [hsame, Function.update_self] at htask
        obtain ⟨reg, hold⟩ := keeps.registered path (Option.some.inj htask)
        obtain ⟨hname, hproject⟩ := hrec.request id _ hold reg List.mem_cons_self
        exact ⟨reg, h.inserting (hname ▸ hrec.valid_name hproject) hold⟩
      · rw [Function.update_of_ne hsame] at htask
        exact h.registered id' path hid htask
    exact ⟨reg, keeps.inner reg hinner, keeps.loops reg hloop⟩
  · rw [keeps.conns]
    exact h.conns

theorem Stays.loopStep {a : LoopAction} (h : Stays env as n s) (hrec : Records env s)
    (step : LoopStep s reg a t) : Stays env as n t := by
  obtain ⟨hinner, htasks, hrequests, hfiles⟩ := step.frame
  constructor
  · intro hvalid
    obtain ⟨σ, hσ⟩ := h.slot hvalid
    exact ⟨σ, hσ.loopStep step⟩
  · rw [hrequests]
    exact h.calm
  · rw [hrequests, hinner]
    intro id path hid htask
    obtain ⟨reg', found, hloop⟩ := h.registered id path hid htask
    refine ⟨reg', found, ?_⟩
    cases step with
    | aborted => exact hloop
    | _ => exact Function.update_isSome hloop
  · intro c conn hc hconn
    cases step with
    | @spawned task l l' num pid uid _ state pc fresh accept =>
      change Function.update s.conns ⟨reg, num⟩ _ c = some conn at hconn
      by_cases hsame : c = ⟨reg, num⟩
      · rw [hsame, Function.update_self] at hconn
        cases hconn
        exact ⟨rfl, nofun⟩
      · rw [Function.update_of_ne hsame] at hconn
        exact h.conns c conn hc hconn
    | @aborted task hloop hstate =>
      -- A drained loop has been told to stop.
      by_cases hreg : c.reg = reg
      · have hvalid : isValidProjectName n = true := by
          rw [← hc, hreg]
          exact hrec.valid_name (hrec.loop reg (by rw [hloop]; rfl))
        have halive : s.loopAlive reg = true := by
          simp [Daemon.loopAlive, hloop, LoopTask.alive, hstate]
        obtain ⟨-, task', l, hloop', haccepting, -⟩ := h.loop hvalid (hreg ▸ hc) halive
        cases hloop.symm.trans hloop'
        cases hstate.symm.trans haccepting
      · have hsame : s.conns c = some conn := by
          simpa [Daemon.abortConns, hreg] using hconn
        exact h.conns c conn hc hsame
    | _ => exact h.conns c conn hc hconn

theorem Stays.congr (h : Stays env as n s) (hrec : Records env s) (same : SameFor n s t)
    (hslot : isValidProjectName n = true → SameName env s t n) : Stays env as n t := by
  constructor
  · intro hvalid
    obtain ⟨σ, hσ⟩ := h.slot hvalid
    exact ⟨σ, hσ.congr (hslot hvalid)⟩
  · intro id task hid htask
    exact h.calm id task hid (same.requests id hid ▸ htask)
  · intro id path hid htask
    obtain ⟨reg, found, hloop⟩ := h.registered id path hid (same.requests id hid ▸ htask)
    have hreg := (hrec.inner n reg found).1
    exact ⟨reg, same.inner.trans found, by rwa [same.loops reg hreg]⟩
  · intro c conn hc hconn
    exact h.conns c conn hc (same.conns c hc ▸ hconn)

theorem Stays.step {a : Action} (h : Stays env as n s) (hrec : Records env s) (ha : a ∈ as)
    (hname : ∀ id, a = .admin id (.submit .unregister) → id.name ≠ n)
    (step : DaemonStep env s a t o) : Stays env as n t := by
  cases step with
  | @admin id a t o step =>
    by_cases hid : id.name = n
    · subst hid
      exact h.admin hrec (fun heq => hname id (heq ▸ rfl) rfl) step
    · exact h.congr hrec (step.sameFor hrec hid) fun hvalid =>
        step.sameName hrec (Ne.symm hid) hvalid
  | loop step => exact h.loopStep hrec step
  | @conn c a conn p p' conn' o task project step =>
    refine ⟨fun hvalid => ?_, h.calm, h.registered, ?_⟩
    · obtain ⟨σ, hσ⟩ := h.slot hvalid
      exact ⟨σ, hσ.congr ⟨rfl, rfl, rfl, fun _ _ => rfl, fun _ _ _ _ => Iff.rfl⟩⟩
    · intro c' conn₁ hc hconn
      change Function.update s.conns c _ c' = some conn₁ at hconn
      by_cases hsame : c' = c
      · rw [hsame, Function.update_self] at hconn
        cases hconn
        refine ⟨step.cancelled_eq.trans (h.conns c conn (hsame ▸ hc) task).1, fun hclosed => ?_⟩
        rw [hsame, ← step.close_of_closed hclosed]
        exact ha
      · rw [Function.update_of_ne hsame] at hconn
        exact h.conns c' conn₁ hc hconn
  | rotate | status | writer =>
    refine ⟨fun hvalid => ?_, h.calm, h.registered, h.conns⟩
    obtain ⟨σ, hσ⟩ := h.slot hvalid
    exact ⟨σ, hσ.congr ⟨rfl, rfl, rfl, fun _ _ => rfl, fun _ _ _ _ => Iff.rfl⟩⟩

theorem run_stays {backend : Option Session} {stale : Daemon.Stale} {tr : List Obs}
    (hname : ∀ id, .admin id (.submit .unregister) ∈ as → id.name ≠ n)
    (hrun : run env backend stale as = some (s, tr)) : Records env s ∧ Stays env as n s := by
  refine Machine.exec_invariant_along (I := fun s => Records env s ∧ Stays env as n s)
    (G := fun _ a => a ∈ as) ⟨Records.initial, ?_⟩ ?_
    (Machine.along_of_forall fun a ha => ha) hrun
  · constructor
    · exact Slots.initial n
    · rintro id task - ⟨⟩
    · rintro id path - ⟨⟩
    · rintro c conn - ⟨⟩
  · intro s a t o h ha hstep
    have hstep := step_cases hstep
    exact ⟨h.1.step hstep, h.2.step h.1 ha (fun id heq => hname id (heq ▸ ha)) hstep⟩

end

/-- Once a `register` is answered, and until an `unregister` of the name is made, the project is in
the registry with its socket file, its accept loop has the next connection after at most five steps
of its own, and none of its connections was aborted. -/
theorem registered_available {env : Env} {backend : Option Session} {stale : Daemon.Stale}
    {as : List Action} {s : Daemon} {tr : List Obs} {id : AdminId} {path : String}
    (hname : ∀ id', .admin id' (.submit .unregister) ∈ as → id'.name ≠ id.name)
    (hrun : run env backend stale as = some (s, tr))
    (hdone : s.requests id = some (.done (.registered path))) :
    ∃ reg, reg.name = id.name ∧ s.inner.lookup id.name = some reg ∧ s.Bound env reg ∧
      (∀ num pid uid, s.conns ⟨reg, num⟩ = none →
        ∃ bs t, bs.length ≤ 5 ∧ (∀ b ∈ bs, ∃ a, b = .loop reg a) ∧
          Machine.exec (step env) s bs = some (t, []) ∧
          t.conns ⟨reg, num⟩ = some ⟨pid, uid, 0, .reading, false⟩) ∧
      ∀ num conn, s.conns ⟨reg, num⟩ = some conn → conn.EndsItself as ⟨reg, num⟩ := by
  obtain ⟨hrec, hstays⟩ := run_stays hname hrun
  obtain ⟨reg, found, hloop⟩ := hstays.registered id path rfl hdone
  obtain ⟨hreg, hproject⟩ := hrec.inner _ _ found
  obtain ⟨σ, hσ⟩ := hstays.slot (hreg ▸ hrec.valid_name hproject)
  obtain ⟨boot, hslot⟩ := hσ.staying found
  refine ⟨reg, hreg, found, (hσ.file reg hreg).mpr ⟨_, hslot, rfl⟩, ?_, ?_⟩
  · exact fun num pid uid hfree => (hσ.untouched found hloop).accepts pid uid hfree
  · exact fun num conn hconn => hstays.conns _ conn hreg hconn

/-- The project has a connection that goes away, a failed `accept()`, and an `unregister` of another
name. -/
def disturbedRun : List Action :=
  Action.register ⟨"web", 0⟩ "/srv/web" "web" 0 ++ Action.connect ⟨⟨"web", 0⟩, 0⟩ ++
    [.conn ⟨⟨"web", 0⟩, 0⟩ .close] ++
    [.select .iterate, .select .pollStop, .select .acceptErr].map (.loop ⟨"web", 0⟩) ++
    [.submit .unregister, .removeProject].map (.admin ⟨"db", 1⟩)

theorem registered_available_disturbed : ∃ s tr path,
    run webEnv (some 0) (fun _ => none) disturbedRun = some (s, tr) ∧
    s.requests ⟨"web", 0⟩ = some (.done (.registered path)) ∧
    ∃ reg, reg.name = "web" ∧ s.inner.lookup "web" = some reg ∧ s.Bound webEnv reg ∧
      (∀ num pid uid, s.conns ⟨reg, num⟩ = none →
        ∃ bs t, bs.length ≤ 5 ∧ (∀ b ∈ bs, ∃ a, b = .loop reg a) ∧
          Machine.exec (step webEnv) s bs = some (t, []) ∧
          t.conns ⟨reg, num⟩ = some ⟨pid, uid, 0, .reading, false⟩) ∧
      ∀ num conn, s.conns ⟨reg, num⟩ = some conn →
        conn.EndsItself disturbedRun ⟨reg, num⟩ := by
  have hfacts : (run webEnv (some 0) (fun _ => none) disturbedRun).bind (fun r =>
      (r.1.requests ⟨"web", 0⟩).bind fun task => match task with
        | .done (.registered path) => some path
        | _ => none) = some "/run/remo-broker/web.sock" := by
    decide +kernel
  obtain ⟨⟨s, tr⟩, hrun, hs⟩ := Option.bind_eq_some_iff.mp hfacts
  obtain ⟨task, htask, hpath⟩ := Option.bind_eq_some_iff.mp hs
  obtain ⟨path, rfl⟩ : ∃ path, task = .done (.registered path) := by
    split at hpath
    · exact ⟨_, rfl⟩
    · cases hpath
  have hname : ∀ id', .admin id' (.submit .unregister) ∈ disturbedRun → id'.name ≠ "web" := by
    simp [disturbedRun, Action.register, Action.connect]
  exact ⟨s, tr, path, hrun, htask, registered_available hname hrun htask⟩

end RemoBroker
