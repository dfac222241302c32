import RemoBroker.Daemon.Step
import RemoBroker.Lib.Update

/-! What each step of the daemon can do, as relations with one rule for each transition.  The
invariants of the later modules are proved by cases on these rules. -/

namespace RemoBroker

inductive AdminStep (env : Env) (s : Daemon) (id : AdminId) :
    AdminAction → Daemon → List Obs → Prop where
  | submit {op} (task : s.requests id = none) :
      AdminStep env s id (.submit op) (s.setRequest id op.start) []
  | registerFailed {path disk e} (task : s.requests id = some (.register path))
      (load : loadNamed env.toml disk id.name path = .error e) :
      AdminStep env s id (.loadManifest disk) (s.setRequest id (.done (adminErrorFor env.debug e)))
        [.replied id (adminErrorFor env.debug e)]
  | registerLoaded {path disk m mp} (task : s.requests id = some (.register path))
      (load : loadNamed env.toml disk id.name path = .ok (m, mp)) :
      AdminStep env s id (.loadManifest disk) (s.setRequest id (.locking path m mp)) []
  | projectExists {path m mp gen out reg} (task : s.requests id = some (.locking path m mp))
      (found : s.inner.lookup id.name = some reg) :
      AdminStep env s id (.registerLocked gen out)
        (s.setRequest id (.done (adminErrorFor env.debug (.projectExists id.name))))
        [.replied id (adminErrorFor env.debug (.projectExists id.name))]
  | bindFailed {path m mp gen out files e ops} (task : s.requests id = some (.locking path m mp))
      (absent : s.inner.lookup id.name = none) (fresh : s.projects ⟨id.name, gen⟩ = none)
      (bind : bindProjectSocket s.files (socketPathFor env.config.socketDir id.name)
        ⟨id.name, gen⟩ out = (files, .error e, ops)) :
      AdminStep env s id (.registerLocked gen out)
        ({ s with files }.setRequest id (.done (adminErrorFor env.debug e)))
        (fileObs (socketPathFor env.config.socketDir id.name) ops ++
          [.replied id (adminErrorFor env.debug e)])
  | bound {path m mp gen out files ops} (task : s.requests id = some (.locking path m mp))
      (absent : s.inner.lookup id.name = none) (fresh : s.projects ⟨id.name, gen⟩ = none)
      (bind : bindProjectSocket s.files (socketPathFor env.config.socketDir id.name)
        ⟨id.name, gen⟩ out = (files, .ok (), ops)) :
      AdminStep env s id (.registerLocked gen out)
        (({ s with files, inner := s.inner.insert id.name ⟨id.name, gen⟩ }.setProject ⟨id.name, gen⟩
          (Project.create env id.name path m mp)).setRequest id (.spawning ⟨id.name, gen⟩))
        (fileObs (socketPathFor env.config.socketDir id.name) ops ++ [.stored ⟨id.name, gen⟩ m])
  | spawned {reg} (task : s.requests id = some (.spawning reg)) :
      AdminStep env s id .spawnLoop ((s.setLoop reg .new).setRequest id (.inserting reg)) []
  | inserted {reg p} (task : s.requests id = some (.inserting reg))
      (project : s.projects reg = some p) :
      AdminStep env s id .insertTask
        ({ s with projectTasks := s.projectTasks.insert id.name reg }.setRequest id
          (.done (.registered p.socketPath)))
        [.replied id (.registered p.socketPath)]
  | unregisterUnknown (task : s.requests id = some .unregister)
      (absent : s.inner.lookup id.name = none) :
      AdminStep env s id .removeProject
        (s.setRequest id (.done (adminErrorFor env.debug (.projectUnknown id.name))))
        [.replied id (adminErrorFor env.debug (.projectUnknown id.name))]
  | removed {reg} (task : s.requests id = some .unregister)
      (found : s.inner.lookup id.name = some reg) :
      AdminStep env s id .removeProject
        ({ s with inner := s.inner.erase id.name }.setRequest id (.notifying reg)) []
  | notified {reg} (task : s.requests id = some (.notifying reg)) :
      AdminStep env s id .notifyStop ((s.notifyStop reg).setRequest id (.taking reg)) []
  | taken {reg handle} (task : s.requests id = some (.taking reg))
      (found : s.projectTasks.lookup id.name = some handle) :
      AdminStep env s id .takeTask
        ({ s with projectTasks := s.projectTasks.erase id.name }.setRequest id
          (.joining reg handle)) []
  | noTask {reg} (task : s.requests id = some (.taking reg))
      (absent : s.projectTasks.lookup id.name = none) :
      AdminStep env s id .takeTask
        ({ s with projectTasks := s.projectTasks.erase id.name }.setRequest id (.unlinking reg)) []
  | joined {reg handle} (task : s.requests id = some (.joining reg handle))
      (ended : s.loopEnded handle = true) :
      AdminStep env s id .joinTask (s.setRequest id (.unlinking reg)) []
  | timedOut {reg handle} (task : s.requests id = some (.joining reg handle)) :
      AdminStep env s id .abortTask ((s.abortLoop handle).setRequest id (.unlinking reg)) []
  | unlinked {reg p error} (task : s.requests id = some (.unlinking reg))
      (project : s.projects reg = some p) :
      AdminStep env s id (.unlinkSocket error)
        ((s.removeFile p.socketPath error).setRequest id (.done .ok))
        [.file .unlink p.socketPath, .replied id .ok]
  | reloadUnknown (task : s.requests id = some .reload) (absent : s.inner.lookup id.name = none) :
      AdminStep env s id .lookupProject
        (s.setRequest id (.done (adminErrorFor env.debug (.projectUnknown id.name))))
        [.replied id (adminErrorFor env.debug (.projectUnknown id.name))]
  | lookedUp {reg} (task : s.requests id = some .reload)
      (found : s.inner.lookup id.name = some reg) :
      AdminStep env s id .lookupProject (s.setRequest id (.loading reg)) []
  | reloadFailed {reg p disk e} (task : s.requests id = some (.loading reg))
      (project : s.projects reg = some p)
      (load : loadNamed env.toml disk id.name p.projectPath = .error e) :
      AdminStep env s id (.loadManifest disk) (s.setRequest id (.done (adminErrorFor env.debug e)))
        [.replied id (adminErrorFor env.debug e)]
  | reloadLoaded {reg p disk m mp} (task : s.requests id = some (.loading reg))
      (project : s.projects reg = some p)
      (load : loadNamed env.toml disk id.name p.projectPath = .ok (m, mp)) :
      AdminStep env s id (.loadManifest disk) (s.setRequest id (.configuring reg m)) []
  | configured {reg p m} (task : s.requests id = some (.configuring reg m))
      (project : s.projects reg = some p) :
      AdminStep env s id .setConfig
        ((s.setProject reg (p.setConfig env m)).setRequest id (.storing reg m)) []
  | stored {reg p m} (task : s.requests id = some (.storing reg m))
      (project : s.projects reg = some p) :
      AdminStep env s id .storeManifest
        ((s.setProject reg { p with manifest := m }).setRequest id
          (.done (.reloaded m.allowlist.secrets)))
        [.stored reg m, .replied id (.reloaded m.allowlist.secrets)]

inductive ConnStep (env : Env) (backend : Option Session) (q : RequestId) (p : Project)
    (conn : Conn) : ConnAction → Project → Conn → List Obs → Prop where
  | received {line start} (pc : conn.pc = .reading) :
      ConnStep env backend q p conn (.receive line start) p
        { conn with pc := .dispatching line start } [.received q line]
  | dispatched {line start} (pc : conn.pc = .dispatching line start) :
      ConnStep env backend q p conn .dispatch p
        { conn with pc := dispatchProject env p line start } [.dispatched q p.manifest]
  | lookedUp {name start now} (pc : conn.pc = .lookingUp name start) :
      ConnStep env backend q p conn (.lookUp now) { p with cache := (p.cache.get name now).1 }
        { conn with pc := afterLookup name start (p.cache.get name now).2 }
        [.lookedUp q name now (freshEntry p.cache name now)]
  | noSession {name start} (pc : conn.pc = .calling name start) (degraded : backend = none) :
      ConnStep env backend q p conn .call p
        { conn with pc := .emitting ⟨name, .allow, .backendError, start, none, none⟩
                      noSessionResponse } []
  | called {name start session} (pc : conn.pc = .calling name start)
      (configured : backend = some session) :
      ConnStep env backend q p conn .call p { conn with pc := .awaiting name start session }
        [.called q session name]
  | returned {name start session at_} (pc : conn.pc = .awaiting name start session) :
      ConnStep env backend q p conn (.return at_) p
        { conn with pc := afterReturn env name start (env.fnox session name at_) } []
  | inserted {name start value now front} (pc : conn.pc = .inserting name start value) :
      ConnStep env backend q p conn (.insert now front)
        { p with cache := p.cache.insert name value none now front }
        { conn with pc := .readingTtl name start value } [.inserted q name value]
  | readTtl {name start value} (pc : conn.pc = .readingTtl name start value) :
      ConnStep env backend q p conn .readTtl p
        { conn with pc := .emitting ⟨name, .allow, .ok, start, some "fnox", none⟩
                      (.get (GetResponse.utf8 value
                        (saturatingU32 (Duration.asSecs p.cache.defaultTtl)))) } []
  | emitted {event response now utc} (pc : conn.pc = .emitting event response) :
      ConnStep env backend q p conn (.emit now utc) p { conn with pc := .responding response }
        [.recorded q (emitFetch p.name conn event now utc)]
  | started {response} (pc : conn.pc = .responding response) :
      ConnStep env backend q p conn .startWrite p { conn with pc := .writing response }
        [.writing q response]
  | answered {response} (pc : conn.pc = .writing response) :
      ConnStep env backend q p conn .finishWrite p
        { conn with served := conn.served + 1, pc := .reading } [.answered q response]
  | closed (waits : conn.pc.running = false) (opened : conn.isClosed = false)
      (dropped : ∀ name start session, conn.pc = .awaiting name start session →
        conn.cancelled = true) :
      ConnStep env backend q p conn .close p conn.close []

inductive LoopStep (s : Daemon) (reg : RegId) : LoopAction → Daemon → Prop where
  | selected {t l l' a} (task : s.loops reg = some t) (state : t.state = .accepting l)
      (pc : l.pc ≠ .accepted) (accept : l.step a = some l') :
      LoopStep s reg (.select a) (s.setLoop reg { t with state := .ofAccept l' })
  | spawned {t l l' num pid uid} (task : s.loops reg = some t) (state : t.state = .accepting l)
      (pc : l.pc = .accepted) (fresh : s.conns ⟨reg, num⟩ = none)
      (accept : l.step .finishBranch = some l') :
      LoopStep s reg (.spawn num pid uid)
        { s.setLoop reg ⟨.ofAccept l', num :: t.joinSet⟩ with
          conns := Function.update s.conns ⟨reg, num⟩ (some ⟨pid, uid, 0, .reading, false⟩) }
  | joined {t num} (task : s.loops reg = some t) (state : t.state = .draining)
      (closed : ∀ conn, s.conns ⟨reg, num⟩ = some conn → conn.isClosed = true)
      (mem : num ∈ t.joinSet) :
      LoopStep s reg (.joinNext num) (s.setLoop reg { t with joinSet := t.joinSet.erase num })
  | drained {t} (task : s.loops reg = some t) (state : t.state = .draining)
      (empty : t.joinSet = []) :
      LoopStep s reg .drained (s.setLoop reg { t with state := .ended })
  | aborted {t} (task : s.loops reg = some t) (state : t.state = .draining) :
      LoopStep s reg .abortAll { s with conns := Daemon.abortConns s.conns reg t.joinSet }

inductive DaemonStep (env : Env) (s : Daemon) : Action → Daemon → List Obs → Prop where
  | admin {id a t o} (step : AdminStep env s id a t o) : DaemonStep env s (.admin id a) t o
  | conn {c a conn p p' conn' o} (task : s.conns c = some conn)
      (project : s.projects c.reg = some p)
      (step : ConnStep env s.backend ⟨c, conn.served⟩ p conn a p' conn' o) :
      DaemonStep env s (.conn c a)
        { s.setProject c.reg p' with
          conns := Function.update s.conns c (some conn')
          audit := Daemon.recordAll s.audit o } o
  | loop {reg a t} (step : LoopStep s reg a t) : DaemonStep env s (.loop reg a) t []
  | rotate {token rebuilt} :
      DaemonStep env s (.rotate token rebuilt)
        { s with backend := (rotateBootstrap s.backend token rebuilt).1 }
        [.served (rotateBootstrap s.backend token rebuilt).2]
  | status {uptime} : DaemonStep env s (.status uptime) s [.served (dispatchStatus env s uptime)]
  | writer {outs audit} (receive : s.audit.receive env.json outs = some audit) :
      DaemonStep env s (.writer outs) { s with audit } []

variable {env : Env} {s t : Daemon} {o : List Obs}

theorem registerLocked_cases {id : AdminId} {path mp : String} {m : Manifest} {gen : Nat}
    {out : BindOutcome} (task : s.requests id = some (.locking path m mp))
    (h : registerLocked env s id path m mp gen out = some (t, o)) :
    AdminStep env s id (.registerLocked gen out) t o := by
  unfold registerLocked at h
  split at h
  · rename_i reg found
    cases h
    exact .projectExists task found
  · rename_i absent
    dsimp only at h
    split at h
    · cases h
    rename_i fresh
    have fresh : s.projects ⟨id.name, gen⟩ = none := by simpa using fresh
    split at h
    · rename_i files e ops bind
      cases h
      exact .bindFailed task absent fresh bind
    · rename_i files ops bind
      cases h
      exact .bound task absent fresh bind

theorem adminStep_cases {id : AdminId} {a : AdminAction} (h : adminStep env s id a = some (t, o)) :
    AdminStep env s id a t o := by
  unfold adminStep at h
  split at h
  · cases h; exact .submit ‹_›
  · split at h
    · cases h; exact .registerFailed ‹_› ‹_›
    · cases h; exact .registerLoaded ‹_› ‹_›
  · exact registerLocked_cases ‹_› h
  · cases h; exact .spawned ‹_›
  · split at h
    · cases h
    · cases h; exact .inserted ‹_› ‹_›
  · split at h
    · cases h; exact .unregisterUnknown ‹_› ‹_›
    · cases h; exact .removed ‹_› ‹_›
  · cases h; exact .notified ‹_›
  · cases h
    split
    · exact .taken ‹_› ‹_›
    · exact .noTask ‹_› ‹_›
  · split at h
    · cases h; exact .joined ‹_› ‹_›
    · cases h
  · cases h; exact .timedOut ‹_›
  · split at h
    · cases h
    · cases h; exact .unlinked ‹_› ‹_›
  · split at h
    · cases h; exact .reloadUnknown ‹_› ‹_›
    · cases h; exact .lookedUp ‹_› ‹_›
  · split at h
    · cases h
    · split at h
      · cases h; exact .reloadFailed ‹_› ‹_› ‹_›
      · cases h; exact .reloadLoaded ‹_› ‹_› ‹_›
  · split at h
    · cases h
    · cases h; exact .configured ‹_› ‹_›
  · split at h
    · cases h
    · cases h; exact .stored ‹_› ‹_›
  · cases h

theorem connStep_cases {backend : Option Session} {q : RequestId} {p p' : Project}
    {conn conn' : Conn} {a : ConnAction}
    (h : connStep env backend q p conn a = some (p', conn', o)) :
    ConnStep env backend q p conn a p' conn' o := by
  unfold connStep at h
  split at h
  · cases h; exact .received ‹_›
  · rename_i pc
    cases h
    exact .closed (by rw [pc]; rfl) (by simp [Conn.isClosed, pc]) (by simp [pc])
  · cases h; exact .dispatched ‹_›
  · cases h; exact .lookedUp ‹_›
  · split at h
    · cases h; exact .noSession ‹_› rfl
    · cases h; exact .called ‹_› rfl
  · cases h; exact .returned ‹_›
  · cases h; exact .inserted ‹_›
  · cases h; exact .readTtl ‹_›
  · cases h; exact .emitted ‹_›
  · cases h; exact .started ‹_›
  · cases h; exact .answered ‹_›
  · rename_i pc
    cases h
    exact .closed (by rw [pc]; rfl) (by simp [Conn.isClosed, pc]) (by simp [pc])
  · rename_i pc
    split at h
    · rename_i cancelled
      cases h
      exact .closed (by rw [pc]; rfl) (by simp [Conn.isClosed, pc]) fun _ _ _ _ => cancelled
    · cases h
  · cases h

/-- A line is answered at once, denied with a record, or looked up. -/
theorem dispatchProject_cases (env : Env) (p : Project) (line : ProjectLine) (start : Instant) :
    (∃ r, dispatchProject env p line start = .responding r) ∨
      (∃ event r, dispatchProject env p line start = .emitting event r) ∨
      ∃ name, dispatchProject env p line start = .lookingUp name start := by
  unfold dispatchProject
  split
  · exact .inl ⟨_, rfl⟩
  · exact .inl ⟨_, rfl⟩
  · exact .inl ⟨_, rfl⟩
  · split
    · exact .inr (.inr ⟨_, rfl⟩)
    · exact .inr (.inl ⟨_, _, rfl⟩)

theorem loopStep_cases {reg : RegId} {a : LoopAction} (h : loopStep s reg a = some t) :
    LoopStep s reg a t := by
  unfold loopStep at h
  split at h
  · cases h
  rename_i task htask
  split at h
  · split at h
    · cases h
    · rename_i pc
      obtain ⟨l', accept, rfl⟩ := Option.map_eq_some_iff.mp h
      exact .selected htask ‹_› pc accept
  · split at h
    · rename_i hguard
      obtain ⟨l', accept, rfl⟩ := Option.map_eq_some_iff.mp h
      exact .spawned htask ‹_› hguard.1 (Option.isNone_iff_eq_none.mp hguard.2) accept
    · cases h
  · split at h
    · rename_i hguard
      cases h
      exact .joined htask ‹_› (fun conn hconn => by simpa [hconn] using hguard.2) hguard.1
    · cases h
  · split at h
    · cases h; exact .drained htask ‹_› ‹_›
    · cases h
  · cases h; exact .aborted htask ‹_›
  · cases h

theorem step_cases {a : Action} (h : step env s a = some (t, o)) : DaemonStep env s a t o := by
  cases a with
  | admin id a => exact .admin (adminStep_cases h)
  | conn c a =>
    simp only [step, stepConn] at h
    split at h
    · rename_i conn p hconn hproject
      split at h
      · cases h
      · cases h
        exact .conn hconn hproject (connStep_cases ‹_›)
    · cases h
  | loop reg a =>
    obtain ⟨t, hloop, heq⟩ := Option.map_eq_some_iff.mp h
    cases heq
    exact .loop (loopStep_cases hloop)
  | rotate token rebuilt =>
    cases h
    exact .rotate
  | status uptime =>
    cases h
    exact .status
  | writer outs =>
    obtain ⟨audit, hreceive, heq⟩ := Option.map_eq_some_iff.mp h
    cases heq
    exact .writer hreceive

/-- The relation says everything about an admin step. -/
theorem AdminStep.adminStep_eq {id : AdminId} {a : AdminAction} (step : AdminStep env s id a t o) :
    adminStep env s id a = some (t, o) := by
  cases step with
  | projectExists task found => simp [adminStep, task, registerLocked, found, Daemon.finish]
  | bindFailed task absent fresh bind =>
    simp [adminStep, task, registerLocked, absent, fresh, bind, Daemon.finish]
  | bound task absent fresh bind => simp [adminStep, task, registerLocked, absent, fresh, bind]
  | submit task | spawned task | notified task | timedOut task => simp [adminStep, task]
  | registerFailed task h | registerLoaded task h | inserted task h | unregisterUnknown task h
  | removed task h | taken task h | noTask task h | joined task h | unlinked task h
  | reloadUnknown task h | lookedUp task h | configured task h | stored task h =>
    simp [adminStep, task, h, Daemon.finish]
  | reloadFailed task project load | reloadLoaded task project load =>
    simp [adminStep, task, project, load, Daemon.finish]

theorem LoopStep.loopStep_eq {reg : RegId} {a : LoopAction} (step : LoopStep s reg a t) :
    loopStep s reg a = some t := by
  cases step with
  | selected task state pc accept => simp [loopStep, task, state, pc, accept]
  | spawned task state pc fresh accept => simp [loopStep, task, state, pc, fresh, accept]
  | @joined l num task state closed mem =>
    have hall : (s.conns ⟨reg, num⟩).all Conn.isClosed = true := by
      cases hconn : s.conns ⟨reg, num⟩ with
      | none => rfl
      | some conn => exact closed conn hconn
    simp [loopStep, task, state, mem, hall]
  | drained task state empty => simp [loopStep, task, state, empty]
  | aborted task state => simp [loopStep, task, state]

/-- How a step other than one of its own changes a connection. -/
inductive ConnChange : Option Conn → Option Conn → Prop where
  | same {c} : ConnChange c c
  | dropped {conn : Conn} : ConnChange (some conn) (some conn.close)
  | marked {conn : Conn} (running : conn.pc.running = true) :
      ConnChange (some conn) (some { conn with cancelled := true })
  | opened {pid uid} : ConnChange none (some ⟨pid, uid, 0, .reading, false⟩)

theorem Conn.abort_change (conn : Conn) : ConnChange (some conn) (some conn.abort) := by
  unfold Conn.abort
  split
  · exact .marked ‹_›
  · exact .dropped

theorem Action.conn_or (a : Action) : (∃ c b, a = .conn c b) ∨ ∀ c b, a ≠ .conn c b := by
  cases a with
  | conn c b => exact .inl ⟨c, b, rfl⟩
  | _ => exact .inr (by simp)

theorem abortConns_change {conns : ConnId → Option Conn} {reg : RegId} {joinSet : List Nat}
    {c : ConnId} : ConnChange (conns c) (Daemon.abortConns conns reg joinSet c) := by
  unfold Daemon.abortConns
  split
  · cases conns c with
    | none => exact .same
    | some conn => exact conn.abort_change
  · exact .same

theorem AdminStep.connChange {env : Env} {s t : Daemon} {id : AdminId} {a : AdminAction}
    {o : List Obs} (step : AdminStep env s id a t o) (c : ConnId) :
    ConnChange (s.conns c) (t.conns c) := by
  cases step with
  | timedOut => exact abortConns_change
  | _ => exact .same

theorem LoopStep.connChange {s t : Daemon} {reg : RegId} {a : LoopAction}
    (step : LoopStep s reg a t) (c : ConnId) : ConnChange (s.conns c) (t.conns c) := by
  cases step with
  | selected | joined | drained => exact .same
  | aborted => exact abortConns_change
  | @spawned t l l' num pid uid task state pc fresh accept =>
    by_cases hc : c = ⟨reg, num⟩
    · subst hc
      simp only [Function.update_self, fresh]
      exact .opened
    · simp only [Function.update_of_ne hc]
      exact .same

/-- What an admin step does to the records of the projects. -/
inductive ProjectChange (env : Env) (s : Daemon) (id : AdminId) (reg : RegId) :
    Option Project → Prop where
  | same : ProjectChange env s id reg (s.projects reg)
  | created {path m mp} (task : s.requests id = some (.locking path m mp))
      (name : reg.name = id.name) (fresh : s.projects reg = none) :
      ProjectChange env s id reg (some (Project.create env id.name path m mp))
  | configured {p m} (task : s.requests id = some (.configuring reg m))
      (project : s.projects reg = some p) : ProjectChange env s id reg (some (p.setConfig env m))
  | stored {p m} (task : s.requests id = some (.storing reg m))
      (project : s.projects reg = some p) :
      ProjectChange env s id reg (some { p with manifest := m })

theorem ProjectChange.update {env : Env} {s : Daemon} {id : AdminId} {reg' : RegId} {p : Project}
    (change : ProjectChange env s id reg' (some p)) (reg : RegId) :
    ProjectChange env s id reg (Function.update s.projects reg' (some p) reg) := by
  by_cases hreg : reg = reg'
  · subst hreg
    rw [Function.update_self]
    exact change
  · rw [Function.update_of_ne hreg]
    exact .same

theorem AdminStep.projectChange {env : Env} {s t : Daemon} {id : AdminId} {a : AdminAction}
    {o : List Obs} (step : AdminStep env s id a t o) (reg : RegId) :
    ProjectChange env s id reg (t.projects reg) := by
  cases step with
  | bound task absent fresh => exact ProjectChange.update (.created task rfl fresh) reg
  | configured task project => exact ProjectChange.update (.configured task project) reg
  | stored task project => exact ProjectChange.update (.stored task project) reg
  | _ => exact .same

theorem LoopStep.projects_eq {s t : Daemon} {reg : RegId} {a : LoopAction}
    (step : LoopStep s reg a t) : t.projects = s.projects := by
  cases step <;> rfl

theorem ConnStep.project_eq {env : Env} {backend : Option Session} {q : RequestId}
    {p p' : Project} {conn conn' : Conn} {a : ConnAction} {o : List Obs}
    (step : ConnStep env backend q p conn a p' conn' o) : p' = { p with cache := p'.cache } := by
  cases step <;> rfl

theorem ConnStep.isOpen {env : Env} {o : List Obs} {backend : Option Session} {q : RequestId}
    {p p' : Project} {conn conn' : Conn} {a : ConnAction}
    (step : ConnStep env backend q p conn a p' conn' o) : conn.isClosed = false := by
  cases step with
  | closed waits opened => exact opened
  | _ pc => simp [Conn.isClosed, pc]

end RemoBroker
