import RemoBroker.Daemon.Inversion

/-! Every task of the daemon works on a project record that exists, and everything that is kept
under a name belongs to a registration of that name. -/

namespace RemoBroker

/-- The registrations that an admin request holds an `Arc<Project>` or a handle of. -/
def AdminTask.regs : AdminTask → List RegId
  | .spawning reg | .inserting reg | .notifying reg | .taking reg | .unlinking reg | .loading reg
  | .configuring reg _ | .storing reg _ => [reg]
  | .joining reg handle => [reg, handle]
  | _ => []

/-- The manifest that an admin request has loaded and not yet stored. -/
def AdminTask.manifest : AdminTask → Option Manifest
  | .locking _ m _ | .configuring _ m | .storing _ m => some m
  | _ => none

structure Records (env : Env) (s : Daemon) : Prop where
  project : ∀ reg p, s.projects reg = some p → p.name = reg.name ∧
    p.socketPath = socketPathFor env.config.socketDir reg.name ∧ p.manifest.project.name = reg.name
  inner : ∀ name reg, s.inner.lookup name = some reg → reg.name = name ∧ (s.projects reg).isSome
  tasks : ∀ name reg, s.projectTasks.lookup name = some reg →
    reg.name = name ∧ (s.projects reg).isSome
  loop : ∀ reg, (s.loops reg).isSome → (s.projects reg).isSome
  conn : ∀ c, (s.conns c).isSome → (s.projects c.reg).isSome
  request : ∀ id task, s.requests id = some task →
    ∀ reg ∈ task.regs, reg.name = id.name ∧ (s.projects reg).isSome
  manifest : ∀ id task, s.requests id = some task →
    ∀ m, task.manifest = some m → m.project.name = id.name
  file : ∀ path reg mode, s.files path = some ⟨.project reg, mode⟩ →
    path = socketPathFor env.config.socketDir reg.name ∧ (s.projects reg).isSome

section
variable {env : Env} {s t : Daemon} {o : List Obs} {id : AdminId} {reg : RegId}

theorem ProjectChange.isSome {new : Option Project} (change : ProjectChange env s id reg new)
    (h : (s.projects reg).isSome) : new.isSome := by
  cases change with
  | same => exact h
  | _ => rfl

theorem DaemonStep.projects_isSome {a : Action} (step : DaemonStep env s a t o)
    (h : (s.projects reg).isSome) : (t.projects reg).isSome := by
  cases step with
  | admin step => exact (step.projectChange reg).isSome h
  | @conn c a conn p p' conn' o task project step =>
    exact Function.update_isSome h
  | loop step => exact step.projects_eq ▸ h
  | rotate | status | writer => exact h

theorem Records.valid_name (h : Records env s) (hreg : (s.projects reg).isSome) :
    isValidProjectName reg.name = true := by
  obtain ⟨p, hp⟩ := Option.isSome_iff_exists.mp hreg
  rw [← (h.project reg p hp).2.2]
  exact p.manifest.name_valid

theorem Records.valid_locking (h : Records env s) {path mp : String} {m : Manifest}
    (task : s.requests id = some (.locking path m mp)) : isValidProjectName id.name = true := by
  rw [← h.manifest id _ task m rfl]
  exact m.name_valid

theorem Records.initial {backend : Option Session} {stale : Daemon.Stale} :
    Records env (Daemon.init env backend stale) := by
  constructor
  case file =>
    intro path reg mode found
    simp only [Daemon.init, bindAdminSocket, bindSocket, BindOutcome.success] at found
    by_cases hp : path = adminPath env.config.socketDir
    · subst hp
      simp at found
    · simp [hp] at found
  all_goals simp [Daemon.init]

theorem ProjectChange.record {p : Project} (change : ProjectChange env s id reg (some p))
    (h : Records env s) :
    p.name = reg.name ∧ p.socketPath = socketPathFor env.config.socketDir reg.name ∧
      p.manifest.project.name = reg.name := by
  generalize hp : some p = new at change
  cases change with
  | same => exact h.project reg p hp.symm
  | created task name fresh =>
    cases hp
    rw [name]
    exact ⟨rfl, rfl, h.manifest _ _ task _ rfl⟩
  | @configured old m task project =>
    cases hp
    exact h.project reg old project
  | @stored old m task project =>
    cases hp
    obtain ⟨hname, hpath, -⟩ := h.project reg old project
    have hreg := h.request _ _ task reg (by simp [AdminTask.regs])
    exact ⟨hname, hpath, (h.manifest _ _ task _ rfl).trans hreg.1.symm⟩

/-- The registrations that an admin request holds after a step: it held them before, they were
kept under its name, or it has just created the record. -/
theorem AdminStep.regs {a : AdminAction} (step : AdminStep env s id a t o) (h : Records env s) :
    ∃ task, t.requests = Function.update s.requests id (some task) ∧
      ∀ reg ∈ task.regs, reg.name = id.name ∧ (t.projects reg).isSome := by
  have keep : ∀ reg, (s.projects reg).isSome → (t.projects reg).isSome :=
    fun reg => (DaemonStep.admin step).projects_isSome
  cases step with
  | submit =>
    rename_i op _
    exact ⟨_, rfl, by cases op <;> simp [AdminOp.start, AdminTask.regs]⟩
  | bound => exact ⟨_, rfl, by simp [AdminTask.regs]⟩
  | removed task found | lookedUp task found =>
    refine ⟨_, rfl, ?_⟩
    simpa [AdminTask.regs] using h.inner _ _ found
  | taken task found =>
    refine ⟨_, rfl, ?_⟩
    have hreg := h.request id _ task
    have hhandle := h.tasks _ _ found
    simp only [AdminTask.regs, List.mem_cons, List.not_mem_nil, or_false, forall_eq_or_imp,
      forall_eq] at hreg ⊢
    exact ⟨⟨hreg.1, hreg.2⟩, ⟨hhandle.1, hhandle.2⟩⟩
  | joined task | timedOut task =>
    refine ⟨_, rfl, ?_⟩
    have hreg := h.request id _ task
    simp only [AdminTask.regs, List.mem_cons, List.not_mem_nil, or_false, forall_eq_or_imp,
      forall_eq] at hreg ⊢
    exact hreg.1
  | spawned task | notified task | noTask task | reloadLoaded task | configured task =>
    refine ⟨_, rfl, ?_⟩
    intro reg hreg
    have hold := h.request id _ task reg (by simpa [AdminTask.regs] using hreg)
    exact ⟨hold.1, keep reg hold.2⟩
  | registerFailed | registerLoaded | projectExists | bindFailed | inserted | unregisterUnknown
  | unlinked | reloadUnknown | reloadFailed | stored =>
    exact ⟨_, rfl, by simp [AdminTask.regs]⟩

theorem AdminStep.held {a : AdminAction} (step : AdminStep env s id a t o) :
    ∃ task, t.requests = Function.update s.requests id (some task) ∧
      ∀ m, task.manifest = some m →
        m.project.name = id.name ∧ m.Validated ∨
          ∃ old, s.requests id = some old ∧ old.manifest = some m := by
  cases step with
  | registerLoaded task load | reloadLoaded task project load =>
    refine ⟨_, rfl, ?_⟩
    rintro m ⟨⟩
    exact .inl ⟨(loadNamed_ok load).1, (loadNamed_ok load).2.1⟩
  | configured task => exact ⟨_, rfl, fun m hm => .inr ⟨_, task, hm⟩⟩
  | submit =>
    rename_i op _
    exact ⟨_, rfl, by cases op <;> simp [AdminOp.start, AdminTask.manifest]⟩
  | registerFailed | projectExists | bindFailed | bound | spawned | inserted | unregisterUnknown
  | removed | notified | taken | noTask | joined | timedOut | unlinked | reloadUnknown | lookedUp
  | reloadFailed | stored => exact ⟨_, rfl, by simp [AdminTask.manifest]⟩

theorem AdminStep.inner_other {a : AdminAction} {name : String} (step : AdminStep env s id a t o)
    (hname : name ≠ id.name) : t.inner.lookup name = s.inner.lookup name := by
  cases step with
  | bound => exact AList.lookup_insert_ne hname
  | removed => exact AList.lookup_erase_ne hname
  | _ => rfl

theorem AdminStep.tasks_other {a : AdminAction} {name : String} (step : AdminStep env s id a t o)
    (hname : name ≠ id.name) : t.projectTasks.lookup name = s.projectTasks.lookup name := by
  cases step with
  | inserted => exact AList.lookup_insert_ne hname
  | taken | noTask => exact AList.lookup_erase_ne hname
  | _ => rfl

/-- A step of an admin request keeps what the registry map holds, removes the name of the request,
or adds the registration that it has just created. -/
theorem AdminStep.inner_lookup {a : AdminAction} (step : AdminStep env s id a t o) {name : String}
    (found : t.inner.lookup name = some reg) :
    s.inner.lookup name = some reg ∨
      name = id.name ∧ reg.name = id.name ∧ (t.projects reg).isSome := by
  by_cases hname : name = id.name
  · subst hname
    cases step with
    | bound =>
      simp only [Daemon.setRequest_inner, Daemon.setProject_inner, AList.lookup_insert,
        Option.some.injEq] at found
      subst found
      exact .inr ⟨rfl, rfl, by simp⟩
    | removed => simp at found
    | _ => exact .inl found
  · exact .inl (step.inner_other hname ▸ found)

theorem AdminStep.tasks_lookup {a : AdminAction} (step : AdminStep env s id a t o) {name : String}
    (found : t.projectTasks.lookup name = some reg) :
    s.projectTasks.lookup name = some reg ∨
      name = id.name ∧ s.requests id = some (.inserting reg) := by
  by_cases hname : name = id.name
  · subst hname
    cases step with
    | inserted task =>
      simp only [Daemon.setRequest_projectTasks, AList.lookup_insert, Option.some.injEq] at found
      subst found
      exact .inr ⟨rfl, task⟩
    | taken | noTask => simp at found
    | _ => exact .inl found
  · exact .inl (step.tasks_other hname ▸ found)

theorem Daemon.removeFile_some {path p : String} {error : Option String} {f : SocketFile}
    (found : (s.removeFile path error).files p = some f) : s.files p = some f := by
  rw [Daemon.removeFile_files] at found
  split at found
  · exact found
  · by_cases hp : p = path
    · simp [hp] at found
    · rwa [Function.update_of_ne hp] at found

theorem AdminStep.file_project {a : AdminAction} (step : AdminStep env s id a t o) {path : String}
    {mode : Nat} (found : t.files path = some ⟨.project reg, mode⟩) :
    s.files path = some ⟨.project reg, mode⟩ ∨
      path = socketPathFor env.config.socketDir reg.name ∧ (t.projects reg).isSome := by
  cases step with
  | bindFailed task absent fresh bind =>
    obtain ⟨hother, hpath⟩ := bindProjectSocket_error bind
    by_cases hp : path = socketPathFor env.config.socketDir id.name
    · subst hp
      simp only [Daemon.setRequest_files] at found
      rcases hpath with hold | hnone | hfailed
      · exact .inl (hold ▸ found)
      · simp [hnone] at found
      · simp [hfailed] at found
    · exact .inl (hother path hp ▸ found)
  | bound task absent fresh bind =>
    rw [bindProjectSocket_ok bind] at found
    rcases Function.update_some_cases found with ⟨hp, heq⟩ | ⟨-, hold⟩
    · cases heq
      exact .inr ⟨hp, by simp⟩
    · exact .inl hold
  | unlinked => exact .inl (Daemon.removeFile_some found)
  | _ => exact .inl found

theorem AdminStep.file_other {a : AdminAction} (hrec : Records env s)
    (step : AdminStep env s id a t o) {name : String} (hname : name ≠ id.name)
    (hvalid : isValidProjectName name = true) :
    t.files (socketPathFor env.config.socketDir name) =
      s.files (socketPathFor env.config.socketDir name) := by
  have hpath : isValidProjectName id.name = true →
      socketPathFor env.config.socketDir name ≠ socketPathFor env.config.socketDir id.name :=
    fun hid heq => hname (socketPathFor_injective hvalid hid heq)
  cases step with
  | bindFailed task absent fresh bind =>
    exact (bindProjectSocket_error bind).1 _ (hpath (hrec.valid_locking task))
  | bound task absent fresh bind =>
    have hfiles := bindProjectSocket_ok bind
    simp only [Daemon.setRequest_files, Daemon.setProject_files, hfiles,
      Function.update_of_ne (hpath (hrec.valid_locking task))]
  | @unlinked reg p error task project =>
    obtain ⟨hreg, hsome⟩ := hrec.request id _ task reg (by simp [AdminTask.regs])
    have hne : socketPathFor env.config.socketDir name ≠ p.socketPath := by
      rw [(hrec.project reg p project).2.1, hreg]
      exact hpath (hreg ▸ hrec.valid_name hsome)
    simp only [Daemon.setRequest_files, Daemon.removeFile_files]
    split
    · rfl
    · exact Function.update_of_ne hne ..
  | _ => rfl

theorem AdminStep.loop_isSome {a : AdminAction} (step : AdminStep env s id a t o)
    (h : (t.loops reg).isSome) : (s.loops reg).isSome ∨ s.requests id = some (.spawning reg) := by
  cases step with
  | @spawned reg' task =>
    by_cases hreg : reg = reg'
    · subst hreg
      exact .inr task
    · simp only [Daemon.setRequest_loops, Daemon.setLoop_loops, Function.update_of_ne hreg] at h
      exact .inl h
  | @notified reg' task =>
    by_cases hreg : reg = reg'
    · subst hreg
      exact .inl (by simpa using h)
    · simp only [Daemon.setRequest_loops, Daemon.notifyStop_loops, Function.update_of_ne hreg] at h
      exact .inl h
  | @timedOut _ handle task =>
    by_cases hreg : reg = handle
    · subst hreg
      exact .inl (by simpa using h)
    · simp only [Daemon.setRequest_loops, Daemon.abortLoop_loops, Function.update_of_ne hreg] at h
      exact .inl h
  | _ => exact .inl h

theorem LoopStep.loop_isSome {reg' : RegId} {a : LoopAction} (step : LoopStep s reg' a t)
    (h : (t.loops reg).isSome) : (s.loops reg).isSome := by
  by_cases hreg : reg = reg'
  · subst hreg
    cases step with
    | selected task | spawned task | joined task | drained task | aborted task => simp [task]
  · cases step with
    | selected | spawned | joined | drained =>
      simpa only [Daemon.setLoop_loops, Function.update_of_ne hreg] using h
    | aborted => exact h

@[simp] theorem abortConns_isSome {conns : ConnId → Option Conn} {joinSet : List Nat}
    {c : ConnId} : (Daemon.abortConns conns reg joinSet c).isSome = (conns c).isSome := by
  unfold Daemon.abortConns
  split
  · exact Option.isSome_map
  · rfl

theorem LoopStep.conn_isSome {a : LoopAction} (step : LoopStep s reg a t) {c : ConnId}
    (h : (t.conns c).isSome) : (s.conns c).isSome ∨ c.reg = reg ∧ (s.loops reg).isSome := by
  cases step with
  | @spawned _ l l' num pid uid task =>
    by_cases hc : c = ⟨reg, num⟩
    · subst hc
      exact .inr ⟨rfl, by simp [task]⟩
    · simp only [Function.update_of_ne hc] at h
      exact .inl h
  | aborted => exact .inl (by simpa using h)
  | selected | joined | drained => exact .inl h

theorem AdminStep.conn_isSome {a : AdminAction} (step : AdminStep env s id a t o) {c : ConnId}
    (h : (t.conns c).isSome) : (s.conns c).isSome := by
  cases step with
  | timedOut => simpa using h
  | _ => exact h

theorem Records.admin {a : AdminAction} (h : Records env s) (step : AdminStep env s id a t o) :
    Records env t := by
  have keep : ∀ reg, (s.projects reg).isSome → (t.projects reg).isSome :=
    fun reg => (DaemonStep.admin step).projects_isSome
  constructor
  · intro reg p hp
    exact (hp ▸ step.projectChange reg).record h
  · intro name reg found
    rcases step.inner_lookup found with old | ⟨rfl, hname, hsome⟩
    · exact ⟨(h.inner name reg old).1, keep reg (h.inner name reg old).2⟩
    · exact ⟨hname, hsome⟩
  · intro name reg found
    rcases step.tasks_lookup found with old | ⟨rfl, task⟩
    · exact ⟨(h.tasks name reg old).1, keep reg (h.tasks name reg old).2⟩
    · have hreg := h.request id _ task reg (by simp [AdminTask.regs])
      exact ⟨hreg.1, keep reg hreg.2⟩
  · intro reg hloop
    rcases step.loop_isSome hloop with old | task
    · exact keep reg (h.loop reg old)
    · exact keep reg (h.request id _ task reg (by simp [AdminTask.regs])).2
  · intro c hconn
    exact keep c.reg (h.conn c (step.conn_isSome hconn))
  · intro id' task' htask' reg hreg
    obtain ⟨task, hrequests, hregs⟩ := step.regs h
    rw [hrequests] at htask'
    rcases Function.update_some_cases htask' with ⟨rfl, rfl⟩ | ⟨-, hother⟩
    · exact hregs reg hreg
    · have hold := h.request id' task' hother reg hreg
      exact ⟨hold.1, keep reg hold.2⟩
  · intro id' task' htask' m hm
    obtain ⟨task, hrequests, hheld⟩ := step.held
    rw [hrequests] at htask'
    rcases Function.update_some_cases htask' with ⟨rfl, rfl⟩ | ⟨-, hother⟩
    · rcases hheld m hm with ⟨hname, -⟩ | ⟨old, hold, hm⟩
      · exact hname
      · exact h.manifest _ _ hold m hm
    · exact h.manifest _ _ hother m hm
  · intro path reg mode found
    rcases step.file_project found with old | new
    · exact ⟨(h.file path reg mode old).1, keep reg (h.file path reg mode old).2⟩
    · exact new

theorem LoopStep.frame {a : LoopAction} (step : LoopStep s reg a t) :
    t.inner = s.inner ∧ t.projectTasks = s.projectTasks ∧ t.requests = s.requests ∧
      t.files = s.files := by
  cases step <;> exact ⟨rfl, rfl, rfl, rfl⟩

theorem Records.loopStep {a : LoopAction} (h : Records env s) (step : LoopStep s reg a t) :
    Records env t := by
  obtain ⟨hinner, htasks, hrequests, hfiles⟩ := step.frame
  constructor
  · exact step.projects_eq ▸ h.project
  · exact step.projects_eq ▸ hinner ▸ h.inner
  · exact step.projects_eq ▸ htasks ▸ h.tasks
  · intro reg' hloop
    exact step.projects_eq ▸ h.loop reg' (step.loop_isSome hloop)
  · intro c hconn
    rw [step.projects_eq]
    rcases step.conn_isSome hconn with old | ⟨hreg, hloop⟩
    · exact h.conn c old
    · exact hreg ▸ h.loop reg hloop
  · exact step.projects_eq ▸ hrequests ▸ h.request
  · exact hrequests ▸ h.manifest
  · exact step.projects_eq ▸ hfiles ▸ h.file

theorem Records.connStep {c : ConnId} {conn conn' : Conn} {p p' : Project} {a : ConnAction}
    (h : Records env s) (task : s.conns c = some conn) (project : s.projects c.reg = some p)
    (step : ConnStep env s.backend ⟨c, conn.served⟩ p conn a p' conn' o) :
    Records env { s.setProject c.reg p' with
      conns := Function.update s.conns c (some conn')
      audit := Daemon.recordAll s.audit o } := by
  have keep : ∀ reg, (s.projects reg).isSome → _ :=
    fun reg => (DaemonStep.conn task project step).projects_isSome
  constructor
  · intro reg q hq
    rcases Function.update_some_cases hq with ⟨rfl, rfl⟩ | ⟨-, hold⟩
    · rw [step.project_eq]
      exact h.project c.reg p project
    · exact h.project reg q hold
  · intro name reg found
    exact ⟨(h.inner name reg found).1, keep reg (h.inner name reg found).2⟩
  · intro name reg found
    exact ⟨(h.tasks name reg found).1, keep reg (h.tasks name reg found).2⟩
  · intro reg hloop
    exact keep reg (h.loop reg hloop)
  · intro d hconn
    by_cases hd : d = c
    · subst hd
      simp
    · simp only [Function.update_of_ne hd] at hconn
      exact keep d.reg (h.conn d hconn)
  · intro id task htask reg hreg
    have hold := h.request id task htask reg hreg
    exact ⟨hold.1, keep reg hold.2⟩
  · exact h.manifest
  · intro path reg mode found
    exact ⟨(h.file path reg mode found).1, keep reg (h.file path reg mode found).2⟩

theorem Records.step {a : Action} (h : Records env s) (step : DaemonStep env s a t o) :
    Records env t := by
  cases step with
  | admin step => exact h.admin step
  | conn task project step => exact h.connStep task project step
  | loop step => exact h.loopStep step
  | rotate | status | writer =>
    exact ⟨h.project, h.inner, h.tasks, h.loop, h.conn, h.request, h.manifest, h.file⟩

theorem run_records {backend : Option Session} {stale : Daemon.Stale} {as : List Action}
    {tr : List Obs} (hrun : run env backend stale as = some (s, tr)) : Records env s :=
  Machine.exec_invariant Records.initial (fun _ _ _ _ h hs => h.step (step_cases hs)) hrun

/-- What the steps of requests and of connections keep of a project, each step of the daemon keeps
of all projects. -/
theorem DaemonStep.project_invariant {Q : RegId → Project → Prop} {a : Action}
    (step : DaemonStep env s a t o)
    (hadmin : ∀ {id reg p}, ProjectChange env s id reg (some p) →
      (∀ p, s.projects reg = some p → Q reg p) → Q reg p)
    (hconn : ∀ {q reg p conn b p' conn' o}, ConnStep env s.backend q p conn b p' conn' o →
      Q reg p → Q reg p')
    (h : ∀ reg p, s.projects reg = some p → Q reg p) :
    ∀ reg p, t.projects reg = some p → Q reg p := by
  intro reg p hp
  cases step with
  | admin step => exact hadmin (hp ▸ step.projectChange reg) (h reg)
  | @conn c a conn old p' conn' o task project step =>
    rcases Function.update_some_cases hp with ⟨rfl, rfl⟩ | ⟨-, hold⟩
    · exact hconn step (h c.reg old project)
    · exact h reg p hold
  | loop step => exact h reg p (step.projects_eq ▸ hp)
  | rotate | status | writer => exact h reg p hp

/-- An admin step puts nothing into a cache; a registration starts with an empty one. -/
theorem ProjectChange.stored_before {p : Project} {name : String} {e : CacheEntry}
    (change : ProjectChange env s id reg (some p)) (h : p.cache.stored name = some e) :
    ∃ old, s.projects reg = some old ∧ old.cache.stored name = some e := by
  generalize hp : some p = new at change
  cases change with
  | same => exact ⟨p, hp.symm, h⟩
  | created =>
    cases hp
    simp [Project.create, BoundedCache.new, BoundedCache.stored] at h
  | @configured old m task project | @stored old m task project =>
    cases hp
    exact ⟨old, project, h⟩

/-- Only the steps of a connection put anything into a cache. -/
theorem DaemonStep.stored_before {a : Action} {p : Project} {name : String} {e : CacheEntry}
    (step : DaemonStep env s a t o) (ha : ∀ c b, a ≠ .conn c b) (hp : t.projects reg = some p)
    (h : p.cache.stored name = some e) :
    ∃ old, s.projects reg = some old ∧ old.cache.stored name = some e := by
  cases step with
  | admin step => exact (hp ▸ step.projectChange reg).stored_before h
  | conn => exact absurd rfl (ha _ _)
  | loop step => exact ⟨p, step.projects_eq ▸ hp, h⟩
  | rotate | status | writer => exact ⟨p, hp, h⟩

theorem ConnStep.stored_cases {backend : Option Session} {q : RequestId} {p p' : Project}
    {conn conn' : Conn} {a : ConnAction} {name : String} {e : CacheEntry}
    (step : ConnStep env backend q p conn a p' conn' o) (h : p'.cache.stored name = some e) :
    p.cache.stored name = some e ∨
      (∃ start, conn.pc = .inserting name start e.value) ∧ .inserted q name e.value ∈ o := by
  cases step with
  | lookedUp => exact .inl (BoundedCache.stored_get h)
  | @inserted name start value now front pc =>
    rcases BoundedCache.stored_insert h with ⟨rfl, rfl⟩ | hold
    · exact .inr ⟨⟨start, pc⟩, List.mem_cons_self⟩
    · exact .inl hold
  | received | dispatched | noSession | called | returned | readTtl | emitted | started | answered
  | closed => exact .inl h

/-- What is in a cache after a step was there before it, or a connection of the registration has
just inserted it. -/
theorem DaemonStep.stored_cases {a : Action} {p : Project} {name : String} {e : CacheEntry}
    (step : DaemonStep env s a t o) (hp : t.projects reg = some p)
    (h : p.cache.stored name = some e) :
    (∃ old, s.projects reg = some old ∧ old.cache.stored name = some e) ∨
      ∃ c conn, c.reg = reg ∧ s.conns c = some conn ∧
        (∃ start, conn.pc = .inserting name start e.value) ∧
        .inserted ⟨c, conn.served⟩ name e.value ∈ o := by
  rcases a.conn_or with ⟨c, b, rfl⟩ | hother
  · cases step with
    | @conn _ _ conn old p' conn' o task project step =>
      rcases Function.update_some_cases hp with ⟨rfl, rfl⟩ | ⟨-, hold⟩
      · rcases step.stored_cases h with hsame | ⟨hpc, hmem⟩
        · exact .inl ⟨old, project, hsame⟩
        · exact .inr ⟨c, conn, rfl, task, hpc, hmem⟩
      · exact .inl ⟨p, hold, h⟩
  · exact .inl (step.stored_before hother hp h)

/-- The default time of a cache changes only when a reload configures it. -/
theorem DaemonStep.defaultTtl {a : Action} {p : Project} (step : DaemonStep env s a t o)
    (ha : ∀ c b, a ≠ .conn c b) (hp : t.projects reg = some p) :
    s.projects reg = none ∨ (∃ old, s.projects reg = some old ∧
      p.cache.defaultTtl = old.cache.defaultTtl) ∨
    ∃ id m old, a = .admin id .setConfig ∧ s.requests id = some (.configuring reg m) ∧
      s.projects reg = some old ∧ p = old.setConfig env m := by
  cases step with
  | @admin id a t o step =>
    cases step with
    | bound task absent fresh =>
      rcases Function.update_some_cases hp with ⟨rfl, rfl⟩ | ⟨-, hold⟩
      · exact .inl fresh
      · exact .inr (.inl ⟨p, hold, rfl⟩)
    | @configured reg' old m task project =>
      rcases Function.update_some_cases hp with ⟨rfl, rfl⟩ | ⟨-, hold⟩
      · exact .inr (.inr ⟨id, m, old, rfl, task, project, rfl⟩)
      · exact .inr (.inl ⟨p, hold, rfl⟩)
    | @stored reg' old m task project =>
      rcases Function.update_some_cases hp with ⟨rfl, rfl⟩ | ⟨-, hold⟩
      · exact .inr (.inl ⟨old, project, rfl⟩)
      · exact .inr (.inl ⟨p, hold, rfl⟩)
    | _ => exact .inr (.inl ⟨p, hp, rfl⟩)
  | conn => exact absurd rfl (ha _ _)
  | loop step => exact .inr (.inl ⟨p, step.projects_eq ▸ hp, rfl⟩)
  | rotate | status | writer => exact .inr (.inl ⟨p, hp, rfl⟩)

theorem DaemonStep.connChange {a : Action} (step : DaemonStep env s a t o)
    (ha : ∀ c b, a ≠ .conn c b) (c : ConnId) : ConnChange (s.conns c) (t.conns c) := by
  cases step with
  | admin step => exact step.connChange c
  | conn => exact absurd rfl (ha _ _)
  | loop step => exact step.connChange c
  | rotate | status | writer => exact .same

/-- A step of another task leaves a connection where it was, unless it closes or opens it. -/
theorem DaemonStep.conn_before {a : Action} {c : ConnId} {conn : Conn}
    (step : DaemonStep env s a t o) (ha : ∀ c b, a ≠ .conn c b) (hconn : t.conns c = some conn) :
    (∃ cancelled, s.conns c = some { conn with cancelled }) ∨ conn.pc = .closed ∨
      conn.pc = .reading := by
  have hchange := step.connChange ha c
  rw [hconn] at hchange
  generalize hold : s.conns c = old at hchange
  cases hchange with
  | same => exact .inl ⟨conn.cancelled, rfl⟩
  | @marked old => exact .inl ⟨old.cancelled, rfl⟩
  | dropped => exact .inr (.inl rfl)
  | opened => exact .inr (.inr rfl)

theorem AdminStep.loops_other {a : AdminAction} (hrec : Records env s)
    (step : AdminStep env s id a t o) (hreg : reg.name ≠ id.name) : t.loops reg = s.loops reg := by
  have hne : ∀ task reg', s.requests id = some task → reg' ∈ task.regs → reg ≠ reg' := by
    rintro task reg' htask hmem rfl
    exact hreg (hrec.request id task htask reg hmem).1
  cases step with
  | spawned task | notified task =>
    exact Function.update_of_ne (hne _ _ task (by simp [AdminTask.regs])) ..
  | timedOut task => exact Function.update_of_ne (hne _ _ task (by simp [AdminTask.regs])) ..
  | _ => rfl

theorem LoopStep.loops_other {a : LoopAction} {reg' : RegId} (step : LoopStep s reg a t)
    (hne : reg' ≠ reg) : t.loops reg' = s.loops reg' := by
  cases step with
  | aborted => rfl
  | selected | spawned | joined | drained => exact Function.update_of_ne hne ..

theorem LoopStep.conns_other {a : LoopAction} {c : ConnId} (step : LoopStep s reg a t)
    (hne : c.reg ≠ reg) : t.conns c = s.conns c := by
  cases step with
  | spawned => exact Function.update_of_ne (fun heq => hne (congrArg ConnId.reg heq)) ..
  | aborted => simp [Daemon.abortConns, hne]
  | selected | joined | drained => rfl

theorem AdminStep.requests_eq {a : AdminAction} (step : AdminStep env s id a t o) :
    ∃ task, t.requests = Function.update s.requests id (some task) := by
  cases step <;> exact ⟨_, rfl⟩

def Daemon.RequestsIn (ids : List AdminId) (s : Daemon) : Prop :=
  ∀ id task, s.requests id = some task → id ∈ ids

def Action.adminId : Action → Option AdminId
  | .admin id _ => some id
  | _ => none

theorem Daemon.RequestsIn.step {a : Action} {ids : List AdminId} (h : s.RequestsIn ids)
    (ha : ∀ id, a.adminId = some id → id ∈ ids) (step : DaemonStep env s a t o) :
    t.RequestsIn ids := by
  cases step with
  | @admin id a _ _ step =>
    intro id' task htask
    by_cases hid : id' = id
    · exact hid ▸ ha id rfl
    · obtain ⟨new, hnew⟩ := step.requests_eq
      rw [hnew, Function.update_of_ne hid] at htask
      exact h id' task htask
  | loop step =>
    intro id task htask
    exact h id task (step.frame.2.2.1 ▸ htask)
  | conn | rotate | status | writer => exact h

theorem run_requestsIn {backend : Option Session} {stale : Daemon.Stale} {as : List Action}
    {tr : List Obs} (ids : List AdminId) (hids : as.filterMap Action.adminId ⊆ ids)
    (hrun : run env backend stale as = some (s, tr)) : s.RequestsIn ids := by
  refine Machine.exec_invariant_along (I := Daemon.RequestsIn ids)
    (G := fun _ a => ∀ id, a.adminId = some id → id ∈ ids) ?_ ?_ ?_ hrun
  · intro id task htask
    cases htask
  · exact fun s a t o hs ha hstep => hs.step ha (step_cases hstep)
  · exact Machine.along_of_forall fun a ha id hid => hids (List.mem_filterMap.mpr ⟨a, ha, hid⟩)

end

end RemoBroker
