import RemoBroker.Daemon.Supervision
import RemoBroker.Shutdown.Server

/-! What the shutdown leaves behind.  An accept loop that runs is in `project_tasks`, in the hands
of a request, or among the handles that the shutdown awaits; a socket file of a project is in the
registry map, in the hands of an `unregister`, or among the sockets that the shutdown unlinks.  When
no registration crosses the shutdown, all of these are empty at its end. -/

namespace RemoBroker

def AdminTask.handles : AdminTask → List RegId
  | .inserting reg => [reg]
  | .joining _ handle => [handle]
  | _ => []

/-- The registration whose socket an `unregister` is going to unlink. -/
def AdminTask.departing : AdminTask → Option RegId
  | .notifying reg | .taking reg | .joining reg _ | .unlinking reg => some reg
  | _ => none

namespace Daemon

def Tracked (s : Daemon) (reg : RegId) : Prop :=
  s.projectTasks.lookup reg.name = some reg ∨
    ∃ id task, s.requests id = some task ∧ reg ∈ task.handles

/-- The socket of a registration will be unlinked: by an `unregister`, or, as long as the second
snapshot has not been taken, through the registry map. -/
def Kept (listed : Bool) (s : Daemon) (reg : RegId) : Prop :=
  listed = true ∧ s.inner.lookup reg.name = some reg ∨
    ∃ id task, s.requests id = some task ∧ task.departing = some reg

end Daemon

section
variable {env : Env} {s t : Daemon} {o : List Obs} {id : AdminId} {reg : RegId}

theorem Daemon.loopAlive_notifyStop (reg' : RegId) :
    (s.notifyStop reg).loopAlive reg' = s.loopAlive reg' := by
  by_cases hreg : reg' = reg
  · subst hreg
    cases hl : s.loops reg' <;> simp [Daemon.loopAlive, hl]
  · simp [Daemon.loopAlive, hreg]

theorem Daemon.loopAlive_of_abortLoop {reg' : RegId} (h : (s.abortLoop reg).loopAlive reg' = true) :
    reg' ≠ reg ∧ s.loopAlive reg' = true := by
  by_cases hreg : reg' = reg
  · subst hreg
    cases hl : s.loops reg' <;> simp [Daemon.loopAlive, LoopTask.alive, hl] at h
  · simp only [Daemon.loopAlive, Daemon.abortLoop_loops, Function.update_of_ne hreg] at h
    exact ⟨hreg, h⟩

theorem AdminStep.alive_cases {a : AdminAction} (step : AdminStep env s id a t o)
    (h : t.loopAlive reg = true) :
    s.loopAlive reg = true ∨ t.requests id = some (.inserting reg) := by
  cases step with
  | @spawned reg' task =>
    by_cases hreg : reg = reg'
    · subst hreg
      exact .inr (by simp)
    · refine .inl ?_
      rwa [← Daemon.loopAlive_congr (s := s)]
      simp [hreg]
  | @notified reg' task => exact .inl (Daemon.loopAlive_notifyStop reg ▸ h)
  | timedOut => exact .inl (Daemon.loopAlive_of_abortLoop h).2
  | _ => exact .inl h

/-- A handle in `project_tasks` stays there or is taken by the request, if it is not replaced. -/
theorem AdminStep.tracked_of_stored {a : AdminAction} (step : AdminStep env s id a t o)
    (hinsert : a = .insertTask → s.projectTasks.lookup id.name = none)
    (hlookup : s.projectTasks.lookup reg.name = some reg) : t.Tracked reg := by
  by_cases hname : reg.name = id.name
  · cases step with
    | inserted =>
      rw [hname, hinsert rfl] at hlookup
      cases hlookup
    | @taken r handle task found =>
      obtain rfl := Option.some.inj (found.symm.trans (hname ▸ hlookup))
      exact .inr ⟨id, .joining r handle, by simp, by simp [AdminTask.handles]⟩
    | noTask task absent =>
      rw [hname, absent] at hlookup
      cases hlookup
    | _ => exact .inl hlookup
  · exact .inl ((step.tasks_other hname).trans hlookup)

/-- A handle in the hands of a request is stored by its step, or its loop has ended. -/
theorem AdminStep.tracked_of_held {a : AdminAction} {task : AdminTask} (hrec : Records env s)
    (step : AdminStep env s id a t o) (htask : s.requests id = some task)
    (hmem : reg ∈ task.handles) (halive : t.loopAlive reg = true) : t.Tracked reg := by
  cases step with
  | inserted task =>
    obtain rfl := Option.some.inj (htask.symm.trans task)
    obtain rfl : reg = _ := by simpa [AdminTask.handles] using hmem
    have hname := (hrec.request id _ task reg (by simp [AdminTask.regs])).1
    refine .inl ?_
    rw [hname]
    exact AList.lookup_insert _
  | joined task ended =>
    obtain rfl := Option.some.inj (htask.symm.trans task)
    obtain rfl : reg = _ := by simpa [AdminTask.handles] using hmem
    cases halive.symm.trans (Daemon.loopAlive_of_ended ended)
  | timedOut task =>
    obtain rfl := Option.some.inj (htask.symm.trans task)
    obtain rfl : reg = _ := by simpa [AdminTask.handles] using hmem
    exact absurd rfl (Daemon.loopAlive_of_abortLoop halive).1
  | submit task => cases htask.symm.trans task
  | registerFailed task | registerLoaded task | projectExists task | bindFailed task
  | bound task | spawned task | unregisterUnknown task | removed task | notified task
  | taken task | noTask task | unlinked task | reloadUnknown task | lookedUp task
  | reloadFailed task | reloadLoaded task | configured task | stored task =>
    obtain rfl := Option.some.inj (htask.symm.trans task)
    cases hmem

/-- A step of an admin request loses no accept loop that runs, if it replaces no handle. -/
theorem AdminStep.tracked {a : AdminAction} (hrec : Records env s)
    (step : AdminStep env s id a t o)
    (hinsert : a = .insertTask → s.projectTasks.lookup id.name = none)
    (h : s.Tracked reg) (halive : t.loopAlive reg = true) : t.Tracked reg := by
  rcases h with hlookup | ⟨id', task', htask', hmem⟩
  · exact step.tracked_of_stored hinsert hlookup
  · by_cases hid : id' = id
    · subst hid
      exact step.tracked_of_held hrec htask' hmem halive
    · exact .inr ⟨id', task', step.request_other hid ▸ htask', hmem⟩

/-- A socket file that is there after a step of an admin request was there before, or belongs to a
registration that was bound just now. -/
theorem AdminStep.file_new {a : AdminAction} {path : String} {f : SocketFile}
    (step : AdminStep env s id a t o)
    (hchmod : ∀ gen out, a = .registerLocked gen out → out.chmod = none)
    (found : t.files path = some f) :
    s.files path = some f ∨
      s.inner.lookup id.name = none ∧ (∃ gen out, a = .registerLocked gen out) ∧
      ∃ reg, f.owner = .project reg ∧ t.inner.lookup reg.name = some reg := by
  cases step with
  | bindFailed task absent fresh bind =>
    exact .inl (bindProjectSocket_unbound (hchmod _ _ rfl) bind found)
  | @bound _ m mp gen out files ops task absent fresh bind =>
    rw [bindProjectSocket_ok bind] at found
    rcases Function.update_some_cases found with ⟨-, rfl⟩ | ⟨-, hold⟩
    · exact .inr ⟨absent, ⟨gen, out, rfl⟩, ⟨id.name, gen⟩, rfl, by simp⟩
    · exact .inl hold
  | unlinked => exact .inl (Daemon.removeFile_some found)
  | _ => exact .inl found

/-- A registration in the registry map stays there or is removed by an `unregister`. -/
theorem AdminStep.kept_of_listed {a : AdminAction} {listed : Bool}
    (step : AdminStep env s id a t o) (hlisted : listed = true)
    (hlookup : s.inner.lookup reg.name = some reg) : t.Kept listed reg := by
  by_cases hname : reg.name = id.name
  · cases step with
    | bound task absent =>
      rw [hname, absent] at hlookup
      cases hlookup
    | removed task mapped =>
      obtain rfl := Option.some.inj (mapped.symm.trans (hname ▸ hlookup))
      exact .inr ⟨id, _, Function.update_self .., rfl⟩
    | _ => exact .inl ⟨hlisted, hlookup⟩
  · exact .inl ⟨hlisted, (step.inner_other hname).trans hlookup⟩

/-- An `unregister` goes on to the unlink, after which the file is gone. -/
theorem AdminStep.kept_of_departing {a : AdminAction} {listed : Bool} {path : String} {mode : Nat}
    {task : AdminTask} (hrec : Records env s) (step : AdminStep env s id a t o)
    (hunlink : ∀ error, a = .unlinkSocket error → error = none)
    (htask : s.requests id = some task) (hdeparting : task.departing = some reg)
    (hold : s.files path = some ⟨.project reg, mode⟩)
    (found : t.files path = some ⟨.project reg, mode⟩) : t.Kept listed reg := by
  cases step with
  | notified task | taken task | noTask task | joined task | timedOut task =>
    obtain rfl := Option.some.inj (htask.symm.trans task)
    exact .inr ⟨id, _, Function.update_self .., hdeparting⟩
  | @unlinked reg' p error task project =>
    obtain rfl := Option.some.inj (htask.symm.trans task)
    obtain rfl : reg' = reg := by simpa [AdminTask.departing] using hdeparting
    obtain rfl := hunlink error rfl
    have hpath : path = p.socketPath := by
      rw [(hrec.project reg' p project).2.1, (hrec.file path reg' mode hold).1]
    simp [hpath] at found
  | submit task => cases htask.symm.trans task
  | registerFailed task | registerLoaded task | projectExists task | bindFailed task
  | bound task | spawned task | inserted task | unregisterUnknown task | removed task
  | reloadUnknown task | lookedUp task | reloadFailed task | reloadLoaded task
  | configured task | stored task =>
    obtain rfl := Option.some.inj (htask.symm.trans task)
    cases hdeparting

/-- A step of an admin request that leaves a socket file leaves the one who will unlink it. -/
theorem AdminStep.kept {a : AdminAction} {listed : Bool} {path : String} {mode : Nat}
    (hrec : Records env s) (step : AdminStep env s id a t o)
    (hunlink : ∀ error, a = .unlinkSocket error → error = none) (h : s.Kept listed reg)
    (hold : s.files path = some ⟨.project reg, mode⟩)
    (found : t.files path = some ⟨.project reg, mode⟩) : t.Kept listed reg := by
  rcases h with ⟨hlisted, hlookup⟩ | ⟨id', task', htask', hdeparting⟩
  · exact step.kept_of_listed hlisted hlookup
  · by_cases hid : id' = id
    · subst hid
      exact step.kept_of_departing hrec hunlink htask' hdeparting hold found
    · exact .inr ⟨id', task', step.request_other hid ▸ htask', hdeparting⟩

/-- A `register` that has bound its socket and not stored its handle was so before the step, or has
just found its name free in the registry map. -/
theorem AdminStep.arriving_cases {a : AdminAction} {id' : AdminId} {task : AdminTask}
    (step : AdminStep env s id a t o) (h : t.requests id' = some task)
    (harriving : task.arriving = true) :
    (∃ old, s.requests id' = some old ∧ old.arriving = true) ∨
      s.inner.lookup id.name = none ∧ ∃ gen out, a = .registerLocked gen out := by
  by_cases hid : id' = id
  · subst hid
    cases step with
    | bound task absent => exact .inr ⟨absent, _, _, rfl⟩
    | spawned task => exact .inl ⟨_, task, rfl⟩
    | submit =>
      rename_i op _
      cases op <;> simp [AdminOp.start] at h <;> simp [← h, AdminTask.arriving] at harriving
    | _ => simp at h; simp [← h, AdminTask.arriving] at harriving
  · exact .inl ⟨task, step.request_other hid ▸ h, harriving⟩

theorem AdminStep.submitted {a : AdminAction} (step : AdminStep env s id a t o) :
    (∃ op, a = .submit op) ∨ ∃ task, s.requests id = some task := by
  cases step with
  | submit => exact .inl ⟨_, rfl⟩
  | registerFailed task | registerLoaded task | projectExists task | bindFailed task
  | bound task | spawned task | inserted task | unregisterUnknown task | removed task
  | notified task | taken task | noTask task | joined task | timedOut task | unlinked task
  | reloadUnknown task | lookedUp task | reloadFailed task | reloadLoaded task
  | configured task | stored task => exact .inr ⟨_, task⟩

def Phase.listed : Phase → Bool
  | .serving | .stopping _ | .joining _ => true
  | _ => false

/-- The sockets that the shutdown is still going to unlink. -/
def Phase.unlinks : Phase → List RegId
  | .unlinking todo => todo
  | _ => []

structure Clearing (env : Env) (x : Server) : Prop where
  records : Records env x.daemon
  supervised : Supervised x.daemon
  attended : x.daemon.Attended
  loops : ∀ reg, x.daemon.loopAlive reg = true → x.daemon.Tracked reg ∨ reg ∈ x.phase.handles
  files : ∀ path reg mode, x.daemon.files path = some ⟨.project reg, mode⟩ →
    x.daemon.Kept x.phase.listed reg ∨ reg ∈ x.phase.unlinks
  failed : ∀ path f, x.daemon.files path = some f → f.owner ≠ .failed
  admin : ∀ path f, x.daemon.files path = some f → f.owner = .admin →
    path = adminPath env.config.socketDir ∧ x.phase ≠ .returned
  tasks : x.phase.taken = true → ∀ name, x.daemon.projectTasks.lookup name = none
  arriving : x.phase.taken = true →
    ∀ id task, x.daemon.requests id = some task → task.arriving = false
  requests : x.daemon.RequestsIn x.connections
  finished : x.phase.admits = false →
    ∀ id task, x.daemon.requests id = some task → task.finished = true

variable {x y : Server}

theorem Clearing.initial {backend : Option Session} {stale : Daemon.Stale} :
    Clearing env (Server.start env backend stale) := by
  have hfiles : ∀ path f, (Daemon.init env backend stale).files path = some f →
      f.owner = .foreign ∨ f.owner = .admin ∧ path = adminPath env.config.socketDir := by
    intro path f found
    simp only [Daemon.init, bindAdminSocket, bindSocket, BindOutcome.success] at found
    by_cases hp : path = adminPath env.config.socketDir
    · subst hp
      simp only [Function.update_self, Option.some.injEq] at found
      exact .inr ⟨by rw [← found], rfl⟩
    · simp only [Function.update_of_ne hp, Option.map_eq_some_iff] at found
      obtain ⟨mode, -, rfl⟩ := found
      exact .inl rfl
  refine ⟨Records.initial, Supervised.initial, ?_, ?_, ?_, ?_, ?_, ?_, ?_, ?_, ?_⟩
  · intro c conn hconn
    cases hconn
  · intro reg halive
    cases halive
  · intro path reg mode found
    rcases hfiles path _ found with h | ⟨h, -⟩ <;> cases h
  · intro path f found
    rcases hfiles path f found with h | ⟨h, -⟩ <;> simp [h]
  · intro path f found howner
    rcases hfiles path f found with h | ⟨-, h⟩
    · cases howner.symm.trans h
    · exact ⟨h, by simp [Server.start]⟩
  · intro htaken
    cases htaken
  · intro htaken
    cases htaken
  · intro id task htask
    cases htask
  · intro hadmits
    cases hadmits

theorem Clearing.requests_note {a : AdminAction} (h : Clearing env x)
    (step : AdminStep env x.daemon id a t o) :
    t.RequestsIn (Server.noteConnection x.connections (.admin id a)) := by
  have hsub : x.connections ⊆ Server.noteConnection x.connections (.admin id a) := by
    cases a <;> simp [Server.noteConnection]
  have hid : id ∈ Server.noteConnection x.connections (.admin id a) := by
    rcases step.submitted with ⟨op, rfl⟩ | ⟨task, htask⟩
    · simp [Server.noteConnection]
    · exact hsub (h.requests id task htask)
  refine Daemon.RequestsIn.step (fun id' task htask => hsub (h.requests id' task htask)) ?_
    (DaemonStep.admin step)
  intro id' heq
  cases heq
  exact hid

theorem Clearing.admin_step {a : AdminAction} (h : Clearing env x)
    (hpermits : x.permits (.admin id a) = true) (hguard : Undisturbed x (.act (.admin id a)))
    (hattended : t.Attended) (step : AdminStep env x.daemon id a t o) :
    Clearing env { x with
      daemon := t
      connections := Server.noteConnection x.connections (.admin id a) } := by
  have hadmits : x.phase.admits = true := by
    cases a <;> simp_all [Server.permits]
  have hunlink : ∀ error, a = .unlinkSocket error → error = none := by
    rintro error rfl
    simp only [Server.permits, Bool.and_eq_true, Option.isNone_iff_eq_none] at hpermits
    exact hpermits.2
  have hinsert : a = .insertTask → x.daemon.projectTasks.lookup id.name = none := by
    rintro rfl
    exact hguard
  have hlocked : ∀ gen out, a = .registerLocked gen out → out.chmod = none ∧
      (x.phase.taken = true → (x.daemon.inner.lookup id.name).isSome) := by
    rintro gen out rfl
    exact hguard
  have hchmod : ∀ gen out, a = .registerLocked gen out → out.chmod = none :=
    fun gen out ha => (hlocked gen out ha).1
  -- once the handles are taken, no register finds its name free
  have hbusy : x.phase.taken = true → (∃ gen out, a = .registerLocked gen out) →
      x.daemon.inner.lookup id.name ≠ none := by
    rintro htaken ⟨gen, out, ha⟩ habsent
    have hsome := (hlocked gen out ha).2 htaken
    simp [habsent] at hsome
  have hlisted : x.phase.taken = false → x.phase.listed = true := by
    cases x.phase <;> simp [Phase.taken, Phase.listed]
  refine ⟨h.records.admin step, h.supervised.admin h.records step, hattended, ?_, ?_, ?_, ?_, ?_,
    ?_, h.requests_note step, ?_⟩
  · intro reg halive
    rcases step.alive_cases halive with hold | hnew
    · rcases h.loops reg hold with htracked | hhandle
      · exact .inl (step.tracked h.records hinsert htracked halive)
      · exact .inr hhandle
    · exact .inl (.inr ⟨id, _, hnew, by simp [AdminTask.handles]⟩)
  · intro path reg mode found
    rcases step.file_new hchmod found with hold | ⟨habsent, hlock, reg', howner, hinner⟩
    · rcases h.files path reg mode hold with hkept | hunlinks
      · exact .inl (step.kept h.records hunlink hkept hold found)
      · exact .inr hunlinks
    · cases howner
      have htaken : x.phase.taken = false := by
        by_contra hne
        exact hbusy (by simpa using hne) hlock habsent
      exact .inl (.inl ⟨hlisted htaken, hinner⟩)
  · intro path f found
    rcases step.file_new hchmod found with hold | ⟨-, -, reg, howner, -⟩
    · exact h.failed path f hold
    · simp [howner]
  · intro path f found hadmin
    rcases step.file_new hchmod found with hold | ⟨-, -, reg, howner, -⟩
    · exact h.admin path f hold hadmin
    · cases hadmin.symm.trans howner
  · intro htaken name
    cases hlookup : t.projectTasks.lookup name with
    | none => rfl
    | some reg =>
      rcases step.tasks_lookup hlookup with hold | ⟨-, htask⟩
      · cases (h.tasks htaken name).symm.trans hold
      · cases h.arriving htaken id _ htask
  · intro htaken id' task htask
    by_contra harriving
    rcases step.arriving_cases htask (by simpa using harriving) with
      ⟨old, hold, hwas⟩ | ⟨habsent, hlock⟩
    · cases hwas.symm.trans (h.arriving htaken id' old hold)
    · exact hbusy htaken hlock habsent
  · intro hends
    cases hadmits.symm.trans hends

theorem LoopStep.alive_of_alive {a : LoopAction} {reg' : RegId} (step : LoopStep s reg a t)
    (h : t.loopAlive reg' = true) : s.loopAlive reg' = true := by
  by_cases hreg : reg' = reg
  · subst hreg
    exact step.alive
  · rwa [← Daemon.loopAlive_congr (step.loops_other hreg)]

theorem Clearing.act {a : Action} (h : Clearing env x) (hpermits : x.permits a = true)
    (hguard : Undisturbed x (.act a)) (step : DaemonStep env x.daemon a t o) :
    Clearing env { x with
      daemon := t
      connections := Server.noteConnection x.connections a } := by
  have hrec := h.records.step step
  have hsup := h.supervised.step h.records step
  have hatt : t.Attended := by
    refine step.attended h.attended h.supervised ?_
    rintro id reg handle rfl
    exact hguard reg handle
  cases step with
  | admin step => exact h.admin_step hpermits hguard hatt step
  | loop step =>
    obtain ⟨hinner, htasks, hrequests, hfiles⟩ := step.frame
    refine ⟨hrec, hsup, hatt, ?_, ?_, hfiles ▸ h.failed, hfiles ▸ h.admin, htasks ▸ h.tasks,
      hrequests ▸ h.arriving, ?_, hrequests ▸ h.finished⟩
    · intro reg halive
      unfold Daemon.Tracked
      rw [htasks, hrequests]
      exact h.loops reg (step.alive_of_alive halive)
    · intro path reg mode found
      unfold Daemon.Kept
      rw [hinner, hrequests]
      exact h.files path reg mode (hfiles ▸ found)
    · intro id task htask
      exact h.requests id task (hrequests ▸ htask)
  | conn | rotate | status | writer =>
    exact ⟨hrec, hsup, hatt, h.loops, h.files, h.failed, h.admin, h.tasks, h.arriving, h.requests,
      h.finished⟩

/-- A change of the daemon by `run` itself, which only stops tasks and removes files. -/
structure Daemon.Stilled (s t : Daemon) : Prop where
  inner : t.inner = s.inner
  tasks : t.projectTasks = s.projectTasks
  projects : t.projects = s.projects
  requests : t.requests = s.requests
  loops : ∀ reg, (t.loops reg).isSome → (s.loops reg).isSome
  alive : ∀ reg, t.loopAlive reg = true → s.loopAlive reg = true
  conns : ∀ c, (t.conns c).isSome → (s.conns c).isSome
  files : ∀ path f, t.files path = some f → s.files path = some f

theorem Daemon.Stilled.records (still : Daemon.Stilled s t) (h : Records env s) :
    Records env t := by
  obtain ⟨hinner, htasks, hprojects, hrequests, hloops, -, hconns, hfiles⟩ := still
  constructor
  · exact hprojects ▸ h.project
  · exact hprojects ▸ hinner ▸ h.inner
  · exact hprojects ▸ htasks ▸ h.tasks
  · exact fun reg hloop => hprojects ▸ h.loop reg (hloops reg hloop)
  · exact fun c hconn => hprojects ▸ h.conn c (hconns c hconn)
  · exact hprojects ▸ hrequests ▸ h.request
  · exact hrequests ▸ h.manifest
  · exact fun path reg mode found => hprojects ▸ h.file path reg mode (hfiles path _ found)

theorem Clearing.still (h : Clearing env x) (still : Daemon.Stilled x.daemon t)
    (hattended : t.Attended) : Clearing env { x with daemon := t } := by
  have hrec := still.records h.records
  obtain ⟨hinner, htasks, -, hrequests, hloops, halive, -, hfiles⟩ := still
  refine ⟨hrec, ⟨?_, hrequests ▸ h.supervised.spawner⟩, hattended, ?_, ?_, ?_, ?_,
    htasks ▸ h.tasks, hrequests ▸ h.arriving, ?_, hrequests ▸ h.finished⟩
  · intro id reg htask
    by_contra hsome
    have hold := hloops reg (Option.ne_none_iff_isSome.mp hsome)
    simp [h.supervised.unspawned id reg (hrequests ▸ htask)] at hold
  · intro reg hreg
    unfold Daemon.Tracked
    rw [htasks, hrequests]
    exact h.loops reg (halive reg hreg)
  · intro path reg mode found
    unfold Daemon.Kept
    rw [hinner, hrequests]
    exact h.files path reg mode (hfiles path _ found)
  · exact fun path f found => h.failed path f (hfiles path f found)
  · exact fun path f found => h.admin path f (hfiles path f found)
  · exact fun id task htask => h.requests id task (hrequests ▸ htask)

theorem Daemon.Stilled.notifyStop : Daemon.Stilled s (s.notifyStop reg) := by
  refine ⟨rfl, rfl, rfl, rfl, ?_, ?_, fun _ h => h, fun _ _ h => h⟩
  · intro reg' hloop
    by_cases hreg : reg' = reg
    · subst hreg
      simpa using hloop
    · simpa [hreg] using hloop
  · exact fun reg' halive => Daemon.loopAlive_notifyStop reg' ▸ halive

theorem Daemon.Stilled.abortLoop : Daemon.Stilled s (s.abortLoop reg) := by
  refine ⟨rfl, rfl, rfl, rfl, ?_, ?_, ?_, fun _ _ h => h⟩
  · intro reg' hloop
    by_cases hreg : reg' = reg
    · subst hreg
      simpa using hloop
    · simpa [hreg] using hloop
  · exact fun reg' halive => (Daemon.loopAlive_of_abortLoop halive).2
  · intro c hconn
    simpa using hconn

theorem Daemon.Stilled.removeFile {path : String} : Daemon.Stilled s (s.removeFile path none) := by
  refine ⟨rfl, rfl, rfl, rfl, fun _ h => h, fun _ h => h, fun _ h => h, ?_⟩
  intro p f found
  simp only [Daemon.removeFile_files, Option.isSome_none, Bool.false_eq_true, ite_false] at found
  by_cases hp : p = path
  · simp [hp] at found
  · rwa [Function.update_of_ne hp] at found

theorem Clearing.notifyStop (h : Clearing env x) :
    Clearing env { x with daemon := x.daemon.notifyStop reg } :=
  h.still .notifyStop fun c conn hconn hopen => (h.attended c conn hconn hopen).notifyStop

theorem Clearing.abortLoop (h : Clearing env x) (hidle : x.daemon.idle reg = true) :
    Clearing env { x with daemon := x.daemon.abortLoop reg } :=
  h.still .abortLoop (h.attended.abortLoop hidle)

theorem Clearing.removeFile {path : String} (h : Clearing env x) :
    Clearing env { x with daemon := x.daemon.removeFile path none } :=
  h.still .removeFile h.attended

theorem Clearing.setPhase {phase : Phase} (h : Clearing env x)
    (htaken : phase.taken = x.phase.taken) (hreturned : phase ≠ .returned)
    (hloops : ∀ reg, x.daemon.loopAlive reg = true → reg ∈ x.phase.handles → reg ∈ phase.handles)
    (hfiles : ∀ path reg mode, x.daemon.files path = some ⟨.project reg, mode⟩ →
      x.daemon.Kept x.phase.listed reg ∨ reg ∈ x.phase.unlinks →
      x.daemon.Kept phase.listed reg ∨ reg ∈ phase.unlinks)
    (hfinished : phase.admits = false →
      ∀ id task, x.daemon.requests id = some task → task.finished = true) :
    Clearing env { x with phase } := by
  refine ⟨h.records, h.supervised, h.attended, ?_, ?_, h.failed, ?_, htaken ▸ h.tasks,
    htaken ▸ h.arriving, h.requests, hfinished⟩
  · intro reg halive
    exact (h.loops reg halive).imp_right (hloops reg halive)
  · intro path reg mode found
    exact hfiles path reg mode found (h.files path reg mode found)
  · intro path f found hadmin
    exact ⟨(h.admin path f found hadmin).1, hreturned⟩

theorem Records.take (h : Records env s) : Records env { s with projectTasks := ∅ } :=
  ⟨h.project, h.inner, by simp, h.loop, h.conn, h.request, h.manifest, h.file⟩

/-- The handles are taken while no `register` is between its map and its handle insertion. -/
theorem Clearing.take (h : Clearing env x) (hphase : x.phase = .stopping [])
    (hguard : Undisturbed x .take) :
    Clearing env { x with
      daemon := { x.daemon with projectTasks := ∅ }
      phase := .joining (x.daemon.projectTasks.entries.map (·.2)) } := by
  refine ⟨h.records.take, ⟨h.supervised.unspawned, h.supervised.spawner⟩, h.attended, ?_, ?_,
    h.failed, ?_, ?_, ?_, h.requests, ?_⟩
  · intro reg halive
    rcases h.loops reg halive with (hlookup | hrequest) | hhandle
    · have hentry := AList.mem_lookup_iff.mp hlookup
      exact .inr (List.mem_map.mpr ⟨_, hentry, rfl⟩)
    · exact .inl (.inr hrequest)
    · simp [hphase, Phase.handles] at hhandle
  · intro path reg mode found
    have hkept := h.files path reg mode found
    rw [hphase] at hkept
    exact hkept
  · intro path f found hadmin
    exact ⟨(h.admin path f found hadmin).1, by simp⟩
  · simp
  · exact fun _ => hguard
  · simp [Phase.admits]

theorem Clearing.unlink {todo : List RegId} (h : Clearing env x)
    (hphase : x.phase = .unlinking todo) :
    Clearing env { x with daemon := x.removeSocket reg, phase := .unlinking (todo.erase reg) } := by
  have hclear : Clearing env { x with daemon := x.removeSocket reg } := by
    unfold Server.removeSocket
    cases x.daemon.projects reg with
    | none => exact h
    | some p => exact h.removeFile
  have hgone : ∀ path mode, (x.removeSocket reg).files path ≠ some ⟨.project reg, mode⟩ := by
    intro path mode found
    obtain ⟨hpath, hsome⟩ := hclear.records.file path reg mode found
    obtain ⟨p, hp⟩ := Option.isSome_iff_exists.mp (show (x.daemon.projects reg).isSome by
      unfold Server.removeSocket at hsome
      cases hreg : x.daemon.projects reg <;> simp_all)
    simp [Server.removeSocket, hp, hpath, (h.records.project reg p hp).2.1] at found
  refine hclear.setPhase (by simp [hphase, Phase.taken]) (by simp)
    (by simp [hphase, Phase.handles]) ?_ (by simp [Phase.admits])
  intro path reg' mode found hcover
  simp only [hphase, Phase.listed, Phase.unlinks] at hcover ⊢
  refine hcover.imp_right fun hmem => (List.mem_erase_of_ne ?_).mpr hmem
  rintro rfl
  exact hgone path mode found

theorem AdminTask.handles_eq_nil {task : AdminTask} (harriving : task.arriving = false)
    (hleaving : task.leaving = false) : task.handles = [] := by
  cases task <;> simp_all [AdminTask.arriving, AdminTask.leaving, AdminTask.handles]

theorem AdminTask.departing_eq_none {task : AdminTask} (hleaving : task.leaving = false) :
    task.departing = none := by
  cases task <;> simp_all [AdminTask.leaving, AdminTask.departing]

theorem Daemon.requests_of_aborted {id' : AdminId} {task : AdminTask}
    (h : (s.setRequest id .aborted).requests id' = some task) :
    s.requests id' = some task ∨ task = .aborted := by
  rcases Function.update_some_cases h with ⟨-, heq⟩ | ⟨-, hother⟩
  · exact .inr heq
  · exact .inl hother

theorem Records.drop (h : Records env s) : Records env (s.setRequest id .aborted) := by
  refine ⟨h.project, h.inner, h.tasks, h.loop, h.conn, ?_, ?_, h.file⟩
  · intro id' task htask
    rcases Daemon.requests_of_aborted htask with hwas | rfl
    · exact h.request id' task hwas
    · simp [AdminTask.regs]
  · intro id' task htask
    rcases Daemon.requests_of_aborted htask with hwas | rfl
    · exact h.manifest id' task hwas
    · simp [AdminTask.manifest]

theorem Supervised.drop (h : Supervised s) : Supervised (s.setRequest id .aborted) := by
  have hspawning : ∀ id' reg, (s.setRequest id .aborted).requests id' = some (.spawning reg) →
      s.requests id' = some (.spawning reg) := by
    intro id' reg htask
    exact (Daemon.requests_of_aborted htask).resolve_right (by simp)
  constructor
  · exact fun id' reg htask => h.unspawned id' reg (hspawning id' reg htask)
  · exact fun id₁ id₂ reg h₁ h₂ =>
      h.spawner id₁ id₂ reg (hspawning id₁ reg h₁) (hspawning id₂ reg h₂)

/-- A request is dropped that holds neither an accept loop nor a socket. -/
theorem Clearing.dropRequest (h : Clearing env x) (hphase : x.phase = .draining)
    (hid : (x.daemon.requests id).isSome) (hguard : Undisturbed x (.abortRequest id)) :
    Clearing env { x with daemon := x.daemon.setRequest id .aborted } := by
  have hother : ∀ id' task, x.daemon.requests id' = some task →
      task.arriving = true ∨ task.leaving = true →
      (x.daemon.setRequest id .aborted).requests id' = some task := by
    intro id' task htask hbusy
    have hne : id' ≠ id := by
      rintro rfl
      rcases hbusy with harriving | hleaving
      · cases harriving.symm.trans (h.arriving (by simp [hphase, Phase.taken]) id' task htask)
      · cases hleaving.symm.trans (hguard task htask)
    rw [Daemon.setRequest_requests, Function.update_of_ne hne, htask]
  refine ⟨h.records.drop, h.supervised.drop, h.attended, ?_, ?_, h.failed, h.admin, h.tasks, ?_, ?_,
    ?_⟩
  · intro reg halive
    refine (h.loops reg halive).imp_left (Or.imp_right ?_)
    rintro ⟨id', task, htask, hmem⟩
    refine ⟨id', task, hother id' task htask ?_, hmem⟩
    by_contra hidle
    simp only [not_or, Bool.not_eq_true] at hidle
    simp [AdminTask.handles_eq_nil hidle.1 hidle.2] at hmem
  · intro path reg mode found
    refine (h.files path reg mode found).imp_left (Or.imp_right ?_)
    rintro ⟨id', task, htask, hdeparting⟩
    refine ⟨id', task, hother id' task htask (.inr ?_), hdeparting⟩
    by_contra hidle
    simp [AdminTask.departing_eq_none (by simpa using hidle)] at hdeparting
  · intro htaken id' task htask
    rcases Daemon.requests_of_aborted htask with hwas | rfl
    · exact h.arriving htaken id' task hwas
    · rfl
  · intro id' task htask
    rcases Daemon.requests_of_aborted htask with hwas | rfl
    · exact h.requests id' task hwas
    · by_cases heq : id' = id
      · obtain ⟨old, hsome⟩ := Option.isSome_iff_exists.mp hid
        exact heq ▸ h.requests id old hsome
      · simp only [Daemon.setRequest_requests, Function.update_of_ne heq] at htask
        exact h.requests id' _ htask
  · simp [hphase, Phase.admits]

theorem Clearing.step {a : ShutdownAction} (h : Clearing env x) (hguard : Undisturbed x a)
    (step : Server.Trans env x a y o) : Clearing env y := by
  cases step with
  | act permitted step => exact h.act permitted hguard step
  | sigterm => exact ⟨h.records, h.supervised, h.attended, h.loops, h.files, h.failed, h.admin,
      h.tasks, h.arriving, h.requests, h.finished⟩
  | begin phase =>
    refine h.setPhase (by simp [phase, Phase.taken]) (by simp) (by simp [phase, Phase.handles]) ?_
      (by simp [Phase.admits])
    simp [phase, Phase.listed, Phase.unlinks]
  | notified phase =>
    refine h.notifyStop.setPhase (by simp [phase, Phase.taken]) (by simp)
      (by simp [phase, Phase.handles]) ?_ (by simp [Phase.admits])
    simp [phase, Phase.listed, Phase.unlinks]
  | taken phase => exact h.take phase hguard
  | @joined reg todo phase ended =>
    refine h.setPhase (by simp [phase, Phase.taken]) (by simp) ?_
      (by simp [phase, Phase.listed, Phase.unlinks]) (by simp [Phase.admits])
    intro reg' halive hmem
    simp only [phase, Phase.handles] at hmem ⊢
    refine (List.mem_erase_of_ne ?_).mpr hmem
    rintro rfl
    cases halive.symm.trans (Daemon.loopAlive_of_ended ended)
  | @aborted reg todo phase =>
    refine (h.abortLoop hguard).setPhase (by simp [phase, Phase.taken]) (by simp) ?_
      (by simp [phase, Phase.listed, Phase.unlinks]) (by simp [Phase.admits])
    intro reg' halive hmem
    simp only [phase, Phase.handles] at hmem ⊢
    exact (List.mem_erase_of_ne (Daemon.loopAlive_of_abortLoop halive).1).mpr hmem
  | listed phase =>
    refine h.setPhase (by simp [phase, Phase.taken]) (by simp) (by simp [phase, Phase.handles]) ?_
      (by simp [Phase.admits])
    intro path reg mode found hcover
    rcases hcover with (⟨-, hlookup⟩ | hrequest) | hmem
    · exact .inr (List.mem_map.mpr ⟨_, AList.mem_lookup_iff.mp hlookup, rfl⟩)
    · exact .inl (.inr hrequest)
    · simp [phase, Phase.unlinks] at hmem
  | unlinked phase => exact h.unlink phase
  | drain phase =>
    refine h.setPhase (by simp [phase, Phase.taken]) (by simp) (by simp [phase, Phase.handles]) ?_
      (by simp [Phase.admits])
    simp [phase, Phase.listed, Phase.unlinks]
  | dropped phase awaits =>
    exact h.dropRequest phase (Option.isSome_of_any awaits) hguard
  | drained phase finished =>
    refine h.setPhase (by simp [phase, Phase.taken]) (by simp) (by simp [phase, Phase.handles])
      (by simp [phase, Phase.listed, Phase.unlinks]) ?_
    intro _ id task htask
    simpa [htask] using finished id (h.requests id task htask)
  | adminUnlinked phase =>
    have hclear : Clearing env
        { x with daemon := x.daemon.removeFile (adminPath env.config.socketDir) none } :=
      h.removeFile
    have hfinished := h.finished (by simp [phase, Phase.admits])
    refine ⟨hclear.records, hclear.supervised, hclear.attended, ?_, ?_, hclear.failed, ?_, ?_, ?_,
      hclear.requests, fun _ => hfinished⟩
    · simpa [phase, Phase.handles] using hclear.loops
    · simpa [phase, Phase.listed, Phase.unlinks] using hclear.files
    · intro path f found hadmin
      have hpath := (hclear.admin path f found hadmin).1
      simp [hpath] at found
    · exact fun _ => h.tasks (by simp [phase, Phase.taken])
    · exact fun _ => h.arriving (by simp [phase, Phase.taken])

theorem Clearing.exit (h : Clearing env x) (hphase : x.phase = .returned) : CleanExit x := by
  have htaken : x.phase.taken = true := by simp [hphase, Phase.taken]
  have hfinished := h.finished (by simp [hphase, Phase.admits])
  have hloops : ∀ reg, x.daemon.loopAlive reg = false := by
    intro reg
    by_contra halive
    rcases h.loops reg (by simpa using halive) with (hlookup | ⟨id, task, htask, hmem⟩) | hmem
    · cases hlookup.symm.trans (h.tasks htaken reg.name)
    · have hdone := hfinished id task htask
      cases task <;> simp [AdminTask.finished, AdminTask.handles] at hdone hmem
    · simp [hphase, Phase.handles] at hmem
  refine ⟨hloops, ?_, hfinished, ?_⟩
  · intro c conn hconn
    by_contra hopen
    obtain ⟨l, hl, halive, -⟩ := h.attended c conn hconn (by simpa using hopen)
    have hdead := hloops c.reg
    simp [Daemon.loopAlive, hl, halive] at hdead
  · intro path f found
    obtain ⟨owner, mode⟩ := f
    cases owner with
    | foreign => rfl
    | failed => exact absurd rfl (h.failed path _ found)
    | admin => exact absurd hphase (h.admin path _ found rfl).2
    | project reg =>
      rcases h.files path reg mode found with (⟨hlisted, -⟩ | ⟨id, task, htask, hdeparting⟩) | hmem
      · simp [hphase, Phase.listed] at hlisted
      · have hdone := hfinished id task htask
        cases task <;> simp [AdminTask.finished, AdminTask.departing] at hdone hdeparting
      · simp [hphase, Phase.unlinks] at hmem

/-- When no registration crosses the shutdown, `run` returns with nothing left. -/
theorem run_shutdown_clean {backend : Option Session} {stale : Daemon.Stale}
    {as : List ShutdownAction} {tr : List Obs}
    (hrun : Machine.exec (Server.step env) (Server.start env backend stale) as = some (x, tr))
    (hclean : Machine.Along (Server.step env) Undisturbed (Server.start env backend stale) as)
    (hreturned : x.phase = .returned) : CleanExit x := by
  have h : Clearing env x :=
    Machine.exec_invariant_along (I := Clearing env) Clearing.initial
      (fun x a y o h hguard hstep => h.step hguard (Server.step_cases hstep)) hclean hrun
  exact h.exit hreturned

/-- `Undisturbed`, decided for a server whose admin requests are those of its connections. -/
def undisturbed (x : Server) : ShutdownAction → Bool
  | .take => x.connections.all fun id => (x.daemon.requests id).all fun task => !task.arriving
  | .act (.admin id (.registerLocked _ out)) =>
    out.chmod.isNone && (!x.phase.taken || (x.daemon.inner.lookup id.name).isSome)
  | .act (.admin id .insertTask) => (x.daemon.projectTasks.lookup id.name).isNone
  | .act (.admin id .abortTask) =>
    match x.daemon.requests id with
    | some (.joining _ handle) => x.daemon.idle handle
    | _ => true
  | .abort reg => x.daemon.idle reg
  | .abortRequest id => (x.daemon.requests id).all fun task => !task.leaving
  | _ => true

theorem Undisturbed.of_check {a : ShutdownAction} (hx : x.daemon.RequestsIn x.connections)
    (h : undisturbed x a = true) : Undisturbed x a := by
  unfold Undisturbed
  split
  · intro id task htask
    simpa [htask] using List.all_eq_true.mp h id (hx id task htask)
  · simpa [undisturbed, Bool.or_eq_true, imp_iff_not_or] using h
  · simpa [undisturbed] using h
  · intro reg handle htask
    simpa [undisturbed, htask] using h
  · exact h
  · intro task htask
    simpa [undisturbed, htask] using h
  · trivial

theorem along_undisturbed {backend : Option Session} {stale : Daemon.Stale}
    {as : List ShutdownAction}
    (h : Machine.checkAlong (Server.step env) undisturbed
      (Server.start env backend stale) as = true) :
    Machine.Along (Server.step env) Undisturbed (Server.start env backend stale) as :=
  Machine.along_of_check (I := Clearing env) Clearing.initial
    (fun _ _ _ _ hx hg hstep => hx.step (.of_check hx.requests hg) (Server.step_cases hstep))
    (fun _ _ hx => .of_check hx.requests) h

end

namespace ShutdownAction

/-- The accept loop of `run` takes an admin connection. -/
def connect : List ShutdownAction :=
  [.iterate, .pollStop, .acceptOk, .finishBranch].map fun a => .sigterm (.loop a)

/-- The accept loop comes to wait, is notified by the signal task and takes its shutdown branch. -/
def signal : List ShutdownAction :=
  [.loop .iterate, .loop .pollStop, .loop .acceptPending, .signal, .loop .wake,
    .loop .pollStop].map .sigterm ++ [.begin]

end ShutdownAction

/-- A project is registered and has a connection when the signal comes; its accept loop is notified
while it is busy and is aborted at the deadline. -/
def deadlineRun : List ShutdownAction :=
  ShutdownAction.connect ++
  (Action.register ⟨"web", 0⟩ "/srv/web" "web" 0 ++ Action.connect ⟨⟨"web", 0⟩, 0⟩).map .act ++
  ShutdownAction.signal ++
  [.notify ⟨"web", 0⟩, .take, .abort ⟨"web", 0⟩, .snapshot, .unlink ⟨"web", 0⟩, .drain, .drained,
    .unlinkAdmin]

theorem run_shutdown_clean_deadline : ∃ x tr,
    Machine.exec (Server.step webEnv) (Server.start webEnv none fun _ => none) deadlineRun =
      some (x, tr) ∧ (x.daemon.conns ⟨⟨"web", 0⟩, 0⟩).isSome ∧ CleanExit x := by
  have hfacts : (Machine.exec (Server.step webEnv) (Server.start webEnv none fun _ => none)
      deadlineRun).map (fun r => (r.1.phase, (r.1.daemon.conns ⟨⟨"web", 0⟩, 0⟩).isSome)) =
      some (.returned, true) := by decide +kernel
  obtain ⟨⟨x, tr⟩, hrun, hx⟩ := Option.map_eq_some_iff.mp hfacts
  obtain ⟨hphase, hconn⟩ := Prod.mk.inj hx
  exact ⟨x, tr, hrun, hconn, run_shutdown_clean hrun (along_undisturbed (by decide +kernel)) hphase⟩

/-- The connection has just read a line when its accept loop is aborted: it is still open when
`run` has returned. -/
example : (Machine.exec (Server.step webEnv) (Server.start webEnv none fun _ => none)
    (ShutdownAction.connect ++
      (Action.register ⟨"web", 0⟩ "/srv/web" "web" 0 ++ Action.connect ⟨⟨"web", 0⟩, 0⟩ ++
        [Action.conn ⟨⟨"web", 0⟩, 0⟩ (.receive (.ok .ping) 0)]).map .act ++ ShutdownAction.signal ++
      [.notify ⟨"web", 0⟩, .take, .abort ⟨"web", 0⟩, .snapshot, .unlink ⟨"web", 0⟩, .drain,
        .drained, .unlinkAdmin])).map (fun r =>
      (r.1.phase, (r.1.daemon.conns ⟨⟨"web", 0⟩, 0⟩).map Conn.isClosed)) =
    some (.returned, some false) := by
  decide +kernel

/-- A `register` on an accepted admin connection gets the registry lock after the shutdown has gone
through the projects. -/
def lateRegisterRun : List ShutdownAction :=
  ShutdownAction.connect ++ ((Action.register ⟨"web", 0⟩ "/srv/web" "web" 0).take 2).map .act ++
  ShutdownAction.signal ++ [.take, .snapshot, .drain] ++
  ((Action.register ⟨"web", 0⟩ "/srv/web" "web" 0).drop 2).map .act ++ [.drained, .unlinkAdmin]

/-- `run` has returned and the accept loop still runs on its socket. -/
theorem shutdown_leaves_late_register : ∃ x tr,
    Machine.exec (Server.step webEnv) (Server.start webEnv none fun _ => none) lateRegisterRun =
      some (x, tr) ∧ x.phase = .returned ∧ x.daemon.loopAlive ⟨"web", 0⟩ = true ∧
    x.daemon.Bound webEnv ⟨"web", 0⟩ ∧ ¬ CleanExit x := by
  have hfacts : (Machine.exec (Server.step webEnv) (Server.start webEnv none fun _ => none)
      lateRegisterRun).map (fun r => (r.1.phase, r.1.daemon.loopAlive ⟨"web", 0⟩,
        r.1.daemon.files (socketPathFor webEnv.config.socketDir "web"))) =
      some (.returned, true, some ⟨.project ⟨"web", 0⟩, projectSocketMode⟩) := by decide +kernel
  obtain ⟨⟨x, tr⟩, hrun, hx⟩ := Option.map_eq_some_iff.mp hfacts
  simp only [Prod.mk.injEq] at hx
  obtain ⟨hphase, halive, hfile⟩ := hx
  refine ⟨x, tr, hrun, hphase, halive, ⟨_, hfile⟩, fun hclean => ?_⟩
  cases halive.symm.trans (hclean.loops ⟨"web", 0⟩)

end RemoBroker
