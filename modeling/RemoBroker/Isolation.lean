import RemoBroker.Daemon.Request

/-! The projects do not interfere.  What the daemon does for one name depends on what it does for
that name and on the backend: a run without the actions for other names shows the same for it.  And
a cache belongs to one registration: a hit is what a `get` on the same registration has inserted. -/

namespace RemoBroker

/-- The action is about the name `P`, or about the session that all projects share. -/
def concerns (P : String) : Action → Bool
  | .admin id _ => id.name = P
  | .conn c _ => c.reg.name = P
  | .loop reg _ => reg.name = P
  | .rotate _ _ => true
  | .status _ | .writer _ => false

def Obs.project : Obs → Option String
  | .stored reg _ => some reg.name
  | .replied id _ => some id.name
  | o => o.request.map fun q => q.conn.reg.name

/-- What a trace shows of a name: the answers to its admin requests, its manifests, and everything
that is observed of the requests on its connections. -/
def ofProject (P : String) (tr : List Obs) : List Obs := tr.filter (·.project = some P)

/-- A hit shows what a `get` on the same registration has inserted before, and its value is what
the response carries. -/
structure HitsOwn (tr : List Obs) : Prop where
  source : ∀ q name now e pre, pre ++ [.lookedUp q name now (some e)] <+: tr →
    ∃ q', q'.conn.reg = q.conn.reg ∧ .received q' (.ok (.get name)) ∈ pre ∧
      .inserted q' name e.value ∈ pre
  answer : ∀ q name now e r pre, .lookedUp q name now (some e) ∈ pre →
    pre ++ [.writing q r] <+: tr → ∃ ttl, r = .get (.utf8 e.value ttl)

/-- Two states agree on what is kept for a name, and on the backend. -/
structure SameFor (P : String) (s s' : Daemon) : Prop where
  inner : s'.inner.lookup P = s.inner.lookup P
  tasks : s'.projectTasks.lookup P = s.projectTasks.lookup P
  projects : ∀ reg : RegId, reg.name = P → s'.projects reg = s.projects reg
  loops : ∀ reg : RegId, reg.name = P → s'.loops reg = s.loops reg
  conns : ∀ c : ConnId, c.reg.name = P → s'.conns c = s.conns c
  requests : ∀ id : AdminId, id.name = P → s'.requests id = s.requests id
  backend : s'.backend = s.backend

theorem lookup_insert_agree {m m' : AList fun _ : String => RegId} {P name : String} {reg : RegId}
    (h : m'.lookup P = m.lookup P) :
    (m'.insert name reg).lookup P = (m.insert name reg).lookup P := by
  by_cases hname : P = name
  · subst hname
    rw [AList.lookup_insert, AList.lookup_insert]
  · rw [AList.lookup_insert_ne hname, AList.lookup_insert_ne hname, h]

theorem lookup_erase_agree {m m' : AList fun _ : String => RegId} {P name : String}
    (h : m'.lookup P = m.lookup P) : (m'.erase name).lookup P = (m.erase name).lookup P := by
  by_cases hname : P = name
  · subst hname
    rw [AList.lookup_erase, AList.lookup_erase]
  · rw [AList.lookup_erase_ne hname, AList.lookup_erase_ne hname, h]

theorem abortConns_agree {P : String} {conns conns' : ConnId → Option Conn} {reg : RegId}
    {joinSet : List Nat} (h : ∀ c : ConnId, c.reg.name = P → conns' c = conns c) :
    ∀ c : ConnId, c.reg.name = P →
      Daemon.abortConns conns' reg joinSet c = Daemon.abortConns conns reg joinSet c := by
  intro c hc
  unfold Daemon.abortConns
  rw [h c hc]

section
variable {env : Env} {P : String} {s s' t : Daemon} {o tr : List Obs} {id : AdminId} {reg : RegId}

namespace SameFor

theorem symm (h : SameFor P s s') : SameFor P s' s :=
  ⟨h.inner.symm, h.tasks.symm, fun reg hreg => (h.projects reg hreg).symm,
    fun reg hreg => (h.loops reg hreg).symm, fun c hc => (h.conns c hc).symm,
    fun id hid => (h.requests id hid).symm, h.backend.symm⟩

theorem trans (h : SameFor P s s') (h' : SameFor P s' t) : SameFor P s t :=
  ⟨h'.inner.trans h.inner, h'.tasks.trans h.tasks,
    fun reg hreg => (h'.projects reg hreg).trans (h.projects reg hreg),
    fun reg hreg => (h'.loops reg hreg).trans (h.loops reg hreg),
    fun c hc => (h'.conns c hc).trans (h.conns c hc),
    fun id hid => (h'.requests id hid).trans (h.requests id hid), h'.backend.trans h.backend⟩

theorem setRequest {task : AdminTask} (h : SameFor P s s') :
    SameFor P (s.setRequest id task) (s'.setRequest id task) :=
  { h with requests := Function.update_agree h.requests }

theorem setProject {p : Project} (h : SameFor P s s') :
    SameFor P (s.setProject reg p) (s'.setProject reg p) :=
  { h with projects := Function.update_agree h.projects }

theorem setLoop {l : LoopTask} (h : SameFor P s s') :
    SameFor P (s.setLoop reg l) (s'.setLoop reg l) :=
  { h with loops := Function.update_agree h.loops }

theorem setConn {c : ConnId} {conn : Conn} (h : SameFor P s s') :
    SameFor P { s with conns := Function.update s.conns c (some conn) }
      { s' with conns := Function.update s'.conns c (some conn) } :=
  { h with conns := Function.update_agree h.conns }

theorem notifyStop (h : SameFor P s s') (hreg : reg.name = P) :
    SameFor P (s.notifyStop reg) (s'.notifyStop reg) := by
  refine { h with loops := ?_ }
  simp only [Daemon.notifyStop_loops, h.loops reg hreg]
  exact Function.update_agree h.loops

theorem abortLoop (h : SameFor P s s') (hreg : reg.name = P) :
    SameFor P (s.abortLoop reg) (s'.abortLoop reg) := by
  refine { h with loops := ?_, conns := ?_ }
  · simp only [Daemon.abortLoop_loops, h.loops reg hreg]
    exact Function.update_agree h.loops
  · simp only [Daemon.abortLoop_conns, h.loops reg hreg]
    exact abortConns_agree h.conns

theorem insertInner {name : String} {files files' : Files} (h : SameFor P s s') :
    SameFor P { s with files, inner := s.inner.insert name reg }
      { s' with files := files', inner := s'.inner.insert name reg } :=
  { h with inner := lookup_insert_agree h.inner }

theorem eraseInner {name : String} (h : SameFor P s s') :
    SameFor P { s with inner := s.inner.erase name } { s' with inner := s'.inner.erase name } :=
  { h with inner := lookup_erase_agree h.inner }

theorem insertTask {name : String} (h : SameFor P s s') :
    SameFor P { s with projectTasks := s.projectTasks.insert name reg }
      { s' with projectTasks := s'.projectTasks.insert name reg } :=
  { h with tasks := lookup_insert_agree h.tasks }

theorem eraseTask {name : String} (h : SameFor P s s') :
    SameFor P { s with projectTasks := s.projectTasks.erase name }
      { s' with projectTasks := s'.projectTasks.erase name } :=
  { h with tasks := lookup_erase_agree h.tasks }

theorem setFiles {files files' : Files} (h : SameFor P s s') :
    SameFor P { s with files } { s' with files := files' } :=
  { h with }

end SameFor

theorem bindProjectSocket_transfer {files new : Files} {path : String} {out : BindOutcome}
    {result : Except RegistryError Unit} {ops : List FileOp} (files' : Files)
    (bind : bindProjectSocket files path reg out = (new, result, ops)) :
    ∃ new', bindProjectSocket files' path reg out = (new', result, ops) := by
  have hsame : (bindProjectSocket files' path reg out).2 = (result, ops) :=
    bindProjectSocket_files.trans (congrArg Prod.snd bind)
  exact ⟨(bindProjectSocket files' path reg out).1, Prod.ext rfl hsame⟩

/-- A step of an admin request for a name is possible, with the same observations, in every state
that agrees on the name. -/
theorem AdminStep.transfer {a : AdminAction} (hrec : Records env s) (h : SameFor id.name s s')
    (step : AdminStep env s id a t o) :
    ∃ t', AdminStep env s' id a t' o ∧ SameFor id.name t t' := by
  have htask : s'.requests id = s.requests id := h.requests id rfl
  have hown : ∀ {task : AdminTask} {reg}, s.requests id = some task → reg ∈ task.regs →
      reg.name = id.name := fun htask hmem => (hrec.request id _ htask _ hmem).1
  cases step with
  | submit task => exact ⟨_, .submit (htask.trans task), h.setRequest⟩
  | registerFailed task load => exact ⟨_, .registerFailed (htask.trans task) load, h.setRequest⟩
  | registerLoaded task load => exact ⟨_, .registerLoaded (htask.trans task) load, h.setRequest⟩
  | projectExists task found =>
    exact ⟨_, .projectExists (htask.trans task) (h.inner.trans found), h.setRequest⟩
  | bindFailed task absent fresh bind =>
    obtain ⟨files', bind'⟩ := bindProjectSocket_transfer s'.files bind
    exact ⟨_, .bindFailed (htask.trans task) (h.inner.trans absent)
      ((h.projects _ rfl).trans fresh) bind', h.setFiles.setRequest⟩
  | bound task absent fresh bind =>
    obtain ⟨files', bind'⟩ := bindProjectSocket_transfer s'.files bind
    exact ⟨_, .bound (htask.trans task) (h.inner.trans absent)
      ((h.projects _ rfl).trans fresh) bind', h.insertInner.setProject.setRequest⟩
  | spawned task => exact ⟨_, .spawned (htask.trans task), h.setLoop.setRequest⟩
  | inserted task project =>
    have hreg := hown task List.mem_cons_self
    exact ⟨_, .inserted (htask.trans task) ((h.projects _ hreg).trans project),
      h.insertTask.setRequest⟩
  | unregisterUnknown task absent =>
    exact ⟨_, .unregisterUnknown (htask.trans task) (h.inner.trans absent), h.setRequest⟩
  | removed task found =>
    exact ⟨_, .removed (htask.trans task) (h.inner.trans found), h.eraseInner.setRequest⟩
  | notified task =>
    have hreg := hown task List.mem_cons_self
    exact ⟨_, .notified (htask.trans task), (h.notifyStop hreg).setRequest⟩
  | taken task found =>
    exact ⟨_, .taken (htask.trans task) (h.tasks.trans found), h.eraseTask.setRequest⟩
  | noTask task absent =>
    exact ⟨_, .noTask (htask.trans task) (h.tasks.trans absent), h.eraseTask.setRequest⟩
  | @joined reg handle task ended =>
    have hreg : handle.name = id.name := hown task (by simp [AdminTask.regs])
    have hended : s'.loopEnded handle = s.loopEnded handle := by
      unfold Daemon.loopEnded
      rw [h.loops handle hreg]
    exact ⟨_, .joined (htask.trans task) (hended.trans ended), h.setRequest⟩
  | @timedOut reg handle task =>
    have hreg : handle.name = id.name := hown task (by simp [AdminTask.regs])
    exact ⟨_, .timedOut (htask.trans task), (h.abortLoop hreg).setRequest⟩
  | unlinked task project =>
    have hreg := hown task List.mem_cons_self
    exact ⟨_, .unlinked (htask.trans task) ((h.projects _ hreg).trans project),
      h.setFiles.setRequest⟩
  | reloadUnknown task absent =>
    exact ⟨_, .reloadUnknown (htask.trans task) (h.inner.trans absent), h.setRequest⟩
  | lookedUp task found =>
    exact ⟨_, .lookedUp (htask.trans task) (h.inner.trans found), h.setRequest⟩
  | reloadFailed task project load =>
    have hreg := hown task List.mem_cons_self
    exact ⟨_, .reloadFailed (htask.trans task) ((h.projects _ hreg).trans project) load,
      h.setRequest⟩
  | reloadLoaded task project load =>
    have hreg := hown task List.mem_cons_self
    exact ⟨_, .reloadLoaded (htask.trans task) ((h.projects _ hreg).trans project) load,
      h.setRequest⟩
  | configured task project =>
    have hreg := hown task List.mem_cons_self
    exact ⟨_, .configured (htask.trans task) ((h.projects _ hreg).trans project),
      h.setProject.setRequest⟩
  | stored task project =>
    have hreg := hown task List.mem_cons_self
    exact ⟨_, .stored (htask.trans task) ((h.projects _ hreg).trans project),
      h.setProject.setRequest⟩

theorem LoopStep.transfer {a : LoopAction} (h : SameFor reg.name s s') (step : LoopStep s reg a t) :
    ∃ t', LoopStep s' reg a t' ∧ SameFor reg.name t t' := by
  have hloop : s'.loops reg = s.loops reg := h.loops reg rfl
  cases step with
  | selected task state pc accept =>
    exact ⟨_, .selected (hloop.trans task) state pc accept, h.setLoop⟩
  | spawned task state pc fresh accept =>
    exact ⟨_, .spawned (hloop.trans task) state pc ((h.conns _ rfl).trans fresh) accept,
      h.setLoop.setConn⟩
  | joined task state closed mem =>
    exact ⟨_, .joined (hloop.trans task) state (h.conns ⟨reg, _⟩ rfl ▸ closed) mem, h.setLoop⟩
  | drained task state empty => exact ⟨_, .drained (hloop.trans task) state empty, h.setLoop⟩
  | aborted task state =>
    exact ⟨_, .aborted (hloop.trans task) state, { h with conns := abortConns_agree h.conns }⟩

theorem stepConn_transfer {c : ConnId} {a : ConnAction} (h : SameFor c.reg.name s s')
    (hstep : stepConn env s c a = some (t, o)) :
    ∃ t', stepConn env s' c a = some (t', o) ∧ SameFor c.reg.name t t' := by
  unfold stepConn at hstep ⊢
  rw [h.conns c rfl, h.projects c.reg rfl, h.backend]
  split at hstep
  · split at hstep
    · cases hstep
    · cases hstep
      exact ⟨_, rfl, { h with
        projects := Function.update_agree h.projects
        conns := Function.update_agree h.conns }⟩
  · cases hstep

theorem AdminStep.projects_other {a : AdminAction} (hrec : Records env s)
    (step : AdminStep env s id a t o) (hreg : reg.name ≠ id.name) :
    t.projects reg = s.projects reg := by
  have hchange := step.projectChange reg
  generalize t.projects reg = new at hchange
  cases hchange with
  | same => rfl
  | created task name => exact absurd name hreg
  | configured task | stored task =>
    exact absurd (hrec.request id _ task reg List.mem_cons_self).1 hreg

theorem AdminStep.conns_other {a : AdminAction} {c : ConnId} (hrec : Records env s)
    (step : AdminStep env s id a t o) (hc : c.reg.name ≠ id.name) : t.conns c = s.conns c := by
  cases step with
  | @timedOut reg handle task =>
    have hhandle : handle.name = id.name :=
      (hrec.request id _ task handle (by simp [AdminTask.regs])).1
    have hne : c.reg ≠ handle := fun heq => hc (heq ▸ hhandle)
    simp [Daemon.abortConns, hne]
  | _ => rfl

theorem AdminStep.sameFor {a : AdminAction} (hrec : Records env s)
    (step : AdminStep env s id a t o) (hid : id.name ≠ P) : SameFor P s t := by
  constructor
  · exact step.inner_other (Ne.symm hid)
  · exact step.tasks_other (Ne.symm hid)
  · intro reg hreg
    exact step.projects_other hrec (hreg ▸ Ne.symm hid)
  · intro reg hreg
    exact step.loops_other hrec (hreg ▸ Ne.symm hid)
  · intro c hc
    exact step.conns_other hrec (hc ▸ Ne.symm hid)
  · intro id' hid'
    obtain ⟨task, htask⟩ := step.requests_eq
    have hne : id' ≠ id := fun heq => hid (heq ▸ hid')
    rw [htask, Function.update_of_ne hne]
  · cases step <;> rfl

theorem LoopStep.sameFor {a : LoopAction} (step : LoopStep s reg a t) (hreg : reg.name ≠ P) :
    SameFor P s t := by
  obtain ⟨hinner, htasks, hrequests, -⟩ := step.frame
  have hne : ∀ reg' : RegId, reg'.name = P → reg' ≠ reg := fun reg' hreg' heq => hreg (heq ▸ hreg')
  refine ⟨by rw [hinner], by rw [htasks], fun reg' _ => by rw [step.projects_eq],
    fun reg' hreg' => step.loops_other (hne reg' hreg'),
    fun c hc => step.conns_other (hne c.reg hc), fun id _ => by rw [hrequests], ?_⟩
  cases step <;> rfl

theorem sameFor_stepConn {c : ConnId} {p : Project} {conn : Conn} {audit : Audit}
    (hc : c.reg.name ≠ P) :
    SameFor P s { s.setProject c.reg p with
      conns := Function.update s.conns c (some conn)
      audit := audit } := by
  refine ⟨rfl, rfl, ?_, fun _ _ => rfl, ?_, fun _ _ => rfl, rfl⟩
  · intro reg hreg
    have hne : reg ≠ c.reg := fun heq => hc (heq ▸ hreg)
    exact Function.update_of_ne hne ..
  · intro d hd
    have hne : d ≠ c := fun heq => hc (heq ▸ hd)
    exact Function.update_of_ne hne ..

theorem ofProject_eq_nil (h : ∀ x ∈ o, x.project ≠ some P) : ofProject P o = [] := by
  refine List.filter_eq_nil_iff.mpr ?_
  intro x hx
  simpa using h x hx

theorem AdminStep.project_mem {a : AdminAction} {x : Obs} (hrec : Records env s)
    (step : AdminStep env s id a t o) (hx : x ∈ o) :
    x.project = none ∨ x.project = some id.name := by
  have hfile : ∀ {path ops}, x ∈ fileObs path ops → x.project = none := by
    intro path ops hmem
    obtain ⟨op, -, rfl⟩ := List.mem_map.mp hmem
    rfl
  cases step with
  | bindFailed | bound =>
    rcases List.mem_append.mp hx with hops | hlast
    · exact .inl (hfile hops)
    · obtain rfl := List.mem_singleton.mp hlast
      exact .inr rfl
  | unlinked =>
    rcases List.mem_pair.mp hx with rfl | rfl
    · exact .inl rfl
    · exact .inr rfl
  | stored task =>
    have hreg := (hrec.request id _ task _ List.mem_cons_self).1
    rcases List.mem_pair.mp hx with rfl | rfl
    · exact .inr (congrArg some hreg)
    · exact .inr rfl
  | registerFailed | projectExists | inserted | unregisterUnknown | reloadUnknown | reloadFailed =>
    obtain rfl := List.mem_singleton.mp hx
    exact .inr rfl
  | submit | registerLoaded | spawned | removed | notified | taken | noTask | joined | timedOut
  | lookedUp | reloadLoaded | configured => cases hx

theorem ConnStep.project_mem {backend : Option Session} {q : RequestId} {p p' : Project}
    {conn conn' : Conn} {a : ConnAction} {x : Obs}
    (step : ConnStep env backend q p conn a p' conn' o) (hx : x ∈ o) :
    x.project = some q.conn.reg.name := by
  cases step with
  | noSession | returned | readTtl | closed => cases hx
  | received | dispatched | lookedUp | called | inserted | emitted | started | answered =>
    obtain rfl := List.mem_singleton.mp hx
    rfl

/-- A step that is about the name is possible wherever the name is in the same state. -/
theorem step_transfer {a : Action} (hrec : Records env s) (h : SameFor P s s')
    (ha : concerns P a = true) (hstep : step env s a = some (t, o)) :
    ∃ t', step env s' a = some (t', o) ∧ SameFor P t t' := by
  cases a with
  | admin id a =>
    obtain rfl : id.name = P := by simpa [concerns] using ha
    obtain ⟨t', hstep', hsame⟩ := (adminStep_cases hstep).transfer hrec h
    exact ⟨t', hstep'.adminStep_eq, hsame⟩
  | conn c a =>
    obtain rfl : c.reg.name = P := by simpa [concerns] using ha
    exact stepConn_transfer h hstep
  | loop reg a =>
    obtain rfl : reg.name = P := by simpa [concerns] using ha
    obtain ⟨u, hloop, heq⟩ := Option.map_eq_some_iff.mp hstep
    cases heq
    obtain ⟨t', hstep', hsame⟩ := (loopStep_cases hloop).transfer h
    exact ⟨t', by simp [step, hstep'.loopStep_eq], hsame⟩
  | rotate token rebuilt =>
    cases hstep
    simp only [step, h.backend]
    exact ⟨_, rfl, { h with backend := rfl }⟩
  | status | writer => cases ha

/-- A step that is not about the name leaves it as it is, and shows nothing of it. -/
theorem DaemonStep.apart {a : Action} (hrec : Records env s) (step : DaemonStep env s a t o)
    (ha : concerns P a = false) : SameFor P s t ∧ ofProject P o = [] := by
  cases step with
  | @admin id a t o step =>
    have hid : id.name ≠ P := by simpa [concerns] using ha
    refine ⟨step.sameFor hrec hid, ofProject_eq_nil fun x hx => ?_⟩
    rcases step.project_mem hrec hx with hnone | hown
    · simp [hnone]
    · simpa [hown] using hid
  | @conn c a conn p p' conn' o task project step =>
    have hc : c.reg.name ≠ P := by simpa [concerns] using ha
    refine ⟨sameFor_stepConn hc, ofProject_eq_nil fun x hx => ?_⟩
    simpa [step.project_mem hx] using hc
  | @loop reg a t step =>
    exact ⟨step.sameFor (by simpa [concerns] using ha), rfl⟩
  | rotate => cases ha
  | status | writer =>
    exact ⟨⟨rfl, rfl, fun _ _ => rfl, fun _ _ => rfl, fun _ _ => rfl, fun _ _ => rfl, rfl⟩, rfl⟩

/-- A run without the actions that are not about the name shows the same of it. -/
theorem run_concerns {backend : Option Session} {stale : Daemon.Stale} {as : List Action}
    (hrun : run env backend stale as = some (s, tr)) :
    ∃ u tr', run env backend (fun _ => none) (as.filter (concerns P)) = some (u, tr') ∧
      ofProject P tr = ofProject P tr' := by
  have hinit : SameFor P (Daemon.init env backend stale) (Daemon.init env backend fun _ => none) :=
    ⟨rfl, rfl, fun _ _ => rfl, fun _ _ => rfl, fun _ _ => rfl, fun _ _ => rfl, rfl⟩
  have hfilter : ∃ u tr', Machine.exec (step env) (Daemon.init env backend fun _ => none)
      (as.filter (concerns P)) = some (u, tr') ∧ SameFor P s u ∧
      ofProject P tr = ofProject P tr' := by
    refine Machine.exec_filter (I := Records env) Records.initial ?_ ?_ ?_ hinit hrun
    · exact fun _ _ _ _ h hs => h.step (step_cases hs)
    · exact fun _ _ _ _ _ hrec h ha hs => step_transfer hrec h ha hs
    · intro s s' a t o hrec h ha hs
      obtain ⟨hsame, hobs⟩ := (step_cases hs).apart hrec ha
      exact ⟨hsame.symm.trans h, hobs⟩
  obtain ⟨u, tr', hrun', -, htr⟩ := hfilter
  exact ⟨u, tr', hrun', htr⟩

/-- What the caches hold, and what was served from them, was inserted on the same registration. -/
structure CachesOwn (tr : List Obs) (s : Daemon) : Prop where
  entry : ∀ reg p name e, s.projects reg = some p → p.cache.stored name = some e →
    ∃ q, q.conn.reg = reg ∧ .inserted q name e.value ∈ tr
  hit : ∀ q name now e pre, pre ++ [.lookedUp q name now (some e)] <+: tr →
    ∃ q', q'.conn.reg = q.conn.reg ∧ .inserted q' name e.value ∈ pre

theorem CachesOwn.step {a : Action} (h : CachesOwn tr s) (step : DaemonStep env s a t o) :
    CachesOwn (tr ++ o) t := by
  constructor
  · intro reg p name e hp hstored
    rcases step.stored_cases hp hstored with ⟨old, hold, hsame⟩ | ⟨c, conn, rfl, -, -, hnew⟩
    · obtain ⟨q, hq, hmem⟩ := h.entry reg old name e hold hsame
      exact ⟨q, hq, List.mem_append_left o hmem⟩
    · exact ⟨_, rfl, List.mem_append_right tr hnew⟩
  · intro q name now e pre hpre
    rcases Machine.concat_prefix_append_cases hpre with hprev | ⟨r, rfl, hr⟩
    · exact h.hit q name now e pre hprev
    obtain ⟨p, project, hstored, -⟩ := step.hit (Machine.mem_of_prefix_concat hr)
    obtain ⟨q', hq', hins⟩ := h.entry q.conn.reg p name e project hstored
    exact ⟨q', hq', List.mem_append_left r hins⟩

theorem run_cachesOwn {backend : Option Session} {stale : Daemon.Stale} {as : List Action}
    (hrun : run env backend stale as = some (s, tr)) : CachesOwn tr s := by
  refine Machine.exec_induction (I := CachesOwn) ⟨?_, ?_⟩
    (fun _ _ _ _ _ h hs => h.step (step_cases hs)) hrun
  · intro reg p name e hp
    cases hp
  · intro q name now e pre hpre
    simp at hpre

section
variable {q : RequestId} {hist : List Obs} {name value : String} {pc : ConnPc}

theorem Fetch.received_of_inserted {n : String} {event : PendingFetch} {r : ProjectResponse}
    (fetch : Fetch env q hist n event r) (h : .inserted q name value ∈ hist) :
    .received q (.ok (.get name)) ∈ hist := by
  cases fetch with
  | fetched =>
    obtain ⟨rfl, rfl⟩ : name = n ∧ value = _ := by simpa [askedObs, calledObs] using h
    simp [askedObs, calledObs]
  | denied | hit | degraded | notFound | failed => simp [askedObs, calledObs] at h

theorem Stage.received_of_inserted (stage : Stage env q pc hist)
    (h : .inserted q name value ∈ hist) : .received q (.ok (.get name)) ∈ hist := by
  induction stage with
  | emitting fetch => exact fetch.received_of_inserted h
  | recorded fetch => exact List.mem_append_left _ (fetch.received_of_inserted (by simpa using h))
  | writing stage ih => exact List.mem_append_left _ (ih (by simpa using h))
  | readingTtl =>
    obtain ⟨rfl, rfl⟩ : name = _ ∧ value = _ := by simpa [askedObs, calledObs] using h
    simp [askedObs, calledObs]
  | reading | dispatching | lookingUp | calling | awaiting | inserting | direct =>
    simp [askedObs, calledObs] at h

theorem Life.received_of_inserted (life : Life env q hist) (h : .inserted q name value ∈ hist) :
    .received q (.ok (.get name)) ∈ hist := by
  cases life with
  | stage stage => exact stage.received_of_inserted h
  | answered stage => exact List.mem_append_left _ (stage.received_of_inserted (by simpa using h))

theorem Stage.response_of_hit {r : ProjectResponse} {now : Instant} {e : CacheEntry}
    (stage : Stage env q (.responding r) hist) (h : .lookedUp q name now (some e) ∈ hist) :
    ∃ ttl, r = .get (.utf8 e.value ttl) := by
  cases stage with
  | direct => simp at h
  | recorded fetch =>
    cases fetch with
    | @hit _ m start now' e' ttl =>
      obtain ⟨-, -, rfl⟩ : name = _ ∧ now = now' ∧ e = e' := by simpa [askedObs] using h
      exact ⟨ttl, rfl⟩
    | denied | degraded | fetched | notFound | failed => simp [askedObs, calledObs] at h

end

theorem run_hitsOwn {backend : Option Session} {stale : Daemon.Stale} {as : List Action}
    (hrun : run env backend stale as = some (s, tr)) : HitsOwn tr := by
  have hreq := run_requests hrun
  constructor
  · intro q name now e pre hpre
    obtain ⟨q', hreg, hins⟩ := (run_cachesOwn hrun).hit q name now e pre hpre
    have hlife := hreq.life q' pre ((List.prefix_append pre _).trans hpre)
    have hget := hlife.received_of_inserted (mem_ofRequest.mpr ⟨hins, rfl⟩)
    exact ⟨q', hreg, (mem_ofRequest.mp hget).1, hins⟩
  · intro q name now e r pre hhit hpre
    exact (hreq.responding hpre).response_of_hit (mem_ofRequest.mpr ⟨hhit, rfl⟩)

/-- Two runs with the same actions for a name show the same of it, whatever is done for the other
names, and the hits of both are on values of the same registration. -/
theorem run_projects_isolated {backend : Option Session} {stale₁ stale₂ : Daemon.Stale}
    {as₁ as₂ : List Action} {s₁ s₂ : Daemon} {tr₁ tr₂ : List Obs} {P : String}
    (hrun₁ : run env backend stale₁ as₁ = some (s₁, tr₁))
    (hrun₂ : run env backend stale₂ as₂ = some (s₂, tr₂))
    (hsame : as₁.filter (concerns P) = as₂.filter (concerns P)) :
    ofProject P tr₁ = ofProject P tr₂ ∧ HitsOwn tr₁ ∧ HitsOwn tr₂ := by
  obtain ⟨u₁, tr₁', hown₁, htr₁⟩ := run_concerns (P := P) hrun₁
  obtain ⟨u₂, tr₂', hown₂, htr₂⟩ := run_concerns (P := P) hrun₂
  have heq : (u₁, tr₁') = (u₂, tr₂') := Option.some.inj (hown₁.symm.trans (hsame ▸ hown₂))
  obtain ⟨-, rfl⟩ := Prod.mk.inj heq
  exact ⟨htr₁.trans htr₂.symm, run_hitsOwn hrun₁, run_hitsOwn hrun₂⟩

end

def twoProjectsEnv : Env :=
  sampleEnv [("web", sampleManifest "web" ["A"]), ("api", sampleManifest "api" ["A"])]

/-- One project is alone, and asks for a secret twice. -/
def aloneRun : List Action :=
  Action.register ⟨"web", 0⟩ "/srv/web" "web" 0 ++ Action.connect ⟨⟨"web", 0⟩, 0⟩ ++
  Action.fetch ⟨⟨"web", 0⟩, 0⟩ "A" 0 ++ Action.hit ⟨⟨"web", 0⟩, 0⟩ "A" 1

/-- Another project is registered, asks for the same secret and is unregistered in between. -/
def besideRun : List Action :=
  Action.register ⟨"api", 0⟩ "/srv/api" "api" 0 ++ Action.connect ⟨⟨"api", 0⟩, 0⟩ ++
  Action.fetch ⟨⟨"api", 0⟩, 0⟩ "A" 0 ++ Action.register ⟨"web", 0⟩ "/srv/web" "web" 0 ++
  Action.connect ⟨⟨"web", 0⟩, 0⟩ ++ Action.fetch ⟨⟨"web", 0⟩, 0⟩ "A" 0 ++
  Action.unregister ⟨"api", 1⟩ ++ Action.hit ⟨⟨"web", 0⟩, 0⟩ "A" 1

theorem run_projects_isolated_beside : ∃ s₁ s₂ tr₁ tr₂,
    run twoProjectsEnv (some 0) (fun _ => none) aloneRun = some (s₁, tr₁) ∧
    run twoProjectsEnv (some 0) (fun _ => none) besideRun = some (s₂, tr₂) ∧
    (ofProject "web" tr₁).length = 16 ∧ (ofProject "api" tr₂).length = 10 ∧
    ofProject "web" tr₁ = ofProject "web" tr₂ ∧ HitsOwn tr₁ ∧ HitsOwn tr₂ := by
  have halone : (run twoProjectsEnv (some 0) (fun _ => none) aloneRun).map
      (fun r => (ofProject "web" r.2).length) = some 16 := by decide +kernel
  have hbeside : (run twoProjectsEnv (some 0) (fun _ => none) besideRun).map
      (fun r => (ofProject "api" r.2).length) = some 10 := by decide +kernel
  obtain ⟨⟨s₁, tr₁⟩, hrun₁, hlen₁⟩ := Option.map_eq_some_iff.mp halone
  obtain ⟨⟨s₂, tr₂⟩, hrun₂, hlen₂⟩ := Option.map_eq_some_iff.mp hbeside
  have hsame : aloneRun.filter (concerns "web") = besideRun.filter (concerns "web") := by rfl
  exact ⟨s₁, s₂, tr₁, tr₂, hrun₁, hrun₂, hlen₁, hlen₂, run_projects_isolated hrun₁ hrun₂ hsame⟩

end RemoBroker
