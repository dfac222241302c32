import Mathlib.Data.Finset.Basic
import RemoBroker.Daemon.Records
import RemoBroker.Lib.Linear

/-! The admin requests about projects, taken together, behave like a set of names that one request
at a time reads and changes: `register`, `unregister` and `reload` are linearizable, and `status`
lists the set. -/

namespace RemoBroker

open Linear

/-- What is decided about a request: it has its effect, the name is taken, the name is not
registered, or the manifest or the socket could not be used. -/
inductive Verdict where
  | done | taken | unknown | refused
deriving DecidableEq

/-- A request with the name that it is about. -/
abbrev ControlOp := String × AdminOp

/-- The set of the registered names, one request at a time. -/
inductive Allows : Finset String → ControlOp → Verdict → Finset String → Prop where
  | registered {names name path} (absent : name ∉ names) :
      Allows names (name, .register path) .done (insert name names)
  | taken {names name path} (present : name ∈ names) :
      Allows names (name, .register path) .taken names
  | refused {names name path} : Allows names (name, .register path) .refused names
  | unregistered {names name} (present : name ∈ names) :
      Allows names (name, .unregister) .done (names.erase name)
  | unregisterUnknown {names name} (absent : name ∉ names) :
      Allows names (name, .unregister) .unknown names
  | reloaded {names name} (present : name ∈ names) : Allows names (name, .reload) .done names
  | reloadUnknown {names name} (absent : name ∉ names) :
      Allows names (name, .reload) .unknown names

/-- The error says whether the name is registered. -/
def RegistryError.aboutName : RegistryError → Bool
  | .projectExists _ | .projectUnknown _ => true
  | _ => false

/-- The responses that a verdict allows.  A `reload` of a registered project can still fail with
its manifest. -/
inductive AnsweredAs (env : Env) : ControlOp → Verdict → AdminResponse → Prop where
  | registered {name path} : AnsweredAs env (name, .register path) .done
      (.registered (socketPathFor env.config.socketDir name))
  | taken {name path} : AnsweredAs env (name, .register path) .taken
      (adminErrorFor env.debug (.projectExists name))
  | refused {name path e} (error : e.aboutName = false) :
      AnsweredAs env (name, .register path) .refused (adminErrorFor env.debug e)
  | unregistered {name} : AnsweredAs env (name, .unregister) .done .ok
  | unregisterUnknown {name} : AnsweredAs env (name, .unregister) .unknown
      (adminErrorFor env.debug (.projectUnknown name))
  | reloaded {name allowlist} : AnsweredAs env (name, .reload) .done (.reloaded allowlist)
  | reloadFailed {name e} (error : e.aboutName = false) :
      AnsweredAs env (name, .reload) .done (adminErrorFor env.debug e)
  | reloadUnknown {name} : AnsweredAs env (name, .reload) .unknown
      (adminErrorFor env.debug (.projectUnknown name))

abbrev AdminEvent := Event AdminId ControlOp AdminResponse

abbrev AdminMark := Mark AdminId ControlOp Verdict AdminResponse

def Action.call : Action → List AdminEvent
  | .admin id (.submit op) => [.inv id (id.name, op)]
  | _ => []

def Obs.answer : Obs → Option AdminEvent
  | .replied id response => some (.res id response)
  | .stored _ _ | .file _ _ | .served _ | .received _ _ | .dispatched _ _ | .lookedUp _ _ _ _
  | .called _ _ _ | .inserted _ _ _ | .recorded _ _ | .writing _ _ | .answered _ _ => none

/-- The daemon, of which only the calls and the answers of the admin requests are seen. -/
def controlStep (env : Env) : Machine.Step Daemon Action AdminEvent := fun s a =>
  (step env s a).map fun r => (r.1, a.call ++ r.2.filterMap Obs.answer)

/-! ### The moment at which a request takes effect -/

/-- The request of a task before anything is decided about it. -/
def AdminTask.undecided : AdminTask → Option AdminOp
  | .register path | .locking path _ _ => some (.register path)
  | .unregister => some .unregister
  | .reload => some .reload
  | _ => none

def AdminErrorCode.verdict : AdminErrorCode → Verdict
  | .projectExists => .taken
  | .projectUnknown => .unknown
  | _ => .refused

def AdminResponse.verdict : AdminResponse → Verdict
  | .error e => e.code.verdict
  | .registered _ | .ok | .reloaded _ | .status _ | .rotated => .done

/-- What has been decided about the request of a task. -/
def AdminTask.verdict : AdminTask → Option Verdict
  | .register _ | .locking _ _ _ | .unregister | .reload | .aborted => none
  | .done response => some response.verdict
  | _ => some .done

/-- The mark of a step in which a request becomes decided. -/
def commitMark (s : Daemon) (a : Action) (t : Daemon) : List AdminMark :=
  match a with
  | .admin id _ =>
    match (s.requests id).bind AdminTask.undecided, (t.requests id).bind AdminTask.verdict with
    | some op, some v => [.com id (id.name, op) v]
    | _, _ => []
  | _ => []

def markOf : AdminEvent → AdminMark
  | .inv id op => .inv id op
  | .res id response => .res id response

/-- The marks of a step from `s` to `t` that shows `o`. -/
def marks (s : Daemon) (a : Action) (t : Daemon) (o : List Obs) : List AdminMark :=
  a.call.map markOf ++ commitMark s a t ++ (o.filterMap Obs.answer).map markOf

/-- The daemon, with the marks of its steps. -/
def markedStep (env : Env) : Machine.Step Daemon Action AdminMark := fun s a =>
  (step env s a).map fun r => (r.1, marks s a r.1 r.2)

/-- The registered names. -/
def Daemon.names (s : Daemon) : Finset String := s.inner.keys.toFinset

section
variable {env : Env} {s t : Daemon} {o : List Obs} {id : AdminId} {name : String}

theorem Daemon.mem_names : name ∈ s.names ↔ (s.inner.lookup name).isSome := by
  rw [names, List.mem_toFinset, ← AList.mem_keys, AList.lookup_isSome]

theorem Daemon.notMem_names (h : s.inner.lookup name = none) : name ∉ s.names := by
  simp [mem_names, h]

theorem Daemon.mem_names_of_lookup {reg : RegId} (h : s.inner.lookup name = some reg) :
    name ∈ s.names := by
  simp [mem_names, h]

theorem Allows.of_insert {path : String} {reg : RegId} (absent : s.inner.lookup name = none)
    (h : t.inner = s.inner.insert name reg) :
    Allows s.names (name, .register path) .done t.names := by
  have hnames : t.names = insert name s.names := by
    ext other
    simp only [Daemon.names, h, List.mem_toFinset, ← AList.mem_keys, AList.mem_insert,
      Finset.mem_insert]
  rw [hnames]
  exact .registered (Daemon.notMem_names absent)

theorem Allows.of_erase {reg : RegId} (found : s.inner.lookup name = some reg)
    (h : t.inner = s.inner.erase name) : Allows s.names (name, .unregister) .done t.names := by
  have hnames : t.names = s.names.erase name := by
    ext other
    simp only [Daemon.names, h, List.mem_toFinset, ← AList.mem_keys, AList.mem_erase,
      Finset.mem_erase]
  rw [hnames]
  exact .unregistered (Daemon.mem_names_of_lookup found)

theorem loadNamed_aboutName {toml : String → Except String RawManifest} {disk : Disk}
    {path : String} {e : RegistryError} (h : loadNamed toml disk name path = .error e) :
    e.aboutName = false := by
  unfold loadNamed at h
  split at h
  · rename_i e' hload
    cases h
    unfold loadManifest at hload
    cases hl : Manifest.load toml disk path with
    | ok r => simp [hl, Except.mapError] at hload
    | error m =>
      simp only [hl, Except.mapError, Except.error.injEq] at hload
      subst hload
      cases m <;> rfl
  · split at h
    · cases h
      rfl
    · cases h

theorem bindProjectSocket_aboutName {files files' : Files} {path : String} {reg : RegId}
    {out : BindOutcome} {e : RegistryError} {ops : List FileOp}
    (h : bindProjectSocket files path reg out = (files', .error e, ops)) :
    e.aboutName = false := by
  have hresult : (bindProjectSocket files path reg out).2.1 = .error e := by rw [h]
  simp only [bindProjectSocket] at hresult
  cases hr : (bindSocket files path (.project reg) projectSocketMode out).2.1 with
  | ok => simp [hr, Except.mapError] at hresult
  | error b =>
    simp only [hr, Except.mapError, Except.error.injEq] at hresult
    subst hresult
    cases b <;> rfl

/-- The task works on a request that has taken effect. -/
def AdminTask.Serves : AdminTask → AdminOp → Prop
  | .spawning _, .register _ | .inserting _, .register _ => True
  | .notifying _, .unregister | .taking _, .unregister | .joining _ _, .unregister
  | .unlinking _, .unregister => True
  | .loading _, .reload | .configuring _ _, .reload | .storing _ _, .reload => True
  | _, _ => False

/-- What a step of a request can do, with the marks of the step. -/
inductive Advance (env : Env) (s : Daemon) (id : AdminId) (t : Daemon) : List AdminMark → Prop where
  | invoked {op} (before : s.requests id = none) (after : t.requests id = some op.start)
      (names : t.names = s.names) : Advance env s id t [.inv id (id.name, op)]
  | moved {task task' op} (before : s.requests id = some task) (after : t.requests id = some task')
      (undecided : task.undecided = some op) (still : task'.undecided = some op)
      (names : t.names = s.names) : Advance env s id t []
  | decided {task task' op} (before : s.requests id = some task)
      (after : t.requests id = some task') (undecided : task.undecided = some op)
      (serves : task'.Serves op) (allowed : Allows s.names (id.name, op) .done t.names) :
      Advance env s id t [.com id (id.name, op) .done]
  | refused {task op v response} (before : s.requests id = some task)
      (after : t.requests id = some (.done response)) (undecided : task.undecided = some op)
      (allowed : Allows s.names (id.name, op) v t.names)
      (agree : AnsweredAs env (id.name, op) v response) :
      Advance env s id t [.com id (id.name, op) v, .res id response]
  | worked {task task'} (before : s.requests id = some task) (after : t.requests id = some task')
      (serving : ∃ op, task.Serves op) (serves : ∀ op, task.Serves op → task'.Serves op)
      (names : t.names = s.names) : Advance env s id t []
  | answered {task response} (before : s.requests id = some task)
      (after : t.requests id = some (.done response)) (serving : ∃ op, task.Serves op)
      (agree : ∀ op, task.Serves op → AnsweredAs env (id.name, op) .done response)
      (names : t.names = s.names) : Advance env s id t [.res id response]

/-- How far a request has come, by its marks. -/
inductive Progress (env : Env) (id : AdminId) : List AdminMark → Option AdminTask → Prop where
  | fresh : Progress env id [] none
  | pending {op task} (undecided : task.undecided = some op) :
      Progress env id [.inv id (id.name, op)] (some task)
  | working {op task} (serves : task.Serves op) :
      Progress env id [.inv id (id.name, op), .com id (id.name, op) .done] (some task)
  | answered {op v response} (agree : AnsweredAs env (id.name, op) v response) :
      Progress env id [.inv id (id.name, op), .com id (id.name, op) v, .res id response]
        (some (.done response))

theorem AdminTask.Serves.undecided {task : AdminTask} {op : AdminOp} (h : task.Serves op) :
    task.undecided = none := by
  cases task <;> first | rfl | exact h.elim

theorem Progress.shape {l : List AdminMark} {task : Option AdminTask} (h : Progress env id l task) :
    Shape (AnsweredAs env) id l := by
  cases h with
  | fresh => exact .fresh
  | pending => exact .invoked _
  | working => exact .committed _ _
  | answered agree => exact .answered agree

theorem Progress.of_undecided {l : List AdminMark} {task : AdminTask} {op : AdminOp}
    (h : Progress env id l (some task)) (undecided : task.undecided = some op) :
    l = [.inv id (id.name, op)] := by
  generalize hs : some task = old at h
  cases h with
  | fresh => cases hs
  | pending undecided' =>
    cases hs
    cases undecided.symm.trans undecided'
    rfl
  | working serves =>
    cases hs
    cases undecided.symm.trans serves.undecided
  | answered =>
    cases hs
    cases undecided

theorem Progress.of_serving {l : List AdminMark} {task : AdminTask}
    (h : Progress env id l (some task)) (serving : ∃ op, task.Serves op) :
    ∃ op, task.Serves op ∧ l = [.inv id (id.name, op), .com id (id.name, op) .done] := by
  obtain ⟨op', serves'⟩ := serving
  generalize hs : some task = old at h
  cases h with
  | fresh => cases hs
  | pending undecided =>
    cases hs
    cases undecided.symm.trans serves'.undecided
  | working serves =>
    cases hs
    exact ⟨_, serves, rfl⟩
  | answered =>
    cases hs
    exact serves'.elim

theorem Progress.advance {l m : List AdminMark} (h : Progress env id l (s.requests id))
    (step : Advance env s id t m) : Progress env id (l ++ m) (t.requests id) := by
  cases step with
  | @invoked op before after =>
    rw [before] at h
    rw [after]
    cases h
    exact .pending (by cases op <;> rfl)
  | moved before after undecided still =>
    rw [before] at h
    rw [after, h.of_undecided undecided]
    exact .pending still
  | decided before after undecided serves =>
    rw [before] at h
    rw [after, h.of_undecided undecided]
    exact .working serves
  | refused before after undecided allowed agree =>
    rw [before] at h
    rw [after, h.of_undecided undecided]
    exact .answered agree
  | worked before after serving serves =>
    rw [before] at h
    obtain ⟨op, hop, rfl⟩ := h.of_serving serving
    rw [after]
    exact .working (serves op hop)
  | answered before after serving agree =>
    rw [before] at h
    obtain ⟨op, hop, rfl⟩ := h.of_serving serving
    rw [after]
    exact .answered (agree op hop)

theorem verdict_adminErrorFor {e : RegistryError} (h : e.aboutName = false) :
    (AdminTask.done (adminErrorFor env.debug e)).verdict = some .refused := by
  cases e with
  | projectExists | projectUnknown => cases h
  | _ => rfl

@[simp] theorem answers_fileObs {path : String} {ops : List FileOp} :
    (fileObs path ops).filterMap Obs.answer = [] := by
  simp [fileObs, Obs.answer]

/-- The marks of a step of a request that has been made. -/
theorem marks_admin {a : AdminAction} {task task' : AdminTask} {m : List AdminMark}
    (step : AdminStep env s id a t o) (before : s.requests id = some task)
    (after : t.requests id = some task')
    (hm : (match task.undecided, task'.verdict with
      | some op, some v => [.com id (id.name, op) v]
      | _, _ => []) ++ (o.filterMap Obs.answer).map markOf = m) :
    marks s (.admin id a) t o = m := by
  have hcall : (Action.admin id a).call = [] := by
    cases step with
    | submit task => cases task.symm.trans before
    | _ => rfl
  subst hm
  simp only [marks, commitMark, before, after, hcall, List.map_nil, List.nil_append,
    Option.bind_some]

theorem AdminStep.advance {a : AdminAction} (step : AdminStep env s id a t o) (h : Records env s) :
    Advance env s id t (marks s (.admin id a) t o) := by
  have hmarks : ∀ {task task' m}, _ → _ → _ → marks s (.admin id a) t o = m :=
    @fun task task' m => @marks_admin env s t o id a task task' m step
  cases step with
  | @submit op task =>
    have hinv : marks s (.admin id (.submit op)) (s.setRequest id op.start) [] =
        [.inv id (id.name, op)] := by
      simp [marks, Action.call, commitMark, markOf, task]
    rw [hinv]
    exact .invoked task (Function.update_self ..) rfl
  | registerLoaded task load =>
    rw [hmarks task (Function.update_self ..) rfl]
    exact .moved task (Function.update_self ..) rfl rfl rfl
  | bound task absent fresh bind =>
    rw [hmarks task (Function.update_self ..)
      (by simp [AdminTask.undecided, AdminTask.verdict, Obs.answer]; rfl)]
    exact .decided task (Function.update_self ..) rfl trivial (.of_insert absent rfl)
  | removed task found =>
    rw [hmarks task (Function.update_self ..) rfl]
    exact .decided task (Function.update_self ..) rfl trivial (.of_erase found rfl)
  | lookedUp task found =>
    rw [hmarks task (Function.update_self ..) rfl]
    exact .decided task (Function.update_self ..) rfl trivial
      (.reloaded (Daemon.mem_names_of_lookup found))
  | registerFailed task load =>
    have herror := loadNamed_aboutName load
    rw [hmarks task (Function.update_self ..) (by rw [verdict_adminErrorFor herror])]
    exact .refused task (Function.update_self ..) rfl .refused (.refused herror)
  | bindFailed task absent fresh bind =>
    have herror := bindProjectSocket_aboutName bind
    rw [hmarks task (Function.update_self ..) (by
      rw [verdict_adminErrorFor herror, List.filterMap_append, answers_fileObs])]
    exact .refused task (Function.update_self ..) rfl .refused (.refused herror)
  | projectExists task found =>
    rw [hmarks task (Function.update_self ..) rfl]
    exact .refused task (Function.update_self ..) rfl (.taken (Daemon.mem_names_of_lookup found))
      .taken
  | unregisterUnknown task absent =>
    rw [hmarks task (Function.update_self ..) rfl]
    exact .refused task (Function.update_self ..) rfl
      (.unregisterUnknown (Daemon.notMem_names absent)) .unregisterUnknown
  | reloadUnknown task absent =>
    rw [hmarks task (Function.update_self ..) rfl]
    exact .refused task (Function.update_self ..) rfl
      (.reloadUnknown (Daemon.notMem_names absent)) .reloadUnknown
  | spawned task =>
    rw [hmarks task (Function.update_self ..) rfl]
    exact .worked task (Function.update_self ..) ⟨.register "", trivial⟩
      (fun op hop => by cases op <;> exact hop) rfl
  | notified task | taken task | noTask task | joined task | timedOut task =>
    rw [hmarks task (Function.update_self ..) rfl]
    exact .worked task (Function.update_self ..) ⟨.unregister, trivial⟩
      (fun op hop => by cases op <;> exact hop) rfl
  | reloadLoaded task | configured task =>
    rw [hmarks task (Function.update_self ..) rfl]
    exact .worked task (Function.update_self ..) ⟨.reload, trivial⟩
      (fun op hop => by cases op <;> exact hop) rfl
  | @inserted reg p task project =>
    have hpath : p.socketPath = socketPathFor env.config.socketDir id.name := by
      rw [(h.project reg p project).2.1,
        (h.request id _ task reg (List.mem_cons_self)).1]
    rw [hmarks task (Function.update_self ..) rfl]
    refine .answered task (Function.update_self ..) ⟨.register "", trivial⟩ ?_ rfl
    intro op hop
    cases op with
    | register path =>
      rw [hpath]
      exact .registered
    | _ => exact hop.elim
  | unlinked task project =>
    rw [hmarks task (Function.update_self ..) rfl]
    refine .answered task (Function.update_self ..) ⟨.unregister, trivial⟩ ?_ rfl
    intro op hop
    cases op with
    | unregister => exact .unregistered
    | _ => exact hop.elim
  | reloadFailed task project load =>
    rw [hmarks task (Function.update_self ..) rfl]
    refine .answered task (Function.update_self ..) ⟨.reload, trivial⟩ ?_ rfl
    intro op hop
    cases op with
    | reload => exact .reloadFailed (loadNamed_aboutName load)
    | _ => exact hop.elim
  | stored task project =>
    rw [hmarks task (Function.update_self ..) rfl]
    refine .answered task (Function.update_self ..) ⟨.reload, trivial⟩ ?_ rfl
    intro op hop
    cases op with
    | reload => exact .reloaded
    | _ => exact hop.elim

theorem Advance.marks_id {m : List AdminMark} (step : Advance env s id t m) :
    ∀ x ∈ m, x.id = id := by
  cases step <;> simp [Mark.id]

theorem Advance.legal {h m : List AdminMark} (step : Advance env s id t m)
    (legal : Legal Allows ∅ (commits h) s.names) : Legal Allows ∅ (commits (h ++ m)) t.names := by
  have happend : commits (h ++ m) = commits h ++ commits m := List.filterMap_append
  rw [happend]
  cases step with
  | invoked before after names | moved before after undecided still names
  | worked before after serving serves names | answered before after serving agree names =>
    rw [names]
    change Legal Allows ∅ (commits h ++ []) s.names
    rw [List.append_nil]
    exact legal
  | decided before after undecided serves allowed => exact .concat legal allowed
  | refused before after undecided allowed agree => exact .concat legal allowed

/-- The marks so far explain the set of names and the answers. -/
structure Explained (env : Env) (h : List AdminMark) (s : Daemon) : Prop where
  records : Records env s
  legal : Legal Allows ∅ (commits h) s.names
  progress : ∀ id, Progress env id (marksOf id h) (s.requests id)

theorem Explained.initial {backend : Option Session} {stale : Daemon.Stale} :
    Explained env [] (Daemon.init env backend stale) :=
  ⟨.initial, .nil, fun _ => .fresh⟩

theorem Explained.admin {h : List AdminMark} {a : AdminAction} (hs : Explained env h s)
    (step : AdminStep env s id a t o) :
    Explained env (h ++ marks s (.admin id a) t o) t := by
  have advance := step.advance hs.records
  refine ⟨hs.records.admin step, advance.legal hs.legal, ?_⟩
  intro id'
  rw [marksOf_append]
  by_cases hid : id' = id
  · subst hid
    have hown : marksOf id' (marks s (.admin id' a) t o) = marks s (.admin id' a) t o :=
      List.filter_eq_self.mpr fun m hm => by simpa using advance.marks_id m hm
    rw [hown]
    exact (hs.progress id').advance advance
  · obtain ⟨task, hrequests⟩ := step.requests_eq
    have hother : marksOf id' (marks s (.admin id a) t o) = [] :=
      List.filter_eq_nil_iff.mpr fun m hm => by
        rw [advance.marks_id m hm]
        simpa using Ne.symm hid
    rw [hother, List.append_nil, hrequests, Function.update_of_ne hid]
    exact hs.progress id'

theorem ConnStep.answers_eq_nil {backend : Option Session} {q : RequestId} {p p' : Project}
    {conn conn' : Conn} {a : ConnAction} (step : ConnStep env backend q p conn a p' conn' o) :
    o.filterMap Obs.answer = [] := by
  cases step <;> rfl

theorem Explained.step {h : List AdminMark} {a : Action} (hs : Explained env h s)
    (step : DaemonStep env s a t o) : Explained env (h ++ marks s a t o) t := by
  have hrecords := hs.records.step step
  cases step with
  | admin step => exact hs.admin step
  | conn task project step =>
    simp only [marks, Action.call, commitMark, step.answers_eq_nil, List.map_nil, List.append_nil]
    exact ⟨hrecords, hs.legal, hs.progress⟩
  | loop step =>
    obtain ⟨hinner, -, hrequests, -⟩ := step.frame
    have hnames : t.names = s.names := by rw [Daemon.names, hinner, Daemon.names]
    simp only [marks, Action.call, commitMark, List.filterMap_nil, List.map_nil, List.append_nil]
    exact ⟨hrecords, hnames ▸ hs.legal, hrequests ▸ hs.progress⟩
  | rotate | status | writer =>
    simp only [marks, Action.call, commitMark, Obs.answer, List.filterMap_cons, List.filterMap_nil,
      List.map_nil, List.append_nil]
    exact ⟨hrecords, hs.legal, hs.progress⟩

theorem run_explained {backend : Option Session} {stale : Daemon.Stale} {as : List Action}
    {h : List AdminMark}
    (hrun : Machine.exec (markedStep env) (Daemon.init env backend stale) as = some (s, h)) :
    Explained env h s := by
  refine Machine.exec_induction (I := Explained env) .initial ?_ hrun
  intro h s a t m hs hmarked
  obtain ⟨⟨t, o⟩, hstep, heq⟩ := Option.map_eq_some_iff.mp hmarked
  cases heq
  exact hs.step (step_cases hstep)

theorem events_marks {a : Action} :
    events (marks s a t o) = a.call ++ o.filterMap Obs.answer := by
  have hmark : ∀ l : List AdminEvent, (l.map markOf).filterMap Mark.event = l := by
    intro l
    rw [List.filterMap_map]
    have hsome : Mark.event ∘ markOf = some := by
      funext e
      cases e <;> rfl
    rw [hsome, List.filterMap_some]
  have hcommit : (commitMark s a t).filterMap Mark.event = [] := by
    unfold commitMark
    split
    · split <;> rfl
    · rfl
  rw [events, marks, List.filterMap_append, List.filterMap_append, hmark, hmark, hcommit,
    List.append_nil]

/-- The steps with their marks are the steps with their events. -/
theorem exec_marked {as : List Action} {h : List AdminEvent}
    (hrun : Machine.exec (controlStep env) s as = some (t, h)) :
    ∃ m, Machine.exec (markedStep env) s as = some (t, m) ∧ events m = h := by
  refine Machine.exec_finer ?_ hrun
  intro s a t o hcontrol
  obtain ⟨⟨t, o⟩, hstep, heq⟩ := Option.map_eq_some_iff.mp hcontrol
  cases heq
  exact ⟨marks s a t o, Option.map_eq_some_iff.mpr ⟨_, hstep, rfl⟩, events_marks⟩

/-- The names that `status` lists. -/
def AdminResponse.listed : AdminResponse → List String
  | .status r => r.projects.map ProjectStatus.name
  | _ => []

theorem Records.listed_status (h : Records env s) {uptime : UInt64} :
    (dispatchStatus env s uptime).listed = s.inner.keys := by
  have hentry : ∀ e ∈ s.inner.entries, ∃ p, s.projects e.2 = some p ∧ p.name = e.1 := by
    intro e he
    obtain ⟨hname, hproject⟩ := h.inner e.1 e.2 (AList.mem_lookup_iff.mpr he)
    obtain ⟨p, hp⟩ := Option.isSome_iff_exists.mp hproject
    exact ⟨p, hp, (h.project e.2 p hp).1.trans hname⟩
  simp only [dispatchStatus, AdminResponse.listed, Daemon.snapshot, AList.keys]
  generalize s.inner.entries = entries at hentry
  induction entries with
  | nil => rfl
  | cons e entries ih =>
    obtain ⟨p, hp, hname⟩ := hentry e List.mem_cons_self
    have hrest := ih fun e' he' => hentry e' (List.mem_cons_of_mem e he')
    simp only [List.map_cons, List.filterMap_cons, hp, List.keys_cons]
    rw [hrest]
    exact congrArg (· :: entries.keys) hname

/-- Whatever the interleaving, the `register`, `unregister` and `reload` requests are answered as if
they had been carried out one after the other on the set of the names, each between its call and its
answer; `status` lists the set that they leave, each name once. -/
theorem admin_linearizable {backend : Option Session} {stale : Daemon.Stale} {as : List Action}
    {h : List AdminEvent}
    (hrun : Machine.exec (controlStep env) (Daemon.init env backend stale) as = some (s, h)) :
    ∃ log names, Linearization Allows (AnsweredAs env) ∅ h log ∧ Legal Allows ∅ log names ∧
      ∀ uptime, (dispatchStatus env s uptime).listed.Nodup ∧
        (dispatchStatus env s uptime).listed.toFinset = names := by
  obtain ⟨m, hmarked, rfl⟩ := exec_marked hrun
  have explained := run_explained hmarked
  refine ⟨commits m, s.names,
    linearization_of_marks explained.legal fun id => (explained.progress id).shape,
    explained.legal, ?_⟩
  intro uptime
  rw [explained.records.listed_status]
  exact ⟨s.inner.nodupKeys, rfl⟩

end

/-- Two `register` requests for one name overlap, and an `unregister` overlaps a `reload`. -/
def contendedRun : List Action :=
  [.admin ⟨"web", 0⟩ (.submit (.register "/srv/web")),
    .admin ⟨"web", 1⟩ (.submit (.register "/srv/web")),
    .admin ⟨"web", 0⟩ (.loadManifest (sampleDisk "web")),
    .admin ⟨"web", 1⟩ (.loadManifest (sampleDisk "web")),
    .admin ⟨"web", 1⟩ (.registerLocked 0 .success),
    .admin ⟨"web", 0⟩ (.registerLocked 1 .success),
    .admin ⟨"web", 1⟩ .spawnLoop, .admin ⟨"web", 1⟩ .insertTask,
    .admin ⟨"web", 2⟩ (.submit .unregister), .admin ⟨"web", 3⟩ (.submit .reload),
    .admin ⟨"web", 2⟩ .removeProject, .admin ⟨"web", 3⟩ .lookupProject]

theorem admin_linearizable_contended : ∃ s h,
    Machine.exec (controlStep webEnv) (Daemon.init webEnv none fun _ => none) contendedRun =
      some (s, h) ∧
    ∃ log names, Linearization Allows (AnsweredAs webEnv) ∅ h log ∧ Legal Allows ∅ log names ∧
      ∀ uptime, (dispatchStatus webEnv s uptime).listed.Nodup ∧
        (dispatchStatus webEnv s uptime).listed.toFinset = names := by
  have hsome : (Machine.exec (controlStep webEnv) (Daemon.init webEnv none fun _ => none)
      contendedRun).isSome = true := by
    decide +kernel
  obtain ⟨⟨s, h⟩, hrun⟩ := Option.isSome_iff_exists.mp hsome
  exact ⟨s, h, hrun, admin_linearizable hrun⟩

end RemoBroker
