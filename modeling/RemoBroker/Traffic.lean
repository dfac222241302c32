import RemoBroker.Limits

/-! The lines that the broker writes on its two sockets over a whole run, and when they keep to the
size limit of the protocol.  No code compares a response with that limit, so whether it is kept is
decided by the texts that come from the clients, the manifests, the backend and the libraries. -/

namespace RemoBroker

open Json (newline)

def ProjectResponse.line (r : ProjectResponse) : List UInt8 := r.toJson ++ [newline]

def AdminResponse.line (r : AdminResponse) : List UInt8 := r.toJson ++ [newline]

def Obs.line : Obs → Option (List UInt8)
  | .writing _ response => some response.line
  | .replied _ response | .served response => some response.line
  | _ => none

/-- A step of the daemon, or a line on the admin socket that does not parse. -/
inductive TrafficAction where
  | daemon (a : Action)
  | malformed (e : String)

def trafficStep (env : Env) : Machine.Step Daemon TrafficAction (List UInt8) := fun s a =>
  match a with
  | .daemon a => (step env s a).map fun r => (r.1, r.2.filterMap Obs.line)
  | .malformed e => some (s, [(adminProtocolErrorResponse e).line])

/-- The bytes of the texts that the response to a line carries, unless a lookup decides it. -/
def lineSize (env : Env) (p : Project) : ProjectLine → Nat
  | .error e => textSize e
  | .ok .ping => textSize env.version + textSize p.name
  | .ok .info => textSize p.name + listSize p.manifest.allowlist.secrets
  | .ok (.get name) =>
    if name ∈ p.manifest.allowlist.secrets then 0 else textSize (env.debug name)

/-- The bytes of the texts that the response to an answer of the backend carries. -/
def answerSize (env : Env) (name : String) : Except String (Option String) → Nat
  | .ok (some value) => textSize value
  | .ok none => textSize (env.debug name)
  | .error msg => textSize msg

def connSize (env : Env) (p : Project) (conn : Conn) (a : ConnAction) : Nat :=
  match conn.pc, a with
  | .dispatching line _, .dispatch => lineSize env p line
  | .awaiting name _ session, .return at_ => answerSize env name (env.fnox session name at_)
  | _, _ => 0

/-- The bytes of the texts that the answer to an admin request may carry. -/
def adminSize (env : Env) (s : Daemon) (id : AdminId) (a : AdminAction) : Nat :=
  match a, s.requests id with
  | .loadManifest disk, some (.register path) => manifestSize env disk id.name path
  | .loadManifest disk, some (.loading reg) =>
    (s.projects reg).elim 0 fun p => manifestSize env disk id.name p.projectPath
  | .registerLocked _ out, _ => maxSize (textSize (env.debug id.name) ::
    ([out.unlink, out.bind, out.chmod].flatMap Option.toList).map fun e =>
      textSize (socketPathFor env.config.socketDir id.name) + textSize e)
  | .insertTask, some (.inserting reg) => (s.projects reg).elim 0 fun p => textSize p.socketPath
  | .removeProject, _ | .lookupProject, _ => textSize (env.debug id.name)
  | .storeManifest, some (.storing _ m) => listSize m.allowlist.secrets
  | _, _ => 0

def errorSize {α : Type} : Except String α → Nat
  | .error e => textSize e
  | .ok _ => 0

/-- The bytes of the texts that a step reads and that a response then carries. -/
def carried (env : Env) (s : Daemon) : TrafficAction → Nat
  | .malformed e => textSize e
  | .daemon (.conn c a) =>
    match s.conns c, s.projects c.reg with
    | some conn, some p => connSize env p conn a
    | _, _ => 0
  | .daemon (.admin id a) => adminSize env s id a
  | .daemon (.rotate token rebuilt) => max (errorSize token) (errorSize rebuilt)
  | .daemon (.status uptimeSeconds) =>
    textSize env.version + (Json.number uptimeSeconds.toNat).length +
      statusSize ((s.snapshot.filterMap s.projects).map ProjectStatus.ofProject)
  | _ => 0

/-- A response with texts of that many bytes keeps to the limit, with 256 bytes for the rest. -/
def Room (n : Nat) : Prop := n + 256 ≤ maxMessageBytes

instance {n : Nat} : Decidable (Room n) := inferInstanceAs (Decidable (n + 256 ≤ maxMessageBytes))

/-- What a connection holds fits into a response. -/
def Holdable : ConnPc → Prop
  | .inserting _ _ value | .readingTtl _ _ value => Room (textSize value)
  | .emitting _ r | .responding r | .writing r => r.line.length ≤ maxMessageBytes
  | _ => True

structure Fitting (lines : List (List UInt8)) (s : Daemon) : Prop where
  conn : ∀ c conn, s.conns c = some conn → Holdable conn.pc
  cached : ∀ reg p name e, s.projects reg = some p → p.cache.stored name = some e →
    Room (textSize e.value)
  lines : ∀ line ∈ lines, line.length ≤ maxMessageBytes

section
variable {env : Env} {s t : Daemon} {o : List Obs} {lines : List (List UInt8)}

theorem Room.mono {n m : Nat} (h : Room n) (hle : m ≤ n) : Room m :=
  (Nat.add_le_add_right hle 256).trans h

theorem length_line {r : ProjectResponse} {n : Nat} (h : r.toJson.length ≤ n + 255)
    (room : Room n) : r.line.length ≤ maxMessageBytes := by
  unfold Room at room
  simp only [ProjectResponse.line, List.length_append, List.length_singleton]
  omega

theorem length_adminLine {r : AdminResponse} {n : Nat} (h : r.toJson.length ≤ n + 255)
    (room : Room n) : r.line.length ≤ maxMessageBytes := by
  unfold Room at room
  simp only [AdminResponse.line, List.length_append, List.length_singleton]
  omega

theorem ProjectErrorCode.wire_size (code : ProjectErrorCode) : textSize code.wire ≤ 20 := by
  cases code <;> decide +kernel

theorem AdminErrorCode.wire_size (code : AdminErrorCode) : textSize code.wire ≤ 20 := by
  cases code <;> decide +kernel

theorem errorLine {code : ProjectErrorCode} {message : String} {n : Nat}
    (h : textSize message ≤ n + 200) (room : Room n) :
    (ProjectResponse.error (ErrorResponse.new code message)).line.length ≤ maxMessageBytes := by
  have hcode := code.wire_size
  have hlength : ((ErrorResponse.new code message).toJson ProjectErrorCode.wire).length ≤ _ :=
    length_error
  exact length_line (r := .error _) (by rw [ProjectResponse.toJson]; omega) room

theorem adminErrorLine {code : AdminErrorCode} {message : String} {n : Nat}
    (h : textSize message ≤ n + 200) (room : Room n) :
    (AdminResponse.error (ErrorResponse.new code message)).line.length ≤ maxMessageBytes := by
  have hcode := code.wire_size
  have hlength : ((ErrorResponse.new code message).toJson AdminErrorCode.wire).length ≤ _ :=
    length_error
  exact length_adminLine (r := .error _) (by rw [AdminResponse.toJson]; omega) room

theorem dispatchProject_holdable {p : Project} {line : ProjectLine} {start : Instant}
    (room : Room (lineSize env p line)) : Holdable (dispatchProject env p line start) := by
  unfold dispatchProject
  split
  · exact errorLine (size_after (by decide +kernel)) room
  · exact length_line (length_ping.trans (Nat.add_le_add_left (by decide) _)) room
  · exact length_line (length_info.trans (Nat.add_le_add_left (by decide) _)) room
  · split
    · trivial
    · rename_i hname
      rw [lineSize, if_neg hname] at room
      exact errorLine (size_between (by decide +kernel)) room

theorem getLine {value : String} {ttlSeconds : UInt32} (room : Room (textSize value)) :
    (ProjectResponse.get (GetResponse.utf8 value ttlSeconds)).line.length ≤ maxMessageBytes := by
  have httl : (numberField "ttl_seconds" ttlSeconds.toNat).2.length ≤ 10 := length_numberField
  refine length_line (r := .get _) ?_ room
  rw [ProjectResponse.toJson, length_get]
  exact Nat.add_le_add_left (Nat.add_le_add_right httl 37) _ |>.trans (by omega)

theorem afterReturn_holdable {name : String} {start : Instant}
    {answer : Except String (Option String)} (room : Room (answerSize env name answer)) :
    Holdable (afterReturn env name start answer) := by
  unfold afterReturn
  split
  · exact room
  · exact errorLine (size_between (by decide +kernel)) room
  · exact errorLine (size_after (by decide +kernel)) room

/-- A step of a connection leaves something to write that fits. -/
theorem ConnStep.holdable {backend : Option Session} {q : RequestId} {p p' : Project}
    {conn conn' : Conn} {a : ConnAction} (step : ConnStep env backend q p conn a p' conn' o)
    (hpc : Holdable conn.pc)
    (hcached : ∀ name e, p.cache.stored name = some e → Room (textSize e.value))
    (room : Room (connSize env p conn a)) : Holdable conn'.pc := by
  unfold connSize at room
  cases step with
  | received => trivial
  | dispatched pc =>
    rw [pc] at room
    exact dispatchProject_holdable room
  | @lookedUp name start now pc =>
    show Holdable (afterLookup name start (p.cache.get name now).2)
    cases hhit : (p.cache.get name now).2 with
    | none => trivial
    | some hit =>
      obtain ⟨e, hstored, _, hvalue, _⟩ := BoundedCache.get_hit hhit
      exact getLine (hvalue ▸ hcached name e hstored)
  | noSession => exact errorLine (n := 0) (by decide +kernel) (by decide)
  | called => trivial
  | returned pc =>
    rw [pc] at room
    exact afterReturn_holdable room
  | inserted pc =>
    rw [pc] at hpc
    exact hpc
  | readTtl pc =>
    rw [pc] at hpc
    exact getLine hpc
  | emitted pc | started pc =>
    rw [pc] at hpc
    exact hpc
  | answered => trivial
  | closed => trivial

theorem ConnStep.line_fits {backend : Option Session} {q : RequestId} {p p' : Project}
    {conn conn' : Conn} {a : ConnAction} (step : ConnStep env backend q p conn a p' conn' o)
    (hpc : Holdable conn.pc) : ∀ line ∈ o.filterMap Obs.line, line.length ≤ maxMessageBytes := by
  cases step with
  | started pc =>
    rw [pc] at hpc
    intro line hline
    obtain rfl : line = _ := by simpa [Obs.line] using hline
    exact hpc
  | _ => simp [Obs.line]

theorem adminErrorFor_fits {e : RegistryError} (room : Room (e.quoted env.debug)) :
    (adminErrorFor env.debug e).line.length ≤ maxMessageBytes :=
  adminErrorLine (e.message_size.trans (Nat.add_le_add_left (by decide) _)) room

theorem bindProjectSocket_quoted {files files' : Files} {path : String} {reg : RegId}
    {out : BindOutcome} {e : RegistryError} {ops : List FileOp}
    (h : bindProjectSocket files path reg out = (files', .error e, ops)) (debug : String → String) :
    e.quoted debug ∈ ([out.unlink, out.bind, out.chmod].flatMap Option.toList).map fun source =>
      textSize path + textSize source := by
  have he : (bindProjectSocket files path reg out).2.1 = .error e := by rw [h]
  obtain ⟨unlink, bind, chmod, created⟩ := out
  cases unlink with
  | some source =>
    cases he
    simp [RegistryError.quoted]
  | none =>
    cases bind with
    | some source =>
      cases he
      simp [RegistryError.quoted]
    | none =>
      cases chmod with
      | some source =>
        cases he
        simp [RegistryError.quoted]
      | none => cases he

theorem fileObs_line {path : String} {ops : List FileOp} :
    (fileObs path ops).filterMap Obs.line = [] := by
  rw [fileObs, List.filterMap_map]
  exact List.filterMap_eq_nil_iff.mpr fun _ _ => rfl

theorem AdminStep.line_fits {id : AdminId} {a : AdminAction} (step : AdminStep env s id a t o)
    (room : Room (adminSize env s id a)) :
    ∀ line ∈ o.filterMap Obs.line, line.length ≤ maxMessageBytes := by
  unfold adminSize at room
  cases step with
  | registerFailed task load =>
    rw [task] at room
    have hfits := adminErrorFor_fits (room.mono (loadNamed_error load))
    simpa [Obs.line] using hfits
  | reloadFailed task project load =>
    simp only [task, project, Option.elim_some] at room
    have hfits := adminErrorFor_fits (room.mono (loadNamed_error load))
    simpa [Obs.line] using hfits
  | projectExists =>
    have hfits := adminErrorFor_fits (e := .projectExists id.name)
      (room.mono (le_maxSize List.mem_cons_self))
    simpa [Obs.line] using hfits
  | unregisterUnknown | reloadUnknown =>
    have hfits := adminErrorFor_fits (e := .projectUnknown id.name) room
    simpa [Obs.line] using hfits
  | bindFailed task absent fresh bind =>
    have hquoted := bindProjectSocket_quoted bind env.debug
    have hfits := adminErrorFor_fits (room.mono (le_maxSize (List.mem_cons_of_mem _ hquoted)))
    rw [List.filterMap_append, fileObs_line]
    simpa [Obs.line] using hfits
  | bound =>
    rw [List.filterMap_append, fileObs_line]
    simp [Obs.line]
  | inserted task project =>
    simp only [task, project, Option.elim_some] at room
    have hfits :=
      length_adminLine (length_registered.trans (Nat.add_le_add_left (by decide) _)) room
    simpa [Obs.line] using hfits
  | unlinked => simpa [Obs.line] using (by decide +kernel)
  | stored task project =>
    rw [task] at room
    have hfits := length_adminLine (length_reloaded.trans (Nat.add_le_add_left (by decide) _)) room
    simpa [Obs.line] using hfits
  | _ => simp

theorem rotateBootstrap_fits {backend : Option Session} {token : Except String Unit}
    {rebuilt : Except String Session} (room : Room (max (errorSize token) (errorSize rebuilt))) :
    (rotateBootstrap backend token rebuilt).2.line.length ≤ maxMessageBytes := by
  cases backend with
  | none => exact adminErrorLine (n := 0) (by decide +kernel) (by decide)
  | some session =>
    cases token with
    | error e =>
      exact adminErrorLine (size_after (by decide +kernel)) (room.mono (Nat.le_max_left _ _))
    | ok u =>
      cases rebuilt with
      | error e =>
        exact adminErrorLine (size_after (by decide +kernel)) (room.mono (Nat.le_max_right _ _))
      | ok new => exact (by decide +kernel : AdminResponse.rotated.line.length ≤ maxMessageBytes)

theorem DaemonStep.line_fits {a : Action} (step : DaemonStep env s a t o)
    (hconn : ∀ c conn, s.conns c = some conn → Holdable conn.pc)
    (room : Room (carried env s (.daemon a))) :
    ∀ line ∈ o.filterMap Obs.line, line.length ≤ maxMessageBytes := by
  cases step with
  | admin step => exact step.line_fits room
  | conn task project step => exact step.line_fits (hconn _ _ task)
  | loop => simp
  | rotate => simpa [Obs.line] using rotateBootstrap_fits room
  | status =>
    have hfits := length_adminLine (r := dispatchStatus env s _)
      ((length_status _).trans (Nat.add_le_add_left (by decide) _)) room
    simpa [Obs.line] using hfits
  | writer => simp

/-- What is in a cache was fetched. -/
theorem DaemonStep.cached {a : Action} (step : DaemonStep env s a t o)
    (hconn : ∀ c conn, s.conns c = some conn → Holdable conn.pc)
    (hcached : ∀ reg p name e, s.projects reg = some p → p.cache.stored name = some e →
      Room (textSize e.value)) :
    ∀ reg p name e, t.projects reg = some p → p.cache.stored name = some e →
      Room (textSize e.value) := by
  intro reg p name e hp hstored
  rcases step.stored_cases hp hstored with ⟨old, hold, hsame⟩ | ⟨c, conn, -, task, ⟨start, pc⟩, -⟩
  · exact hcached reg old name e hold hsame
  · have hvalue := hconn c conn task
    rw [pc] at hvalue
    exact hvalue

theorem DaemonStep.holdable {a : Action} (step : DaemonStep env s a t o)
    (h : Fitting lines s) (room : Room (carried env s (.daemon a))) :
    ∀ c conn, t.conns c = some conn → Holdable conn.pc := by
  intro c conn hc
  rcases a.conn_or with ⟨d, b, rfl⟩ | hother
  · cases step with
    | conn task project step =>
      rcases Function.update_some_cases hc with ⟨rfl, rfl⟩ | ⟨-, hold⟩
      · simp only [carried, task, project] at room
        exact step.holdable (h.conn _ _ task) (h.cached _ _ · · project) room
      · exact h.conn c conn hold
  · rcases step.conn_before hother hc with ⟨cancelled, hold⟩ | hpc | hpc
    · exact h.conn c { conn with cancelled } hold
    · rw [hpc]
      trivial
    · rw [hpc]
      trivial

theorem Fitting.step {a : TrafficAction} {o : List (List UInt8)} (h : Fitting lines s)
    (room : Room (carried env s a)) (hstep : trafficStep env s a = some (t, o)) :
    Fitting (lines ++ o) t := by
  have happend : (∀ line ∈ o, line.length ≤ maxMessageBytes) →
      ∀ line ∈ lines ++ o, line.length ≤ maxMessageBytes := by
    intro ho line hline
    rcases List.mem_append.mp hline with hline | hline
    · exact h.lines line hline
    · exact ho line hline
  cases a with
  | malformed e =>
    cases hstep
    refine ⟨h.conn, h.cached, happend ?_⟩
    have hfits : (adminProtocolErrorResponse e).line.length ≤ maxMessageBytes :=
      adminErrorLine (size_after (by decide +kernel)) room
    simpa using hfits
  | daemon a =>
    obtain ⟨⟨t', obs⟩, hs, heq⟩ := Option.map_eq_some_iff.mp hstep
    cases heq
    have step := step_cases hs
    exact ⟨step.holdable h room, step.cached h.conn h.cached, happend (step.line_fits h.conn room)⟩

/-- In every run in which each response has room for the texts that it carries, no line that is
written on either socket is over the limit. -/
theorem run_lines_within_limit {backend : Option Session} {stale : Daemon.Stale}
    {as : List TrafficAction}
    (hroom : Machine.Along (trafficStep env) (fun s a => Room (carried env s a))
      (Daemon.init env backend stale) as)
    (hrun : Machine.exec (trafficStep env) (Daemon.init env backend stale) as =
      some (s, lines)) :
    ∀ line ∈ lines, line.length ≤ maxMessageBytes := by
  have hinit : Fitting [] (Daemon.init env backend stale) := by
    refine ⟨?_, ?_, by simp⟩
    · intro c conn hconn
      cases hconn
    · intro reg p name e hp
      cases hp
  exact (Machine.exec_induction_along hinit (fun _ _ _ _ _ h room hs => h.step room hs)
    hroom hrun).lines

/-- A registration, a fetch, a line that does not parse and a `status`. -/
def mixedRun : List TrafficAction :=
  (Action.register ⟨"web", 0⟩ "/srv/web" "web" 0 ++ Action.connect ⟨⟨"web", 0⟩, 0⟩ ++
      Action.fetch ⟨⟨"web", 0⟩, 0⟩ "A" 0).map .daemon ++
    [.malformed "expected value at line 1 column 1", .daemon (.status 5)]

theorem run_lines_within_limit_mixed : ∃ s lines,
    Machine.Along (trafficStep webEnv) (fun s a => Room (carried webEnv s a))
      (Daemon.init webEnv (some 0) fun _ => none) mixedRun ∧
    Machine.exec (trafficStep webEnv) (Daemon.init webEnv (some 0) fun _ => none) mixedRun =
      some (s, lines) ∧
    lines.length = 4 ∧ ∀ line ∈ lines, line.length ≤ maxMessageBytes := by
  have hroom : Machine.Along (trafficStep webEnv) (fun s a => Room (carried webEnv s a))
      (Daemon.init webEnv (some 0) fun _ => none) mixedRun :=
    Machine.along_of_check (g := fun s a => decide (Room (carried webEnv s a)))
      (I := fun _ => True) trivial (fun _ _ _ _ _ _ _ => trivial)
      (fun _ _ _ hg => of_decide_eq_true hg) (by decide +kernel)
  have hlines : (Machine.exec (trafficStep webEnv) (Daemon.init webEnv (some 0) fun _ => none)
      mixedRun).map (·.2.length) = some 4 := by
    decide +kernel
  obtain ⟨⟨s, lines⟩, hrun, hlength⟩ := Option.map_eq_some_iff.mp hlines
  exact ⟨s, lines, hroom, hrun, hlength, run_lines_within_limit hroom hrun⟩

/-- The rest of a `get` whose secret the backend is asked for, up to the write of its response. -/
def Action.finishFetch (c : ConnId) (now : Instant) : List Action :=
  [.return now, .insert now "", .readTtl, .emit now 0, .startWrite].map (.conn c)

/-- Whatever value the backend answers with is written, in one line. -/
theorem exec_finishFetch {c : ConnId} {conn : Conn} {p : Project} {name value : String}
    {start now : Instant} {session : Session} (hconn : s.conns c = some conn)
    (hp : s.projects c.reg = some p) (hpc : conn.pc = .awaiting name start session)
    (hvalue : env.fnox session name now = .ok (some value)) :
    ∃ t ttlSeconds, Machine.exec (trafficStep env) s ((Action.finishFetch c now).map .daemon) =
      some (t, [(ProjectResponse.get (GetResponse.utf8 value ttlSeconds)).line]) := by
  simp [Action.finishFetch, Machine.exec, trafficStep, step, stepConn, connStep, hconn, hp, hpc,
    hvalue, afterReturn, Daemon.setProject, Obs.line]
  exact ⟨_, rfl⟩

def longValue : String := String.ofList (List.replicate maxMessageBytes 'v')

theorem longValue_size : textSize longValue = maxMessageBytes := by
  rw [longValue, textSize_ofList, List.length_replicate]
  intro c hc
  rw [List.eq_of_mem_replicate hc]
  decide +kernel

def longEnv : Env := { webEnv with fnox := fun _ _ _ => .ok (some longValue) }

def Action.ask (c : ConnId) (name : String) (now : Instant) : List Action :=
  [.receive (.ok (.get name)) now, .dispatch, .lookUp now, .call].map (.conn c)

/-- A registration, and a `get` that waits for the backend. -/
def askedRun (c : ConnId) : List TrafficAction :=
  (Action.register ⟨"web", 0⟩ "/srv/web" "web" 0 ++ Action.connect c ++
    Action.ask c "A" 0).map .daemon

def isAwaiting (s : Daemon) (c : ConnId) : Bool :=
  match s.conns c, s.projects c.reg with
  | some ⟨_, _, _, .awaiting .., _⟩, some _ => true
  | _, _ => false

/-- A secret of the size of the limit is fetched, and its response is over the limit. -/
theorem run_line_over_limit : ∃ s lines,
    Machine.exec (trafficStep longEnv) (Daemon.init longEnv (some 0) fun _ => none)
        (askedRun ⟨⟨"web", 0⟩, 0⟩ ++ (Action.finishFetch ⟨⟨"web", 0⟩, 0⟩ 0).map .daemon) =
      some (s, lines) ∧
    ∃ line ∈ lines, maxMessageBytes < line.length := by
  -- The value is left symbolic: the run is evaluated only up to the call of the backend.
  have hasked : (Machine.exec (trafficStep longEnv) (Daemon.init longEnv (some 0) fun _ => none)
      (askedRun ⟨⟨"web", 0⟩, 0⟩)).map (fun r => isAwaiting r.1 ⟨⟨"web", 0⟩, 0⟩) = some true := by
    decide +kernel
  obtain ⟨⟨s, lines⟩, hrun, hawaiting⟩ := Option.map_eq_some_iff.mp hasked
  simp only [isAwaiting] at hawaiting
  split at hawaiting
  next peerPid peerUid served name start session cancelled p hconn hp =>
    have hvalue : longEnv.fnox session name 0 = .ok (some longValue) := rfl
    obtain ⟨t, ttlSeconds, hfinish⟩ := exec_finishFetch hconn hp rfl hvalue
    refine ⟨t, _, Machine.exec_append hrun hfinish, _,
      List.mem_append_right lines List.mem_cons_self, ?_⟩
    rw [ProjectResponse.line, List.length_append, ProjectResponse.toJson, length_get,
      longValue_size]
    omega
  next => cases hawaiting

end

end RemoBroker
