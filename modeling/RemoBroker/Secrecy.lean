import RemoBroker.Daemon.Step
import RemoBroker.Lib.ValueMap

/-! Secret values and the audit trail.  `redact` blanks the secret values and error messages in a
state of the daemon; a step depends on nothing that it blanks, except for what it blanks again. -/

namespace RemoBroker

def CacheEntry.redact (e : CacheEntry) : CacheEntry := { e with value := "" }

def CacheHit.redact (h : CacheHit) : CacheHit := { h with value := "" }

def BoundedCache.redact (c : BoundedCache) : BoundedCache :=
  { c with map := c.map.mapValues fun _ e => e.redact }

def Project.redact (p : Project) : Project := { p with cache := p.cache.redact }

def ProjectResponse.redact : ProjectResponse → ProjectResponse
  | .get g => .get { g with
      value := g.value.map fun _ => ""
      valueB64 := g.valueB64.map fun _ => "" }
  | .error e => .error { e with message := "" }
  | r => r

def ConnPc.redact : ConnPc → ConnPc
  | .inserting name start _ => .inserting name start ""
  | .readingTtl name start _ => .readingTtl name start ""
  | .emitting event r => .emitting event r.redact
  | .responding r => .responding r.redact
  | .writing r => .writing r.redact
  | pc => pc

def Conn.redact (c : Conn) : Conn := { c with pc := c.pc.redact }

def Daemon.redact (s : Daemon) : Daemon :=
  { s with
    projects := fun reg => (s.projects reg).map Project.redact
    conns := fun c => (s.conns c).map Conn.redact }

/-- An answer of the backend without the value or the message. -/
def redactAnswer : Except String (Option String) → Except String (Option String)
  | .ok found => .ok (found.map fun _ => "")
  | .error _ => .error ""

def Env.redact (env : Env) : Env :=
  { env with fnox := fun session name at_ => redactAnswer (env.fnox session name at_) }

def Obs.fetched : Obs → Option (RequestId × FetchEvent)
  | .recorded q event => some (q, event)
  | _ => none

section
variable {env : Env} {s : Daemon} {c : BoundedCache} {name value front : String} {now : Instant}

@[simp] theorem CacheEntry.redact_redact (e : CacheEntry) : e.redact.redact = e.redact := rfl

@[simp] theorem BoundedCache.redact_redact : c.redact.redact = c.redact := by
  simp only [redact, BoundedCache.mk.injEq, and_self, and_true]
  apply AList.ext
  simp [Function.comp_def]

@[simp] theorem ProjectResponse.redact_redact (r : ProjectResponse) :
    r.redact.redact = r.redact := by
  cases r with
  | get g => simp [redact, Option.map_map, Function.comp_def]
  | ping | info | error => rfl

@[simp] theorem ConnPc.redact_redact (pc : ConnPc) : pc.redact.redact = pc.redact := by
  cases pc <;> simp [redact]

theorem evictOldest_redact {map : CacheMap} :
    evictOldest front (map.mapValues fun _ e => e.redact) =
      (evictOldest front map).mapValues fun _ e => e.redact := by
  have hiter : iterFrom front (map.mapValues fun _ e => e.redact) =
      (iterFrom front map).map fun e => ⟨e.1, e.2.redact⟩ := by
    simp [iterFrom, List.filter_map, Function.comp_def]
  -- blanking keeps the times that decide which entry goes
  have hargmin :
      (iterFrom front (map.mapValues fun _ e => e.redact)).argmin (fun e => e.2.fetchedAt) =
      ((iterFrom front map).argmin fun e => e.2.fetchedAt).map fun e => ⟨e.1, e.2.redact⟩ := by
    rw [hiter, List.argmin_map_eq]
    rfl
  unfold evictOldest
  rw [hargmin]
  cases (iterFrom front map).argmin fun e => e.2.fetchedAt with
  | none => rfl
  | some e => simp

theorem BoundedCache.get_redact :
    c.redact.get name now =
      ((c.get name now).1.redact, (c.get name now).2.map CacheHit.redact) := by
  unfold get
  cases hlookup : c.map.lookup name with
  | none => simp [redact, hlookup]
  | some e =>
    have hsame : e.redact.isExpired now = e.isExpired now := rfl
    by_cases hexpired : e.isExpired now = true
    · simp [redact, hlookup, hsame, hexpired]
    · simp only [redact, AList.lookup_mapValues, hlookup, Option.map_some, hsame, hexpired]
      rfl

theorem BoundedCache.insert_redact {ttl : Option Duration} :
    (c.insert name value ttl now front).redact = c.redact.insert name "" ttl now front := by
  have hvalue : ∀ map : CacheMap, ((map.insert name ⟨value, now, ttl.getD c.defaultTtl⟩).mapValues
      fun _ e => e.redact) =
      (map.mapValues fun _ e => e.redact).insert name ⟨"", now, ttl.getD c.defaultTtl⟩ :=
    fun map => AList.insert_mapValues.symm
  simp only [insert, redact, hvalue, AList.lookup_mapValues, Option.isSome_map,
    AList.erase_mapValues, AList.mapValues_entries, List.length_map]
  split
  · rw [evictOldest_redact]
  · rfl

def redactConn (r : Project × Conn × List Obs) : Project × Conn × List (RequestId × FetchEvent) :=
  (r.1.redact, r.2.1.redact, r.2.2.filterMap Obs.fetched)

theorem afterLookup_redact {start : Instant} {hit : Option CacheHit} :
    (afterLookup name start (hit.map CacheHit.redact)).redact =
      (afterLookup name start hit).redact := by
  cases hit <;> rfl

theorem afterReturn_redact {start : Instant} {answer : Except String (Option String)} :
    (afterReturn env.redact name start (redactAnswer answer)).redact =
      (afterReturn env name start answer).redact := by
  cases answer with
  | error msg => rfl
  | ok found => cases found <;> rfl

theorem dispatchProject_redact {p : Project} {line : ProjectLine} {start : Instant} :
    dispatchProject env.redact p.redact line start = dispatchProject env p line start := by
  rfl

@[simp] theorem Project.redact_redact (p : Project) : p.redact.redact = p.redact := by
  simp [redact]

@[simp] theorem Conn.redact_redact (c : Conn) : c.redact.redact = c.redact := by
  simp [redact]

/-- A step of a connection on the blanked state leaves the same blanked state and records the same
events. -/
theorem connStep_redact {backend : Option Session} {q : RequestId} {p : Project} {conn : Conn}
    {a : ConnAction} :
    (connStep env.redact backend q p.redact conn.redact a).map redactConn =
      (connStep env backend q p conn a).map redactConn := by
  have hp := p.redact_redact
  obtain ⟨pid, uid, served, pc, cancelled⟩ := conn
  cases pc with
  | reading =>
    cases a with
    | receive | close => exact congrArg some (Prod.ext hp rfl)
    | _ => rfl
  | dispatching line start =>
    cases a with
    | dispatch =>
      refine congrArg some (Prod.ext hp (Prod.ext ?_ rfl))
      exact congrArg (fun pc => Conn.redact ⟨pid, uid, served, pc, cancelled⟩)
        dispatchProject_redact
    | _ => rfl
  | lookingUp name start =>
    cases a with
    | lookUp now =>
      have hget : p.redact.cache.get name now =
          ((p.cache.get name now).1.redact, (p.cache.get name now).2.map CacheHit.redact) :=
        BoundedCache.get_redact
      have hpc : (afterLookup name start (p.redact.cache.get name now).2).redact =
          (afterLookup name start (p.cache.get name now).2).redact := by
        rw [hget, afterLookup_redact]
      have hcache : (p.redact.cache.get name now).1.redact = (p.cache.get name now).1.redact := by
        rw [hget, BoundedCache.redact_redact]
      refine congrArg some (Prod.ext ?_ (Prod.ext ?_ rfl))
      · exact congrArg (fun c => { p with cache := c }) hcache
      · exact congrArg (fun pc => Conn.mk pid uid served pc cancelled) hpc
    | _ => rfl
  | calling name start =>
    cases a with
    | call => cases backend <;> exact congrArg some (Prod.ext hp rfl)
    | _ => rfl
  | awaiting name start session =>
    cases a with
    | «return» at_ =>
      refine congrArg some (Prod.ext hp (Prod.ext ?_ rfl))
      exact congrArg (fun pc => Conn.mk pid uid served pc cancelled) afterReturn_redact
    | close =>
      cases cancelled with
      | false => rfl
      | true => exact congrArg some (Prod.ext hp rfl)
    | _ => rfl
  | inserting name start value =>
    cases a with
    | insert now front =>
      refine congrArg some (Prod.ext ?_ rfl)
      simp [redactConn, Project.redact, BoundedCache.insert_redact]
    | _ => rfl
  | readingTtl name start value =>
    cases a with
    | readTtl => exact congrArg some (Prod.ext hp rfl)
    | _ => rfl
  | emitting event response =>
    cases a with
    | emit now utc =>
      refine congrArg some (Prod.ext hp (Prod.ext ?_ rfl))
      exact congrArg (fun r => Conn.mk pid uid served (.responding r) cancelled)
        response.redact_redact
    | _ => rfl
  | responding response =>
    cases a with
    | startWrite =>
      refine congrArg some (Prod.ext hp (Prod.ext ?_ rfl))
      exact congrArg (fun r => Conn.mk pid uid served (.writing r) cancelled)
        response.redact_redact
    | _ => rfl
  | writing response =>
    cases a with
    | finishWrite | close => exact congrArg some (Prod.ext hp rfl)
    | _ => rfl
  | closed => cases a <;> rfl

theorem Conn.abort_redact (c : Conn) : c.abort.redact = c.redact.abort := by
  obtain ⟨pid, uid, served, pc, cancelled⟩ := c
  cases pc <;> rfl

namespace Daemon

theorem redact_setRequest {id : AdminId} {task : AdminTask} :
    (s.setRequest id task).redact = s.redact.setRequest id task := rfl

theorem redact_updateProject {projects : RegId → Option Project} {reg : RegId} {p : Project} :
    (fun r => (Function.update projects reg (some p) r).map Project.redact) =
      Function.update (fun r => (projects r).map Project.redact) reg (some p.redact) :=
  funext fun _ => Function.apply_update (fun _ => Option.map Project.redact) ..

theorem redact_setProject {reg : RegId} {p : Project} :
    (s.setProject reg p).redact = s.redact.setProject reg p.redact := by
  simp only [setProject, redact, redact_updateProject]

theorem redact_updateConn {conns : ConnId → Option Conn} {c : ConnId} {conn : Conn} :
    (fun d => (Function.update conns c (some conn) d).map Conn.redact) =
      Function.update (fun d => (conns d).map Conn.redact) c (some conn.redact) :=
  funext fun _ => Function.apply_update (fun _ => Option.map Conn.redact) ..

theorem redact_abortConns {conns : ConnId → Option Conn} {reg : RegId} {joinSet : List Nat} :
    (fun c => (abortConns conns reg joinSet c).map Conn.redact) =
      abortConns (fun c => (conns c).map Conn.redact) reg joinSet := by
  funext c
  unfold abortConns
  split
  · simp only [Option.map_map, Function.comp_def, Conn.abort_redact]
  · rfl

theorem redact_abortLoop {reg : RegId} : (s.abortLoop reg).redact = s.redact.abortLoop reg := by
  simp only [abortLoop, redact, redact_abortConns]

@[simp] theorem redact_redact : s.redact.redact = s.redact := by
  simp [redact, Function.comp_def]

end Daemon

theorem Project.create_redact {path mp : String} {m : Manifest} :
    (Project.create env name path m mp).redact = Project.create env.redact name path m mp := by
  simp [Project.create, Project.redact, BoundedCache.redact, BoundedCache.new, Env.redact]

def redactAdmin (r : Daemon × List Obs) : Daemon × List Obs := (r.1.redact, r.2)

theorem registerLocked_redact {id : AdminId} {path mp : String} {m : Manifest} {gen : Nat}
    {out : BindOutcome} :
    registerLocked env.redact s.redact id path m mp gen out =
      (registerLocked env s id path m mp gen out).map redactAdmin := by
  unfold registerLocked
  have hinner : s.redact.inner = s.inner := rfl
  rw [hinner]
  cases s.inner.lookup id.name with
  | some reg => rfl
  | none =>
    have hsome : (s.redact.projects ⟨id.name, gen⟩).isSome = (s.projects ⟨id.name, gen⟩).isSome :=
      Option.isSome_map
    dsimp only
    rw [hsome]
    split
    · rfl
    · have hfiles : s.redact.files = s.files := rfl
      have hconfig : env.redact.config = env.config := rfl
      rw [hfiles, hconfig]
      split
      · rfl
      · simp only [Option.map_some, redactAdmin, Daemon.redact_setRequest, Daemon.redact_setProject,
          Project.create_redact]
        rfl

theorem adminStep_redact {id : AdminId} {a : AdminAction} :
    adminStep env.redact s.redact id a = (adminStep env s id a).map redactAdmin := by
  have hrequests : s.redact.requests id = s.requests id := rfl
  have hinner : s.redact.inner = s.inner := rfl
  have htasks : s.redact.projectTasks = s.projectTasks := rfl
  have hprojects : ∀ reg, s.redact.projects reg = (s.projects reg).map Project.redact :=
    fun _ => rfl
  have htoml : env.redact.toml = env.toml := rfl
  have hended : ∀ reg, s.redact.loopEnded reg = s.loopEnded reg := fun _ => rfl
  unfold adminStep
  rw [hrequests]
  split
  · rfl
  · rw [htoml]
    split <;> rfl
  · exact registerLocked_redact
  · rfl
  · rename_i reg htask
    rw [hprojects]
    cases s.projects reg <;> rfl
  · rw [hinner]
    split <;> rfl
  · rfl
  · rw [htasks]
    rfl
  · rename_i reg handle htask
    rw [hended]
    split <;> rfl
  · rename_i reg handle htask
    simp only [Option.map_some, redactAdmin, Daemon.redact_setRequest, Daemon.redact_abortLoop]
  · rename_i reg error htask
    rw [hprojects]
    cases s.projects reg <;> rfl
  · rw [hinner]
    split <;> rfl
  · rename_i reg disk htask
    rw [hprojects]
    cases s.projects reg with
    | none => rfl
    | some p =>
      simp only [Option.map_some, htoml]
      have hpath : p.redact.projectPath = p.projectPath := rfl
      rw [hpath]
      split <;> rfl
  · rename_i reg m htask
    rw [hprojects]
    cases s.projects reg with
    | none => rfl
    | some p =>
      simp only [Option.map_some, redactAdmin, Daemon.redact_setRequest, Daemon.redact_setProject]
      rfl
  · rename_i reg m htask
    rw [hprojects]
    cases s.projects reg with
    | none => rfl
    | some p =>
      simp only [Daemon.finish, Option.map_some, redactAdmin, Daemon.redact_setRequest,
        Daemon.redact_setProject]
      rfl
  · rfl

theorem Conn.isClosed_redact (c : Conn) : c.redact.isClosed = c.isClosed := by
  obtain ⟨pid, uid, served, pc, cancelled⟩ := c
  cases pc <;> rfl

theorem loopStep_redact {reg : RegId} {a : LoopAction} :
    loopStep s.redact reg a = (loopStep s reg a).map Daemon.redact := by
  have hloops : s.redact.loops reg = s.loops reg := rfl
  have hconns : ∀ c, s.redact.conns c = (s.conns c).map Conn.redact := fun _ => rfl
  unfold loopStep
  rw [hloops]
  cases s.loops reg with
  | none => rfl
  | some t =>
    dsimp only
    split
    · split
      · rfl
      · simp only [Option.map_map]
        rfl
    · rename_i l num pid uid hstate
      have hnone : (s.redact.conns ⟨reg, num⟩).isNone = (s.conns ⟨reg, num⟩).isNone := by
        simp [hconns]
      rw [hnone]
      split
      · simp only [Option.map_map, Function.comp_def, Daemon.redact, Daemon.redact_updateConn]
        rfl
      · rfl
    · rename_i num hstate
      have hclosed : ((s.conns ⟨reg, num⟩).map Conn.redact).all Conn.isClosed =
          (s.conns ⟨reg, num⟩).all Conn.isClosed := by
        cases s.conns ⟨reg, num⟩ with
        | none => rfl
        | some conn => exact conn.isClosed_redact
      rw [hconns, hclosed]
      split <;> rfl
    · split <;> rfl
    · simp only [Option.map_some, Daemon.redact, Daemon.redact_abortConns]
    · rfl

theorem recordAll_eq {audit : Audit} {o : List Obs} :
    Daemon.recordAll audit o =
      (o.filterMap Obs.fetched).foldl (fun a e => a.record (.fetch e.2)) audit := by
  unfold Daemon.recordAll
  induction o generalizing audit with
  | nil => rfl
  | cons x o ih => cases x <;> exact ih

theorem look_stepConn {c : ConnId} {p : Project} {conn : Conn} {o : List Obs} :
    Machine.look Daemon.redact Obs.fetched
      ({ s.setProject c.reg p with
        conns := Function.update s.conns c (some conn)
        audit := Daemon.recordAll s.audit o }, o) =
      ({ s.redact.setProject c.reg (redactConn (p, conn, o)).1 with
        conns := Function.update s.redact.conns c (some (redactConn (p, conn, o)).2.1)
        audit := (redactConn (p, conn, o)).2.2.foldl (fun a e => a.record (.fetch e.2)) s.audit },
        (redactConn (p, conn, o)).2.2) := by
  simp only [Machine.look, redactConn, recordAll_eq, Daemon.redact, Daemon.setProject,
    Daemon.redact_updateConn, Daemon.redact_updateProject]

theorem stepConn_redact {c : ConnId} {a : ConnAction} :
    (stepConn env.redact s.redact c a).map (Machine.look Daemon.redact Obs.fetched) =
      (stepConn env s c a).map (Machine.look Daemon.redact Obs.fetched) := by
  have hconns : s.redact.conns c = (s.conns c).map Conn.redact := rfl
  have hprojects : s.redact.projects c.reg = (s.projects c.reg).map Project.redact := rfl
  unfold stepConn
  rw [hconns, hprojects]
  cases s.conns c with
  | none => rfl
  | some conn =>
    cases s.projects c.reg with
    | none => rfl
    | some p =>
      have hstep : (connStep env.redact s.backend ⟨c, conn.served⟩ p.redact conn.redact a).map
          redactConn = (connStep env s.backend ⟨c, conn.served⟩ p conn a).map redactConn :=
        connStep_redact
      have hseq : s.redact.backend = s.backend ∧ conn.redact.served = conn.served := ⟨rfl, rfl⟩
      dsimp only [Option.map_some]
      rw [hseq.1, hseq.2]
      cases hreal : connStep env s.backend ⟨c, conn.served⟩ p conn a with
      | none =>
        have hblank :
            connStep env.redact s.backend ⟨c, conn.served⟩ p.redact conn.redact a = none := by
          simpa [hreal] using hstep
        simp [hblank]
      | some r =>
        obtain ⟨r', hblank, heq⟩ := Option.map_eq_some_iff.mp (hstep.trans (by rw [hreal]; rfl))
        simp only [hblank, Option.map_some]
        refine congrArg some ?_
        rw [look_stepConn, look_stepConn, Daemon.redact_redact, heq]
        rfl

/-- A step of the daemon on the blanked state leaves the same blanked state and records the same
events. -/
theorem step_redact {a : Action} :
    (step env.redact s.redact a).map (Machine.look Daemon.redact Obs.fetched) =
      (step env s a).map (Machine.look Daemon.redact Obs.fetched) := by
  cases a with
  | admin id a =>
    show (adminStep env.redact s.redact id a).map _ = (adminStep env s id a).map _
    rw [adminStep_redact, Option.map_map]
    refine congrArg (fun f => Option.map f (adminStep env s id a)) (funext fun r => ?_)
    simp [Machine.look, redactAdmin]
  | conn c a => exact stepConn_redact
  | loop reg a =>
    simp only [step, loopStep_redact, Option.map_map]
    refine congrArg (fun f => Option.map f (loopStep s reg a)) (funext fun t => ?_)
    simp [Machine.look]
  | rotate token rebuilt =>
    let t : Daemon := { s with backend := (rotateBootstrap s.backend token rebuilt).1 }
    exact congrArg some (Prod.ext (Daemon.redact_redact (s := t)) rfl)
  | status uptime => exact congrArg some (Prod.ext Daemon.redact_redact rfl)
  | writer outs =>
    simp only [step, Option.map_map]
    refine congrArg (fun f => Option.map f (s.audit.receive env.json outs)) (funext fun audit => ?_)
    let t : Daemon := { s with audit }
    exact Prod.ext (Daemon.redact_redact (s := t)) rfl

end

/-- Two backends that answer every call alike but for the value or the message. -/
structure SameAnswers (env env' : Env) : Prop where
  others : env' = { env with fnox := env'.fnox }
  answers : ∀ session name at_,
    redactAnswer (env'.fnox session name at_) = redactAnswer (env.fnox session name at_)

theorem SameAnswers.redact_eq {env env' : Env} (h : SameAnswers env env') :
    env'.redact = env.redact := by
  rw [h.others]
  simp only [Env.redact, h.answers]

/-- The recorded events of a run, and the audit channel and log at its end. -/
def auditView (r : Daemon × List Obs) : List (RequestId × FetchEvent) × Audit :=
  (r.2.filterMap Obs.fetched, r.1.audit)

/-- Two runs with the same schedule on backends that answer alike but for values and messages record
the same events and write the same bytes to the log. -/
theorem run_audit_independent {env env' : Env} (h : SameAnswers env env')
    (backend : Option Session) (stale : Daemon.Stale) (as : List Action) :
    (run env' backend stale as).map auditView = (run env backend stale as).map auditView := by
  have hstep : ∀ s t a, s.redact = t.redact →
      (step env' s a).map (Machine.look Daemon.redact Obs.fetched) =
        (step env t a).map (Machine.look Daemon.redact Obs.fetched) := by
    intro s t a hst
    rw [← step_redact, h.redact_eq, hst, step_redact]
  have hinit :
      (Daemon.init env' backend stale).redact = (Daemon.init env backend stale).redact := by
    rw [h.others]
    rfl
  have hlook : (run env' backend stale as).map (Machine.look Daemon.redact Obs.fetched) =
      (run env backend stale as).map (Machine.look Daemon.redact Obs.fetched) :=
    Machine.exec_lockstep hstep hinit
  have hview :
      auditView = (fun v => (v.2, v.1.audit)) ∘ Machine.look Daemon.redact Obs.fetched := rfl
  rw [hview, ← Option.map_map, ← Option.map_map]
  exact congrArg _ hlook

def otherEnv : Env := { webEnv with fnox := fun _ _ _ => .ok (some "other") }

theorem otherEnv_sameAnswers : SameAnswers webEnv otherEnv := ⟨rfl, fun _ _ _ => rfl⟩

/-- A secret is fetched, and asked for again from the cache; the writer fails on the second
event. -/
def loggedRun : List Action :=
  Action.register ⟨"web", 0⟩ "/srv/web" "web" 0 ++ Action.connect ⟨⟨"web", 0⟩, 0⟩ ++
  Action.fetch ⟨⟨"web", 0⟩, 0⟩ "A" 0 ++
  [.receive (.ok (.get "A")) 1, .dispatch, .lookUp 1, .emit 1 0].map (.conn ⟨⟨"web", 0⟩, 0⟩) ++
  [.writer [.ok], .writer [.error 0]]

/-- The line of the fetch. -/
def fetchedLine : List UInt8 :=
  bytes ("\x7b\"event\":\"fetch\",\"timestamp\":\"1970-01-01T00:00:00Z\",\"project\":\"web\"," ++
    "\"secret_name\":\"A\",\"decision\":\"allow\",\"outcome\":\"ok\",\"latency_ms\":0," ++
    "\"backend\":\"fnox\"\x7d\n")

theorem run_audit_independent_logged :
    ((run webEnv (some 0) (fun _ => none) loggedRun).map fun r =>
      ((auditView r).1.length, r.1.audit.writer.log)) = some (2, fetchedLine) ∧
    (run otherEnv (some 0) (fun _ => none) loggedRun).map auditView =
      (run webEnv (some 0) (fun _ => none) loggedRun).map auditView :=
  ⟨by decide +kernel, run_audit_independent otherEnv_sameAnswers (some 0) (fun _ => none) loggedRun⟩

end RemoBroker
