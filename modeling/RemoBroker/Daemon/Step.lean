import RemoBroker.AuditLog.Json
import RemoBroker.Daemon.Admin
import RemoBroker.Daemon.Conn
import RemoBroker.Lib.Machine

/-! The steps of the whole daemon.  An action says which task takes its next step and what its
environment answers; a list of actions is one schedule of the admin requests, the accept loops, the
connections, the audit writer and the rotations of the bootstrap token. -/

namespace RemoBroker

/-- The steps of `run_project_socket` and of its `drain_join_set`. -/
inductive LoopAction where
  /-- A step of the `select!` loop, other than the end of a branch with a connection. -/
  | select (a : AcceptAction)
  | spawn (num : Nat) (peerPid : Option Int) (peerUid : Option UInt32)
  | joinNext (num : Nat)
  | drained
  /-- The drain ran into its limit. -/
  | abortAll

inductive Action where
  | admin (id : AdminId) (a : AdminAction)
  | conn (c : ConnId) (a : ConnAction)
  | loop (reg : RegId) (a : LoopAction)
  /-- `rotate-bootstrap`, with the answers of `fetch_token` and of the new session. -/
  | rotate (token : Except String Unit) (rebuilt : Except String Session)
  | status (uptimeSeconds : UInt64)
  /-- An iteration of the audit writer, with the outcomes of its writes. -/
  | writer (outs : List WriteOutcome)

def LoopState.ofAccept (l : AcceptLoop) : LoopState :=
  if l.running then .accepting l else .draining

def loopStep (s : Daemon) (reg : RegId) (a : LoopAction) : Option Daemon :=
  match s.loops reg with
  | none => none
  | some t =>
    match t.state, a with
    | .accepting l, .select a =>
      if l.pc = .accepted then none
      else (l.step a).map fun l' => s.setLoop reg { t with state := .ofAccept l' }
    | .accepting l, .spawn num peerPid peerUid =>
      if l.pc = .accepted ∧ (s.conns ⟨reg, num⟩).isNone then
        (l.step .finishBranch).map fun l' =>
          { s.setLoop reg ⟨.ofAccept l', num :: t.joinSet⟩ with
            conns := Function.update s.conns ⟨reg, num⟩
              (some ⟨peerPid, peerUid, 0, .reading, false⟩) }
      else none
    | .draining, .joinNext num =>
      if num ∈ t.joinSet ∧ (s.conns ⟨reg, num⟩).all Conn.isClosed then
        some (s.setLoop reg { t with joinSet := t.joinSet.erase num })
      else none
    | .draining, .drained =>
      if t.joinSet = [] then some (s.setLoop reg { t with state := .ended }) else none
    | .draining, .abortAll =>
      some { s with conns := Daemon.abortConns s.conns reg t.joinSet }
    | _, _ => none

def stepConn (env : Env) (s : Daemon) (c : ConnId) (a : ConnAction) : Option (Daemon × List Obs) :=
  match s.conns c, s.projects c.reg with
  | some conn, some p =>
    match connStep env s.backend ⟨c, conn.served⟩ p conn a with
    | none => none
    | some (p', conn', obs) =>
      some ({ s.setProject c.reg p' with
        conns := Function.update s.conns c (some conn')
        audit := Daemon.recordAll s.audit obs }, obs)
  | _, _ => none

/-- `dispatch_rotate_bootstrap`: the session to use from now on, and the answer. -/
def rotateBootstrap (backend : Option Session) (token : Except String Unit)
    (rebuilt : Except String Session) : Option Session × AdminResponse :=
  match backend with
  | none => (none, .error (ErrorResponse.new .bootstrapError
      "no fnox-core session is configured; restart the daemon with --fnox-config"))
  | some session =>
    match token with
    | .error e => (some session, .error (ErrorResponse.new .bootstrapError
        ("bootstrap token unavailable: " ++ e)))
    | .ok () =>
      match rebuilt with
      | .error e => (some session, .error (ErrorResponse.new .bootstrapError
          ("failed to rebuild fnox-core session: " ++ e)))
      | .ok new => (some new, .rotated)

def bootstrapMode : BootstrapSource → BootstrapMode
  | .file _ => .file
  | .imds => .imds
  | .env => .env

/-- The records of the registered projects, `ProjectRegistry::snapshot`. -/
def Daemon.snapshot (s : Daemon) : List RegId := s.inner.entries.map (·.2)

def ProjectStatus.ofProject (p : Project) : ProjectStatus :=
  ⟨p.name, p.socketPath, UInt32.ofNat p.manifest.allowlist.secrets.length,
    UInt32.ofNat p.cache.len⟩

/-- `dispatch_status`. -/
def dispatchStatus (env : Env) (s : Daemon) (uptimeSeconds : UInt64) : AdminResponse :=
  .status ⟨env.version, protocolVersion, uptimeSeconds, bootstrapMode env.config.bootstrap,
    (s.snapshot.filterMap s.projects).map ProjectStatus.ofProject⟩

def step (env : Env) : Machine.Step Daemon Action Obs := fun s a =>
  match a with
  | .admin id a => adminStep env s id a
  | .conn c a => stepConn env s c a
  | .loop reg a => (loopStep s reg a).map fun t => (t, [])
  | .rotate token rebuilt =>
    let (backend, response) := rotateBootstrap s.backend token rebuilt
    some ({ s with backend }, [.served response])
  | .status uptimeSeconds => some (s, [.served (dispatchStatus env s uptimeSeconds)])
  | .writer outs =>
    (s.audit.receive env.json outs).map fun audit => ({ s with audit }, [])

/-- The runs of the daemon from a start in a socket directory with stale files. -/
def run (env : Env) (backend : Option Session) (stale : Daemon.Stale) (as : List Action) :
    Option (Daemon × List Obs) :=
  Machine.exec (step env) (Daemon.init env backend stale) as

/-! Schedules that are used on concrete inputs. -/

/-- The default configuration, a TOML parser that knows the texts in `manifests`, a backend that
answers every name with a value, and the audit events of the epoch. -/
def sampleEnv (manifests : List (String × RawManifest)) : Env where
  config := Config.default
  toml src := match manifests.lookup src with
    | some raw => .ok raw
    | none => .error "expected a table"
  fnox _ _ _ := .ok (some "value")
  debug s := "\"" ++ s ++ "\""
  json := (·.toJson epochStamp)
  version := "0.1.0"

def sampleManifest (name : String) (secrets : List String) : RawManifest :=
  ⟨1, ⟨name, none⟩, ⟨secrets⟩, none⟩

def webEnv : Env := sampleEnv [("web", sampleManifest "web" ["A"])]

/-- A disk on which every manifest file has the same text. -/
def sampleDisk (text : String) : Disk := ⟨fun _ => true, fun _ => .ok text⟩

def Action.register (id : AdminId) (path text : String) (gen : Nat) : List Action :=
  [.submit (.register path), .loadManifest (sampleDisk text), .registerLocked gen .success,
    .spawnLoop, .insertTask].map (.admin id)

/-- An `unregister` that comes to the await of the accept loop. -/
def Action.unregister (id : AdminId) : List Action :=
  [.submit .unregister, .removeProject, .notifyStop, .takeTask].map (.admin id)

def Action.reload (id : AdminId) (text : String) : List Action :=
  [.submit .reload, .lookupProject, .loadManifest (sampleDisk text), .setConfig,
    .storeManifest].map (.admin id)

/-- The accept loop of a registration that has started takes a connection. -/
def Action.connect (c : ConnId) : List Action :=
  [.select .iterate, .select .pollStop, .select .acceptOk, .spawn c.num none none].map
    (.loop c.reg)

def Action.park (reg : RegId) : List Action :=
  [.select .iterate, .select .pollStop, .select .acceptPending].map (.loop reg)

/-- An accept loop without connections that was notified while it waited ends. -/
def Action.stop (reg : RegId) : List Action :=
  [.select .wake, .select .pollStop, .drained].map (.loop reg)

def Action.fetch (c : ConnId) (name : String) (now : Instant) : List Action :=
  [.receive (.ok (.get name)) now, .dispatch, .lookUp now, .call, .return now, .insert now "",
    .readTtl, .emit now 0, .startWrite, .finishWrite].map (.conn c)

def Action.hit (c : ConnId) (name : String) (now : Instant) : List Action :=
  [.receive (.ok (.get name)) now, .dispatch, .lookUp now, .emit now 0, .startWrite,
    .finishWrite].map (.conn c)

def Action.denied (c : ConnId) (name : String) (now : Instant) : List Action :=
  [.receive (.ok (.get name)) now, .dispatch, .emit now 0, .startWrite, .finishWrite].map (.conn c)

end RemoBroker
