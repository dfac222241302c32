import RemoBroker.AcceptLoop
import RemoBroker.Audit
import RemoBroker.Registry

/-! The state of the running daemon: the registry, the accept-loop and connection tasks, the admin
requests in progress, the socket files, the backend session and the audit pipeline.  A task stands
at one of its program points; a program point is named after what the task does next.  `Obs` is
what a step of the daemon shows. -/

namespace RemoBroker

structure ConnId where
  reg : RegId
  num : Nat
deriving DecidableEq

/-- A request on a connection, by its position among the requests of the connection. -/
structure RequestId where
  conn : ConnId
  seq : Nat
deriving DecidableEq

/-- An admin request, by the name of the project it asks for. -/
structure AdminId where
  name : String
  seq : Nat
deriving DecidableEq

/-- A fnox-core session, the `Arc<Fnox>` of `BackendSession`. -/
abbrev Session := Nat

/-- What the daemon runs with: its configuration, and the functions of the libraries it calls.
`fnox` is `Fnox::get` of a session for a name at an instant, `debug` the `{:?}` form of a string,
`json` the text of an audit event, `version` the version of the crate. -/
structure Env where
  config : Config
  toml : String → Except String RawManifest
  fnox : Session → String → Instant → Except String (Option String)
  debug : String → String
  json : AuditEvent → List UInt8
  version : String

/-- The fields of a fetch event that `dispatch_get` passes to `emit_fetch`. -/
structure PendingFetch where
  secretName : String
  decision : Decision
  outcome : Outcome
  start : Instant
  backend : Option String
  reason : Option String
deriving DecidableEq

inductive ConnPc where
  | reading
  | dispatching (line : ProjectLine) (start : Instant)
  | lookingUp (name : String) (start : Instant)
  | calling (name : String) (start : Instant)
  | awaiting (name : String) (start : Instant) (session : Session)
  | inserting (name : String) (start : Instant) (value : String)
  | readingTtl (name : String) (start : Instant) (value : String)
  | emitting (event : PendingFetch) (response : ProjectResponse)
  | responding (response : ProjectResponse)
  | writing (response : ProjectResponse)
  | closed

/-- The task is between two awaits: of the reads, the backend call and the writes. -/
def ConnPc.running : ConnPc → Bool
  | .reading | .awaiting _ _ _ | .writing _ | .closed => false
  | _ => true

/-- A connection: its peer's credentials, the number of requests it has answered, where its task
stands, and whether its abort has been requested while it was between two awaits. -/
structure Conn where
  peerPid : Option Int
  peerUid : Option UInt32
  served : Nat
  pc : ConnPc
  cancelled : Bool

def Conn.close (c : Conn) : Conn := { c with pc := .closed }

/-- The abort of a connection task.  It ends a task that stands at an await; a task that runs goes
on, and ends at one of its next awaits. -/
def Conn.abort (c : Conn) : Conn := if c.pc.running then { c with cancelled := true } else c.close

def Conn.isClosed (c : Conn) : Bool :=
  match c.pc with
  | .closed => true
  | _ => false

inductive LoopState where
  | accepting (l : AcceptLoop)
  | draining
  | ended
deriving DecidableEq

/-- An accept-loop task of a project, with the connections in its `JoinSet`. -/
structure LoopTask where
  state : LoopState
  joinSet : List Nat
deriving DecidableEq

namespace LoopTask

def new : LoopTask := ⟨.accepting .new, []⟩

/-- The task has not ended, so it holds its `Arc<Server>`. -/
def alive (t : LoopTask) : Bool := t.state != .ended

def running (t : LoopTask) : Bool :=
  match t.state with
  | .accepting l => l.running
  | _ => false

def notifyWaiters (t : LoopTask) : LoopTask :=
  match t.state with
  | .accepting l => { t with state := .accepting l.notifyWaiters }
  | _ => t

end LoopTask

inductive AdminOp where
  | register (projectPath : String)
  | unregister
  | reload

/-- A `register`, `unregister` or `reload` in progress, answered, or dropped at shutdown. -/
inductive AdminTask where
  | register (projectPath : String)
  | locking (projectPath : String) (manifest : Manifest) (manifestPath : String)
  | spawning (reg : RegId)
  | inserting (reg : RegId)
  | unregister
  | notifying (reg : RegId)
  | taking (reg : RegId)
  | joining (reg handle : RegId)
  | unlinking (reg : RegId)
  | reload
  | loading (reg : RegId)
  | configuring (reg : RegId) (manifest : Manifest)
  | storing (reg : RegId) (manifest : Manifest)
  | done (response : AdminResponse)
  | aborted

def AdminOp.start : AdminOp → AdminTask
  | .register path => .register path
  | .unregister => .unregister
  | .reload => .reload

/-- The daemon.  `projects`, `loops`, `conns` and `requests` hold every project record, task and
request there has been; the registry proper is `inner`. -/
structure Daemon where
  inner : AList fun _ : String => RegId
  projectTasks : AList fun _ : String => RegId
  projects : RegId → Option Project
  loops : RegId → Option LoopTask
  conns : ConnId → Option Conn
  requests : AdminId → Option AdminTask
  files : Files
  backend : Option Session
  audit : Audit

/-- What a step shows: a manifest that becomes the current one of a registration, an operation on
a socket file, an answer to an admin request, and the steps of a request on a project socket.
`dispatched` shows the manifest that the project has at that moment, `lookedUp` the entry of a hit;
from `writing` on, bytes of the response may reach the socket. -/
inductive Obs where
  | stored (reg : RegId) (manifest : Manifest)
  | file (op : FileOp) (path : String)
  | replied (id : AdminId) (response : AdminResponse)
  | served (response : AdminResponse)
  | received (q : RequestId) (line : ProjectLine)
  | dispatched (q : RequestId) (manifest : Manifest)
  | lookedUp (q : RequestId) (name : String) (now : Instant) (entry : Option CacheEntry)
  | called (q : RequestId) (session : Session) (name : String)
  | inserted (q : RequestId) (name value : String)
  | recorded (q : RequestId) (event : FetchEvent)
  | writing (q : RequestId) (response : ProjectResponse)
  | answered (q : RequestId) (response : ProjectResponse)

namespace Daemon

/-- The files that were there before the daemon, by path and mode. -/
abbrev Stale := String → Option Nat

/-- The daemon once `bind_admin_socket` has succeeded in a socket directory with stale files. -/
def init (env : Env) (backend : Option Session) (stale : Stale) : Daemon where
  inner := ∅
  projectTasks := ∅
  projects _ := none
  loops _ := none
  conns _ := none
  requests _ := none
  files := (bindAdminSocket (fun path => (stale path).map (SocketFile.mk .foreign))
    (adminPath env.config.socketDir) .success).1
  backend
  audit := .spawn

/-- The events that a step records, in order, go through the audit channel. -/
def recordAll (audit : Audit) (obs : List Obs) : Audit :=
  obs.foldl (fun a o => match o with
    | .recorded _ event => a.record (.fetch event)
    | _ => a) audit

/-- `JoinSet::abort_all`, which the drop of a `JoinSet` does as well: abort the connection tasks of
a registration that are in it. -/
def abortConns (conns : ConnId → Option Conn) (reg : RegId) (joinSet : List Nat) :
    ConnId → Option Conn :=
  fun c => if c.reg = reg ∧ c.num ∈ joinSet then (conns c).map Conn.abort else conns c

/-- `JoinHandle::abort` on an accept-loop task and the await of its end, with which its `JoinSet` is
dropped.  Nobody awaits the connection tasks. -/
@[simps]
def abortLoop (s : Daemon) (reg : RegId) : Daemon :=
  { s with
    loops := Function.update s.loops reg ((s.loops reg).map fun _ => ⟨.ended, []⟩)
    conns := abortConns s.conns reg ((s.loops reg).elim [] LoopTask.joinSet) }

end Daemon

end RemoBroker
