import RemoBroker.Daemon.Supervision
import RemoBroker.Lifecycle.Slot
import RemoBroker.Shutdown.Sigterm

/-! `Server::run` from its accept loop to its return, beside the signal task and the daemon, whose
tasks go on while it runs.  The accept loop serves until it sees the notification of the signal
task; the shutdown branch that it then takes lets admin requests on connections that were accepted
before go on until the connections are drained, and may drop a request at an await once the deadline
has passed. -/

namespace RemoBroker

/-- Where `Server::run` stands, with what is left of the loop that it is in. -/
inductive Phase where
  | serving
  /-- Notify `stop` of the projects of the first snapshot. -/
  | stopping (todo : List RegId)
  /-- Await the accept loops that were taken out of `project_tasks`. -/
  | joining (todo : List RegId)
  /-- Unlink the sockets of the projects of the second snapshot. -/
  | unlinking (todo : List RegId)
  | draining
  | closing
  /-- The admin socket is unlinked; `shutdown_audit`, which is left, waits for nobody. -/
  | returned
deriving DecidableEq

def Phase.taken : Phase → Bool
  | .serving | .stopping _ => false
  | _ => true

def Phase.handles : Phase → List RegId
  | .joining todo => todo
  | _ => []

def Phase.admits : Phase → Bool
  | .closing | .returned => false
  | _ => true

/-- The server: the daemon, the phase of `run`, its accept loop with the signal task, whether a
connection has been accepted on the admin socket, and the admin requests that were submitted on its
connections. -/
structure Server where
  daemon : Daemon
  phase : Phase
  sigterm : Sigterm
  accepted : Bool
  connections : List AdminId

inductive ShutdownAction where
  | act (a : Action)
  /-- A step of the accept loop, or the signal task's `notify_waiters`. -/
  | sigterm (a : SigtermAction)
  /-- The shutdown branch: `drain_project_loops` takes its snapshot. -/
  | begin
  | notify (reg : RegId)
  /-- `mem::take` of `project_tasks`. -/
  | take
  | join (reg : RegId)
  /-- The wait for the accept loop ran into the deadline. -/
  | abort (reg : RegId)
  | snapshot
  | unlink (reg : RegId)
  | drain
  /-- The deadline has passed and the connection of the request is dropped. -/
  | abortRequest (id : AdminId)
  | drained
  | unlinkAdmin

/-- The task stands at an await: a lock, the end of an accept loop, or the write of the answer. -/
def AdminTask.awaits : AdminTask → Bool
  | .locking _ _ _ | .inserting _ | .unregister | .taking _ | .joining _ _ | .reload
  | .done _ => true
  -- after a timeout the aborted accept loop is awaited once more, before the unlink
  | .unlinking _ => true
  | _ => false

def AdminTask.finished : AdminTask → Bool
  | .done _ | .aborted => true
  | _ => false

namespace Server

def start (env : Env) (backend : Option Session) (stale : Daemon.Stale) : Server :=
  ⟨Daemon.init env backend stale, .serving, .start, false, []⟩

/-- A step of the daemon is possible: admin requests need an admin connection, and an unlink of a
file that exists does not fail. -/
def permits (x : Server) : Action → Bool
  | .admin _ (.submit _) | .rotate _ _ | .status _ => x.phase.admits && x.accepted
  | .admin _ (.unlinkSocket error) => x.phase.admits && error.isNone
  | .admin _ _ => x.phase.admits
  | _ => x.phase != .returned

def noteConnection (connections : List AdminId) : Action → List AdminId
  | .admin id (.submit _) => id :: connections
  | _ => connections

def removeSocket (x : Server) (reg : RegId) : Daemon :=
  match x.daemon.projects reg with
  | none => x.daemon
  | some p => x.daemon.removeFile p.socketPath none

def step (env : Env) : Machine.Step Server ShutdownAction Obs := fun x a =>
  match a, x.phase with
  | .act a, _ =>
    if x.permits a then
      (RemoBroker.step env x.daemon a).map fun r =>
        ({ x with daemon := r.1, connections := noteConnection x.connections a }, r.2)
    else none
  | .sigterm a, .serving =>
    (Sigterm.step x.sigterm a).map fun r =>
      ({ x with
        sigterm := r.1
        -- the accept branch ends with the spawn of the connection
        accepted := x.accepted || x.sigterm.loop.pc = .accepted }, [])
  | .begin, .serving =>
    if x.sigterm.loop.pc = .stopped then
      some ({ x with phase := .stopping x.daemon.snapshot }, [])
    else none
  | .notify reg, .stopping todo =>
    if reg ∈ todo then
      some ({ x with daemon := x.daemon.notifyStop reg, phase := .stopping (todo.erase reg) }, [])
    else none
  | .take, .stopping [] =>
    some ({ x with
      daemon := { x.daemon with projectTasks := ∅ }
      phase := .joining (x.daemon.projectTasks.entries.map (·.2)) }, [])
  | .join reg, .joining todo =>
    if reg ∈ todo ∧ x.daemon.loopEnded reg then
      some ({ x with phase := .joining (todo.erase reg) }, [])
    else none
  | .abort reg, .joining todo =>
    if reg ∈ todo then
      some ({ x with daemon := x.daemon.abortLoop reg, phase := .joining (todo.erase reg) }, [])
    else none
  | .snapshot, .joining [] => some ({ x with phase := .unlinking x.daemon.snapshot }, [])
  | .unlink reg, .unlinking todo =>
    if reg ∈ todo then
      some ({ x with daemon := x.removeSocket reg, phase := .unlinking (todo.erase reg) }, [])
    else none
  | .drain, .unlinking [] => some ({ x with phase := .draining }, [])
  | .abortRequest id, .draining =>
    if (x.daemon.requests id).any AdminTask.awaits then
      some ({ x with daemon := x.daemon.setRequest id .aborted }, [])
    else none
  | .drained, .draining =>
    if x.connections.all fun id => (x.daemon.requests id).all AdminTask.finished then
      some ({ x with phase := .closing }, [])
    else none
  | .unlinkAdmin, .closing =>
    some ({ x with
      daemon := x.daemon.removeFile (adminPath env.config.socketDir) none
      phase := .returned }, [])
  | _, _ => none

inductive Trans (env : Env) (x : Server) : ShutdownAction → Server → List Obs → Prop where
  | act {a t o} (permitted : x.permits a = true) (step : DaemonStep env x.daemon a t o) :
      Trans env x (.act a)
        { x with daemon := t, connections := noteConnection x.connections a } o
  | sigterm {a σ o} (phase : x.phase = .serving) (step : Sigterm.step x.sigterm a = some (σ, o)) :
      Trans env x (.sigterm a)
        { x with sigterm := σ, accepted := x.accepted || x.sigterm.loop.pc = .accepted } []
  | begin (phase : x.phase = .serving) (stopped : x.sigterm.loop.pc = .stopped) :
      Trans env x .begin { x with phase := .stopping x.daemon.snapshot } []
  | notified {reg todo} (phase : x.phase = .stopping todo) :
      Trans env x (.notify reg)
        { x with daemon := x.daemon.notifyStop reg, phase := .stopping (todo.erase reg) } []
  | taken (phase : x.phase = .stopping []) :
      Trans env x .take
        { x with
          daemon := { x.daemon with projectTasks := ∅ }
          phase := .joining (x.daemon.projectTasks.entries.map (·.2)) } []
  | joined {reg todo} (phase : x.phase = .joining todo) (ended : x.daemon.loopEnded reg = true) :
      Trans env x (.join reg) { x with phase := .joining (todo.erase reg) } []
  | aborted {reg todo} (phase : x.phase = .joining todo) :
      Trans env x (.abort reg)
        { x with daemon := x.daemon.abortLoop reg, phase := .joining (todo.erase reg) } []
  | listed (phase : x.phase = .joining []) :
      Trans env x .snapshot { x with phase := .unlinking x.daemon.snapshot } []
  | unlinked {reg todo} (phase : x.phase = .unlinking todo) :
      Trans env x (.unlink reg)
        { x with daemon := x.removeSocket reg, phase := .unlinking (todo.erase reg) } []
  | drain (phase : x.phase = .unlinking []) : Trans env x .drain { x with phase := .draining } []
  | dropped {id} (phase : x.phase = .draining)
      (awaits : (x.daemon.requests id).any AdminTask.awaits = true) :
      Trans env x (.abortRequest id) { x with daemon := x.daemon.setRequest id .aborted } []
  | drained (phase : x.phase = .draining)
      (finished : ∀ id ∈ x.connections, (x.daemon.requests id).all AdminTask.finished = true) :
      Trans env x .drained { x with phase := .closing } []
  | adminUnlinked (phase : x.phase = .closing) :
      Trans env x .unlinkAdmin
        { x with
          daemon := x.daemon.removeFile (adminPath env.config.socketDir) none
          phase := .returned } []

theorem step_cases {env : Env} {x y : Server} {a : ShutdownAction} {o : List Obs}
    (h : step env x a = some (y, o)) : Trans env x a y o := by
  unfold step at h
  split at h
  · split at h
    · rename_i hpermits
      obtain ⟨⟨t, o⟩, hstep, heq⟩ := Option.map_eq_some_iff.mp h
      cases heq
      exact .act hpermits (RemoBroker.step_cases hstep)
    · cases h
  · obtain ⟨⟨σ, o⟩, hstep, heq⟩ := Option.map_eq_some_iff.mp h
    cases heq
    exact .sigterm ‹_› hstep
  · split at h
    · cases h; exact .begin ‹_› ‹_›
    · cases h
  · split at h
    · cases h; exact .notified ‹_›
    · cases h
  · cases h; exact .taken ‹_›
  · split at h
    · rename_i hguard
      cases h; exact .joined ‹_› hguard.2
    · cases h
  · split at h
    · cases h; exact .aborted ‹_›
    · cases h
  · cases h; exact .listed ‹_›
  · split at h
    · cases h; exact .unlinked ‹_›
    · cases h
  · cases h; exact .drain ‹_›
  · split at h
    · cases h; exact .dropped ‹_› ‹_›
    · cases h
  · split at h
    · rename_i hall
      cases h
      exact .drained ‹_› (List.all_eq_true.mp hall)
    · cases h
  · cases h; exact .adminUnlinked ‹_›
  · cases h

end Server

/-- Nothing of the server is left: no task holds an `Arc<Server>`, and of the files in the socket
directory only those that were there before the daemon remain. -/
structure CleanExit (x : Server) : Prop where
  loops : ∀ reg, x.daemon.loopAlive reg = false
  conns : ∀ c conn, x.daemon.conns c = some conn → conn.isClosed = true
  requests : ∀ id task, x.daemon.requests id = some task → task.finished = true
  files : ∀ path f, x.daemon.files path = some f → f.owner = .foreign

/-- No registration crosses the shutdown: `project_tasks` is taken when no `register` is between
its map insertion and its handle insertion, no `register` binds a socket after that, no
`unregister` between its map removal and its unlink is dropped, a handle that is stored replaces no
other, and the mode of a socket that was bound can be set.  And no accept loop is aborted while one
of its connections is between two awaits. -/
def Undisturbed (x : Server) : ShutdownAction → Prop
  | .take => ∀ id task, x.daemon.requests id = some task → task.arriving = false
  | .act (.admin id (.registerLocked _ out)) =>
    out.chmod = none ∧ (x.phase.taken = true → (x.daemon.inner.lookup id.name).isSome)
  | .act (.admin id .insertTask) => x.daemon.projectTasks.lookup id.name = none
  | .act (.admin id .abortTask) => ∀ reg handle,
    x.daemon.requests id = some (.joining reg handle) → x.daemon.idle handle = true
  | .abort reg => x.daemon.idle reg = true
  | .abortRequest id => ∀ task, x.daemon.requests id = some task → task.leaving = false
  | _ => True

end RemoBroker
