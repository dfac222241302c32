import RemoBroker.Daemon.State

/-! The admin requests about a project: `dispatch_register`, `dispatch_unregister` and
`dispatch_reload` over the registry.  Each action is a stretch between two points where other
tasks may run; the answers of the file system are part of the action. -/

namespace RemoBroker

inductive AdminAction where
  | submit (op : AdminOp)
  /-- `load_manifest` and the comparison of names, on what the disk holds at that moment. -/
  | loadManifest (disk : Disk)
  /-- The part of `register` under the write lock.  `gen` tells the registrations of one name
  apart. -/
  | registerLocked (gen : Nat) (out : BindOutcome)
  | spawnLoop
  /-- The insertion into `project_tasks`. -/
  | insertTask
  | removeProject
  | notifyStop
  /-- The removal from `project_tasks`. -/
  | takeTask
  | joinTask
  /-- The wait timed out: abort the accept loop. -/
  | abortTask
  | unlinkSocket (error : Option String)
  | lookupProject
  | setConfig
  | storeManifest

namespace Daemon

@[simps]
def setRequest (s : Daemon) (id : AdminId) (task : AdminTask) : Daemon :=
  { s with requests := Function.update s.requests id (some task) }

/-- Answer a request, after the observations `obs` of the same step. -/
def finish (s : Daemon) (id : AdminId) (obs : List Obs) (response : AdminResponse) :
    Option (Daemon × List Obs) :=
  some (s.setRequest id (.done response), obs ++ [.replied id response])

@[simps]
def setProject (s : Daemon) (reg : RegId) (p : Project) : Daemon :=
  { s with projects := Function.update s.projects reg (some p) }

@[simps]
def setLoop (s : Daemon) (reg : RegId) (t : LoopTask) : Daemon :=
  { s with loops := Function.update s.loops reg (some t) }

/-- `project.stop.notify_waiters()`. -/
@[simps]
def notifyStop (s : Daemon) (reg : RegId) : Daemon :=
  { s with loops := Function.update s.loops reg ((s.loops reg).map LoopTask.notifyWaiters) }

def loopEnded (s : Daemon) (reg : RegId) : Bool :=
  (s.loops reg).any fun t => !t.alive

/-- `remove_file`, which leaves the file where it fails. -/
@[simps]
def removeFile (s : Daemon) (path : String) (error : Option String) : Daemon :=
  { s with files := if error.isSome then s.files else Function.update s.files path none }

end Daemon

def fileObs (path : String) (ops : List FileOp) : List Obs := ops.map (.file · path)

def Project.create (env : Env) (name projectPath : String) (manifest : Manifest)
    (manifestPath : String) : Project :=
  let (maxEntries, ttl) := resolveCacheBounds manifest env.config.cacheDefaults
  { name, projectPath
    socketPath := socketPathFor env.config.socketDir name
    manifestPath, manifest
    cache := .new maxEntries ttl }

/-- The part of `reload` on the cache. -/
def Project.setConfig (env : Env) (p : Project) (manifest : Manifest) : Project :=
  let (maxEntries, ttl) := resolveCacheBounds manifest env.config.cacheDefaults
  { p with cache := p.cache.setConfig maxEntries ttl }

/-- The part of `register` under the write lock of the registry. -/
def registerLocked (env : Env) (s : Daemon) (id : AdminId) (projectPath : String)
    (manifest : Manifest) (manifestPath : String) (gen : Nat) (out : BindOutcome) :
    Option (Daemon × List Obs) :=
  match s.inner.lookup id.name with
  | some _ => s.finish id [] (adminErrorFor env.debug (.projectExists id.name))
  | none =>
    let reg : RegId := ⟨id.name, gen⟩
    let path := socketPathFor env.config.socketDir id.name
    if (s.projects reg).isSome then none
    else match bindProjectSocket s.files path reg out with
    | (files, .error e, ops) =>
      { s with files }.finish id (fileObs path ops) (adminErrorFor env.debug e)
    | (files, .ok (), ops) =>
      let project := Project.create env id.name projectPath manifest manifestPath
      let s := { s with files, inner := s.inner.insert id.name reg }
      some ((s.setProject reg project).setRequest id (.spawning reg),
        fileObs path ops ++ [.stored reg manifest])

def adminStep (env : Env) (s : Daemon) (id : AdminId) (a : AdminAction) :
    Option (Daemon × List Obs) :=
  match s.requests id, a with
  | none, .submit op => some (s.setRequest id op.start, [])
  | some (.register path), .loadManifest disk =>
    match loadNamed env.toml disk id.name path with
    | .error e => s.finish id [] (adminErrorFor env.debug e)
    | .ok (manifest, manifestPath) =>
      some (s.setRequest id (.locking path manifest manifestPath), [])
  | some (.locking path manifest manifestPath), .registerLocked gen out =>
    registerLocked env s id path manifest manifestPath gen out
  | some (.spawning reg), .spawnLoop =>
    some ((s.setLoop reg .new).setRequest id (.inserting reg), [])
  | some (.inserting reg), .insertTask =>
    match s.projects reg with
    | none => none
    | some p =>
      { s with projectTasks := s.projectTasks.insert id.name reg }.finish id []
        (.registered p.socketPath)
  | some .unregister, .removeProject =>
    match s.inner.lookup id.name with
    | none => s.finish id [] (adminErrorFor env.debug (.projectUnknown id.name))
    | some reg =>
      some ({ s with inner := s.inner.erase id.name }.setRequest id (.notifying reg), [])
  | some (.notifying reg), .notifyStop => some ((s.notifyStop reg).setRequest id (.taking reg), [])
  | some (.taking reg), .takeTask =>
    let next := match s.projectTasks.lookup id.name with
      | some handle => .joining reg handle
      | none => .unlinking reg
    some ({ s with projectTasks := s.projectTasks.erase id.name }.setRequest id next, [])
  | some (.joining reg handle), .joinTask =>
    if s.loopEnded handle then some (s.setRequest id (.unlinking reg), []) else none
  | some (.joining reg handle), .abortTask =>
    some ((s.abortLoop handle).setRequest id (.unlinking reg), [])
  | some (.unlinking reg), .unlinkSocket error =>
    match s.projects reg with
    | none => none
    | some p => (s.removeFile p.socketPath error).finish id [.file .unlink p.socketPath] .ok
  | some .reload, .lookupProject =>
    match s.inner.lookup id.name with
    | none => s.finish id [] (adminErrorFor env.debug (.projectUnknown id.name))
    | some reg => some (s.setRequest id (.loading reg), [])
  | some (.loading reg), .loadManifest disk =>
    match s.projects reg with
    | none => none
    | some p =>
      match loadNamed env.toml disk id.name p.projectPath with
      | .error e => s.finish id [] (adminErrorFor env.debug e)
      | .ok (manifest, _) => some (s.setRequest id (.configuring reg manifest), [])
  | some (.configuring reg manifest), .setConfig =>
    match s.projects reg with
    | none => none
    | some p =>
      some ((s.setProject reg (p.setConfig env manifest)).setRequest id (.storing reg manifest), [])
  | some (.storing reg manifest), .storeManifest =>
    match s.projects reg with
    | none => none
    | some p =>
      (s.setProject reg { p with manifest }).finish id [.stored reg manifest]
        (.reloaded manifest.allowlist.secrets)
  | _, _ => none

end RemoBroker
