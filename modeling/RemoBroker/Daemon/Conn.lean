import RemoBroker.Daemon.State

/-! A connection of a project socket: `handle_project_connection`, `dispatch_project` and
`dispatch_get`.  Each action is what the task does between two points where other tasks may run. -/

namespace RemoBroker

inductive ConnAction where
  /-- A line was read; `start` is the clock reading taken then. -/
  | receive (line : ProjectLine) (start : Instant)
  /-- `dispatch_project`, up to and including the allowlist check of a `get`. -/
  | dispatch
  | lookUp (now : Instant)
  /-- Look at the backend session and start the call. -/
  | call
  /-- The call returns what the session answered at `at_`. -/
  | return (at_ : Instant)
  | insert (now : Instant) (front : String)
  | readTtl
  | emit (now : Instant) (utc : Int)
  | startWrite
  /-- The client has taken the bytes of the response: `write_all` and `flush` return. -/
  | finishWrite
  /-- The handler returns at a read or a write, or the task is dropped at an await. -/
  | close

/-- `emit_fetch`. -/
def emitFetch (project : String) (conn : Conn) (event : PendingFetch) (now : Instant) (utc : Int) :
    FetchEvent where
  timestamp := utc
  project
  secretName := event.secretName
  decision := event.decision
  outcome := event.outcome
  peerPid := conn.peerPid
  peerUid := conn.peerUid
  latencyMs := saturatingU32 (Duration.asMillis (now - event.start))
  backend := event.backend
  reason := event.reason

def protocolErrorResponse (e : String) : ProjectResponse :=
  .error (ErrorResponse.new .protocolError ("malformed request: " ++ e))

def deniedResponse (debug : String → String) (name : String) : ProjectResponse :=
  .error (ErrorResponse.new .denied
    ("Secret " ++ debug name ++ " is not in this project's allowlist."))

def noSessionResponse : ProjectResponse :=
  .error (ErrorResponse.new .backendError
    "no fnox-core session is configured; rerun the daemon with --fnox-config")

def notFoundResponse (debug : String → String) (name : String) : ProjectResponse :=
  .error (ErrorResponse.new .notFound
    ("Secret " ++ debug name ++ " not found by fnox-core resolver."))

def backendErrorResponse (msg : String) : ProjectResponse :=
  .error (ErrorResponse.new .backendError ("fnox-core: " ++ msg))

/-- `dispatch_project`: where the task goes with a line, given the project. -/
def dispatchProject (env : Env) (p : Project) (line : ProjectLine) (start : Instant) : ConnPc :=
  match line with
  | .error e => .responding (protocolErrorResponse e)
  | .ok .ping => .responding (.ping env.version protocolVersion p.name)
  | .ok .info =>
    .responding (.info p.name p.manifest.allowlist.secrets p.manifest.schemaVersion)
  | .ok (.get name) =>
    if name ∈ p.manifest.allowlist.secrets then .lookingUp name start
    else .emitting ⟨name, .deny, .ok, start, none, some "allowlist"⟩ (deniedResponse env.debug name)

/-- What the cache shows of a lookup: the entry, unless it is past its time. -/
def freshEntry (c : BoundedCache) (name : String) (now : Instant) : Option CacheEntry :=
  (c.stored name).filter fun e => !e.isExpired now

def afterLookup (name : String) (start : Instant) : Option CacheHit → ConnPc
  | some hit => .emitting ⟨name, .allow, .ok, start, some "cache", none⟩
      (.get (GetResponse.utf8 hit.value hit.ttlSeconds))
  | none => .calling name start

def afterReturn (env : Env) (name : String) (start : Instant) :
    Except String (Option String) → ConnPc
  | .ok (some value) => .inserting name start value
  | .ok none => .emitting ⟨name, .allow, .notFound, start, some "fnox", none⟩
      (notFoundResponse env.debug name)
  | .error msg => .emitting ⟨name, .allow, .backendError, start, some "fnox", none⟩
      (backendErrorResponse msg)

/-- One action of a connection task on the record of its project. -/
def connStep (env : Env) (backend : Option Session) (q : RequestId) (p : Project) (conn : Conn)
    (a : ConnAction) : Option (Project × Conn × List Obs) :=
  match conn.pc, a with
  | .reading, .receive line start =>
    some (p, { conn with pc := .dispatching line start }, [.received q line])
  | .reading, .close => some (p, conn.close, [])
  | .dispatching line start, .dispatch =>
    some (p, { conn with pc := dispatchProject env p line start }, [.dispatched q p.manifest])
  | .lookingUp name start, .lookUp now =>
    let (cache, hit) := p.cache.get name now
    some ({ p with cache }, { conn with pc := afterLookup name start hit },
      [.lookedUp q name now (freshEntry p.cache name now)])
  | .calling name start, .call =>
    match backend with
    | none =>
      let event := ⟨name, .allow, .backendError, start, none, none⟩
      some (p, { conn with pc := .emitting event noSessionResponse }, [])
    | some session =>
      some (p, { conn with pc := .awaiting name start session }, [.called q session name])
  | .awaiting name start session, .return at_ =>
    some (p, { conn with pc := afterReturn env name start (env.fnox session name at_) }, [])
  | .inserting name start value, .insert now front =>
    some ({ p with cache := p.cache.insert name value none now front },
      { conn with pc := .readingTtl name start value }, [.inserted q name value])
  | .readingTtl name start value, .readTtl =>
    let event := ⟨name, .allow, .ok, start, some "fnox", none⟩
    let response := .get (GetResponse.utf8 value
      (saturatingU32 (Duration.asSecs p.cache.defaultTtl)))
    some (p, { conn with pc := .emitting event response }, [])
  | .emitting event response, .emit now utc =>
    some (p, { conn with pc := .responding response },
      [.recorded q (emitFetch p.name conn event now utc)])
  | .responding response, .startWrite =>
    some (p, { conn with pc := .writing response }, [.writing q response])
  | .writing response, .finishWrite =>
    some (p, { conn with served := conn.served + 1, pc := .reading }, [.answered q response])
  | .writing _, .close => some (p, conn.close, [])
  | .awaiting _ _ _, .close => if conn.cancelled then some (p, conn.close, []) else none
  | _, _ => none

end RemoBroker
