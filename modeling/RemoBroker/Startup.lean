import RemoBroker.Bootstrap.Requests
import RemoBroker.Daemon.Step

/-! The start of the daemon, `main` and the first part of `Server::run`: the configuration, the
check of the bootstrap token, the backend session, the socket directory, the admin socket, the
readiness notification and the signal handlers.  What the operating system and the libraries answer
is an input, and a start shows its effects in their order: a process that is killed on the way has
had some of the first of them. -/

namespace RemoBroker

def defaultConfigPath : String := "/etc/remo-broker/config.toml"
def socketDirMode : Nat := 0o755

/-- The command line. -/
structure Cli extends RawConfig where
  config : Option String

def Cli.intoOverrides (cli : Cli) : Option String × Overrides := (cli.config, cli.toRawConfig)

inductive ServerError where
  | createSocketDir (path source : String)
  | bindAdminSocket (path source : String)
  | adminSocketPerms (path source : String)
  | signalHandler (source : String)

/-- Why `main` returns with an error. -/
inductive StartError where
  | config (e : ConfigError)
  | bootstrap (e : BootstrapError)
  | backend (path source : String)
  | server (e : ServerError)

/-- What a start finds: the files, the environment and the network, the TOML parser, the sessions of
fnox-core, and the answers of the operating system. -/
structure Host where
  surroundings : Surroundings
  toml : String → Except String RawConfig
  debug : String → String
  fnoxOpen : String → Except String Session
  fnoxDiscover : Except String Session
  createDir : Option String
  setDirMode : Option String
  bind : BindOutcome
  terminate : Option String
  interrupt : Option String

/-- What a start does.  Only what has succeeded is an effect. -/
inductive StartEffect where
  | read (path : String)
  | fetched (requests : List String)
  | printed (line : String)
  | spawnedWriter (path : String)
  | createdDir (path : String)
  | dirMode (path : String) (mode : Nat)
  | unlinked (path : String)
  | bound (path : String) (mode : Nat)
  | setMode (path : String) (mode : Nat)
  | ready
  | handling
deriving DecidableEq

/-- A part of a start, with the effects so far; nothing where the code panics. -/
abbrev Startup := ExceptT StartError (StateT (List StartEffect) Option)

def emit (e : StartEffect) : Startup Unit := modify (· ++ [e])

/-- Return with the error, if there is one. -/
def check (answer : Option String) (error : String → StartError) : Startup Unit :=
  match answer with
  | some source => throw (error source)
  | none => pure ()

/-- The path of the configuration file, and whether the file has to be there. -/
def Config.resolvedPath : Option String → String × Bool
  | some p => (p, true)
  | none => (defaultConfigPath, false)

def Config.load (h : Host) (path : Option String) (overrides : Overrides) : Startup Config := do
  let (resolvedPath, required) := Config.resolvedPath path
  match readToString (h.surroundings.file resolvedPath) with
  | .ok src =>
    emit (.read resolvedPath)
    match h.toml src with
    | .error e => throw (.config (.parse resolvedPath e))
    | .ok raw => ExceptT.mk (pure ((Config.resolve raw overrides).mapError .config))
  | .error .notFound =>
    if required then throw (.config (.fileNotFound resolvedPath))
    else ExceptT.mk (pure ((Config.resolve .default overrides).mapError .config))
  | .error (.other source) => throw (.config (.io resolvedPath source))

/-- The call of `fetch_token` in `main`. -/
def checkToken (h : Host) (source : BootstrapSource) : Startup Unit := do
  let (result, requests) ←
    ExceptT.lift (StateT.lift ((fetchToken h.surroundings source).run.run []))
  emit (.fetched requests)
  match result with
  | .ok _ => pure ()
  | .error e =>
    emit (.printed ("error: bootstrap token unavailable: " ++ e.message h.debug))
    throw (.bootstrap e)

/-- The session of the backend: a path that is given has to work, and without one the daemon may
start degraded. -/
def openBackend (h : Host) : Option String → Startup (Option Session)
  | some path =>
    match h.fnoxOpen path with
    | .ok session => pure (some session)
    | .error e => do
      emit (.printed ("error: backend session: failed to open fnox config at " ++ path ++ ": " ++
        e))
      throw (.backend path e)
  | none =>
    match h.fnoxDiscover with
    | .ok session => pure (some session)
    | .error _ => pure none

def ensureSocketDir (h : Host) (path : String) : Startup Unit := do
  check h.createDir fun e => .server (.createSocketDir path e)
  emit (.createdDir path)
  if h.setDirMode.isNone then emit (.dirMode path socketDirMode)

/-- `bind_admin_socket`, one effect at a time. -/
def bindAdmin (h : Host) (path : String) : Startup Unit := do
  check h.bind.unlink fun e => .server (.bindAdminSocket path e)
  emit (.unlinked path)
  check h.bind.bind fun e => .server (.bindAdminSocket path e)
  emit (.bound path h.bind.created)
  check h.bind.chmod fun e => .server (.adminSocketPerms path e)
  emit (.setMode path adminSocketMode)

def installSigterm (h : Host) : Startup Unit := do
  check h.terminate fun e => .server (.signalHandler e)
  check h.interrupt fun e => .server (.signalHandler e)
  emit .handling

/-- What `Server::run` goes into its accept loop with. -/
structure Started where
  config : Config
  backend : Option Session

/-- `main`, up to the call of `Server::run`. -/
def prepare (h : Host) (cli : Cli) : Startup Started := do
  let (configPath, overrides) := cli.intoOverrides
  let config ← Config.load h configPath overrides
  checkToken h config.bootstrap
  emit (.spawnedWriter config.auditLogPath)
  let backend ← openBackend h config.fnoxConfigPath
  pure ⟨config, backend⟩

/-- `Server::run`, up to its accept loop. -/
def setUp (h : Host) (config : Config) : Startup Unit := do
  ensureSocketDir h config.socketDir
  bindAdmin h (adminPath config.socketDir)
  emit .ready
  installSigterm h

def start (h : Host) (cli : Cli) : Startup Started := do
  let started ← prepare h cli
  setUp h started.config
  pure started

/-- The socket files after an effect.  A socket is the admin listener's once its mode is set. -/
def StartEffect.apply (files : Files) : StartEffect → Files
  | .unlinked path => Function.update files path none
  | .bound path mode => Function.update files path (some ⟨.failed, mode⟩)
  | .setMode path mode => Function.update files path (some ⟨.admin, mode⟩)
  | _ => files

/-- The files of an earlier process. -/
def staleFiles (stale : Daemon.Stale) : Files :=
  fun path => (stale path).map (SocketFile.mk .foreign)

def filesAfter (stale : Daemon.Stale) (es : List StartEffect) : Files :=
  es.foldl StartEffect.apply (staleFiles stale)

/-- The effect is on no socket file and does not tell that the daemon is ready. -/
def StartEffect.Quiet : StartEffect → Prop
  | .unlinked _ | .bound _ _ | .setMode _ _ | .ready => False
  | _ => True

/-- What a daemon needs before it makes its sockets: a configuration, a token, and the session of
the backend that it is configured with. -/
structure Fit (h : Host) (cli : Cli) (started : Started) : Prop where
  config : ∃ es, Effect.Writes (Config.load h cli.config cli.toRawConfig) (.ok started.config) es
  token : ∃ token requests,
    Effect.Returns (fetchToken h.surroundings started.config.bootstrap) [] token requests
  backend : Effect.Writes (openBackend h started.config.fnoxConfigPath) (.ok started.backend) []

/-- What the set-up of the server has done when it ends. -/
inductive SetUp (h : Host) (dir : String) : Except StartError Unit → List StartEffect → Prop where
  | dirFailed {e} (createDir : h.createDir = some e) :
      SetUp h dir (.error (.server (.createSocketDir dir e))) []
  | unlinkFailed {e es} (createDir : h.createDir = none) (quiet : ∀ x ∈ es, x.Quiet)
      (unlink : h.bind.unlink = some e) :
      SetUp h dir (.error (.server (.bindAdminSocket (adminPath dir) e))) es
  | bindFailed {e es} (createDir : h.createDir = none) (quiet : ∀ x ∈ es, x.Quiet)
      (unlink : h.bind.unlink = none) (bind : h.bind.bind = some e) :
      SetUp h dir (.error (.server (.bindAdminSocket (adminPath dir) e)))
        (es ++ [.unlinked (adminPath dir)])
  | modeFailed {e es} (createDir : h.createDir = none) (quiet : ∀ x ∈ es, x.Quiet)
      (unlink : h.bind.unlink = none) (bind : h.bind.bind = none) (chmod : h.bind.chmod = some e) :
      SetUp h dir (.error (.server (.adminSocketPerms (adminPath dir) e)))
        (es ++ [.unlinked (adminPath dir), .bound (adminPath dir) h.bind.created])
  | bound {r es es'} (createDir : h.createDir = none) (quiet : ∀ x ∈ es, x.Quiet)
      (unlink : h.bind.unlink = none) (bind : h.bind.bind = none) (chmod : h.bind.chmod = none)
      (quiet' : ∀ x ∈ es', x.Quiet)
      (handlers : r = .ok () ↔ h.terminate = none ∧ h.interrupt = none) :
      SetUp h dir r (es ++ [.unlinked (adminPath dir), .bound (adminPath dir) h.bind.created,
        .setMode (adminPath dir) adminSocketMode, .ready] ++ es')

section
variable {h : Host} {cli : Cli} {es : List StartEffect}

theorem writes_emit {e : StartEffect} : Effect.Writes (emit e) (.ok ()) [e] := Effect.writes_add

theorem load_writes (h : Host) (path : Option String) (overrides : Overrides) :
    ∃ r es, Effect.Writes (Config.load h path overrides) r es ∧ ∀ e ∈ es, e.Quiet := by
  obtain ⟨⟨file, required⟩, hpath⟩ : ∃ x, Config.resolvedPath path = x := ⟨_, rfl⟩
  simp only [Config.load, hpath]
  cases readToString (h.surroundings.file file) with
  | ok src =>
    dsimp only
    cases h.toml src with
    | error e =>
      exact ⟨_, _, writes_emit.bind Effect.writes_throw, by simp [StartEffect.Quiet]⟩
    | ok raw =>
      exact ⟨_, _, writes_emit.bind Effect.writes_result, by simp [StartEffect.Quiet]⟩
  | error e =>
    cases e with
    | notFound =>
      cases required with
      | true => exact ⟨_, _, Effect.writes_throw, by simp⟩
      | false => exact ⟨_, _, Effect.writes_result, by simp⟩
    | other source => exact ⟨_, _, Effect.writes_throw, by simp⟩

theorem fetchToken_total (w : Surroundings) (source : BootstrapSource) :
    ∃ r requests, (fetchToken w source).run.run [] = some (r, requests) := by
  cases source with
  | file path =>
    obtain ⟨r, requests, hrun, -⟩ := @fetchFile_ensures w [] path
    exact ⟨r, requests, hrun⟩
  | env =>
    obtain ⟨r, requests, hrun, -⟩ := @fetchEnvWithVar_ensures w [] bootstrapEnvVar
    exact ⟨r, requests, hrun⟩
  | imds =>
    obtain ⟨r, requests, hrun, -⟩ := @fetchImdsAt_ensures w imdsTimeout
    exact ⟨r, requests, hrun⟩

theorem checkToken_writes_ok {source : BootstrapSource} {token : String} {requests : List String}
    (htoken : Effect.Returns (fetchToken h.surroundings source) [] token requests) :
    Effect.Writes (checkToken h source) (.ok ()) [.fetched requests] :=
  (Effect.writes_lift htoken).bind (writes_emit.bind Effect.writes_pure)

theorem checkToken_writes_error {source : BootstrapSource} {e : BootstrapError}
    {requests : List String}
    (htoken : (fetchToken h.surroundings source).run.run [] = some (.error e, requests)) :
    Effect.Writes (checkToken h source) (.error (.bootstrap e)) [.fetched requests,
      .printed ("error: bootstrap token unavailable: " ++ e.message h.debug)] :=
  (Effect.writes_lift htoken).bind
    (writes_emit.bind (writes_emit.bind Effect.writes_throw))

theorem openBackend_writes (h : Host) (path : Option String) :
    ∃ r es, Effect.Writes (openBackend h path) r es ∧ (∀ e ∈ es, e.Quiet) ∧
      ∀ session, r = .ok session → es = [] := by
  cases path with
  | some path =>
    simp only [openBackend]
    cases h.fnoxOpen path with
    | ok session => exact ⟨_, _, Effect.writes_pure, by simp, by simp⟩
    | error e =>
      exact ⟨_, _, writes_emit.bind Effect.writes_throw, by simp [StartEffect.Quiet], by simp⟩
  | none =>
    simp only [openBackend]
    cases h.fnoxDiscover with
    | ok session => exact ⟨_, _, Effect.writes_pure, by simp, by simp⟩
    | error e => exact ⟨_, _, Effect.writes_pure, by simp, by simp⟩

/-- `main` comes to `Server::run` exactly with what the daemon needs, and leaves the socket
directory alone. -/
theorem prepare_writes (h : Host) (cli : Cli) :
    ∃ r es, Effect.Writes (prepare h cli) r es ∧ (∀ e ∈ es, e.Quiet) ∧
      ∀ started, r = .ok started → Fit h cli started := by
  obtain ⟨rconfig, econfig, hconfig, hquiet⟩ := load_writes h cli.config cli.toRawConfig
  cases rconfig with
  | error e => exact ⟨_, _, hconfig.stop, hquiet, by simp⟩
  | ok config =>
    obtain ⟨rtoken, requests, htoken⟩ := fetchToken_total h.surroundings config.bootstrap
    cases rtoken with
    | error e =>
      refine ⟨_, _, hconfig.bind (checkToken_writes_error htoken).stop, ?_, by simp⟩
      intro e he
      rcases List.mem_append.mp he with he | he
      · exact hquiet e he
      · rcases List.mem_pair.mp he with rfl | rfl <;> trivial
    | ok token =>
      obtain ⟨rbackend, ebackend, hbackend, hquiet', hnil⟩ :=
        openBackend_writes h config.fnoxConfigPath
      have hall : ∀ e ∈ econfig ++ ([.fetched requests] ++ ([.spawnedWriter config.auditLogPath] ++
          ebackend)), e.Quiet := by
        simp only [List.mem_append, List.mem_singleton]
        rintro e (he | rfl | rfl | he)
        · exact hquiet e he
        · trivial
        · trivial
        · exact hquiet' e he
      cases rbackend with
      | error e =>
        exact ⟨_, _, hconfig.bind ((checkToken_writes_ok htoken).bind
          (writes_emit.bind hbackend.stop)), hall, by simp⟩
      | ok backend =>
        refine ⟨_, _, hconfig.bind ((checkToken_writes_ok htoken).bind
          (writes_emit.bind (hbackend.bind Effect.writes_pure))), ?_, ?_⟩
        · simpa using hall
        · rintro started ⟨⟩
          exact ⟨⟨_, hconfig⟩, ⟨token, requests, htoken⟩, hnil backend rfl ▸ hbackend⟩

theorem check_writes_none {error : String → StartError} :
    Effect.Writes (check none error) (.ok ()) [] := Effect.writes_pure

theorem check_writes_some {error : String → StartError} {e : String} :
    Effect.Writes (check (some e) error) (.error (error e)) [] := Effect.writes_throw

theorem ensureSocketDir_writes {dir : String} (hdir : h.createDir = none) :
    ∃ es, Effect.Writes (ensureSocketDir h dir) (.ok ()) es ∧ ∀ e ∈ es, e.Quiet := by
  simp only [ensureSocketDir, hdir]
  cases h.setDirMode with
  | none =>
    exact ⟨_, check_writes_none.bind (writes_emit.bind writes_emit), by simp [StartEffect.Quiet]⟩
  | some e =>
    exact ⟨_, check_writes_none.bind (writes_emit.bind Effect.writes_pure),
      by simp [StartEffect.Quiet]⟩

theorem installSigterm_writes (h : Host) :
    ∃ r es, Effect.Writes (installSigterm h) r es ∧ (∀ e ∈ es, e.Quiet) ∧
      (r = .ok () ↔ h.terminate = none ∧ h.interrupt = none) := by
  unfold installSigterm
  cases hterminate : h.terminate with
  | some e => exact ⟨_, _, check_writes_some.stop, by simp, by simp⟩
  | none =>
    cases hinterrupt : h.interrupt with
    | some e => exact ⟨_, _, check_writes_none.bind check_writes_some.stop, by simp, by simp⟩
    | none =>
      exact ⟨_, _, check_writes_none.bind (check_writes_none.bind writes_emit),
        by simp [StartEffect.Quiet], by simp⟩

section
variable {path e : String}

theorem bindAdmin_writes_unlink (hunlink : h.bind.unlink = some e) :
    Effect.Writes (bindAdmin h path) (.error (.server (.bindAdminSocket path e))) [] := by
  simp only [bindAdmin, hunlink]
  exact check_writes_some.stop

theorem bindAdmin_writes_bind (hunlink : h.bind.unlink = none) (hbind : h.bind.bind = some e) :
    Effect.Writes (bindAdmin h path) (.error (.server (.bindAdminSocket path e)))
      [.unlinked path] := by
  simp only [bindAdmin, hunlink, hbind]
  exact check_writes_none.bind (writes_emit.bind check_writes_some.stop)

theorem bindAdmin_writes_chmod (hunlink : h.bind.unlink = none) (hbind : h.bind.bind = none)
    (hchmod : h.bind.chmod = some e) :
    Effect.Writes (bindAdmin h path) (.error (.server (.adminSocketPerms path e)))
      [.unlinked path, .bound path h.bind.created] := by
  simp only [bindAdmin, hunlink, hbind, hchmod]
  exact check_writes_none.bind (writes_emit.bind (check_writes_none.bind
    (writes_emit.bind check_writes_some.stop)))

theorem bindAdmin_writes_ok (hunlink : h.bind.unlink = none) (hbind : h.bind.bind = none)
    (hchmod : h.bind.chmod = none) :
    Effect.Writes (bindAdmin h path) (.ok ()) [.unlinked path, .bound path h.bind.created,
      .setMode path adminSocketMode] := by
  simp only [bindAdmin, hunlink, hbind, hchmod]
  exact check_writes_none.bind (writes_emit.bind (check_writes_none.bind
    (writes_emit.bind (check_writes_none.bind writes_emit))))

end

theorem setUp_writes (h : Host) (config : Config) :
    ∃ r es, Effect.Writes (setUp h config) r es ∧ SetUp h config.socketDir r es := by
  unfold setUp
  cases hdir : h.createDir with
  | some e =>
    have hwrites : Effect.Writes (ensureSocketDir h config.socketDir)
        (.error (.server (.createSocketDir config.socketDir e))) [] := by
      simp only [ensureSocketDir, hdir]
      exact check_writes_some.stop
    exact ⟨_, _, hwrites.stop, .dirFailed hdir⟩
  | none =>
    obtain ⟨es, hwrites, hquiet⟩ := @ensureSocketDir_writes h config.socketDir hdir
    cases hunlink : h.bind.unlink with
    | some e =>
      refine ⟨_, _, hwrites.bind (bindAdmin_writes_unlink hunlink).stop, ?_⟩
      rw [List.append_nil]
      exact .unlinkFailed hdir hquiet hunlink
    | none =>
      cases hbind : h.bind.bind with
      | some e =>
        exact ⟨_, _, hwrites.bind (bindAdmin_writes_bind hunlink hbind).stop,
          .bindFailed hdir hquiet hunlink hbind⟩
      | none =>
        cases hchmod : h.bind.chmod with
        | some e =>
          exact ⟨_, _, hwrites.bind (bindAdmin_writes_chmod hunlink hbind hchmod).stop,
            .modeFailed hdir hquiet hunlink hbind hchmod⟩
        | none =>
          obtain ⟨r, es', hinstall, hquiet', hhandlers⟩ := installSigterm_writes h
          refine ⟨r, _, hwrites.bind ((bindAdmin_writes_ok hunlink hbind hchmod).bind
            (writes_emit.bind hinstall)), ?_⟩
          simpa using SetUp.bound hdir hquiet hunlink hbind hchmod hquiet' hhandlers

/-- A start ends in one of these ways. -/
inductive StartRun (h : Host) (cli : Cli) :
    Except StartError Started → List StartEffect → Prop where
  | unfit {e es} (quiet : ∀ x ∈ es, x.Quiet) (unfit : ∀ started, ¬Fit h cli started) :
      StartRun h cli (.error e) es
  | fit {started r es es'} (quiet : ∀ x ∈ es, x.Quiet)
      (fits : ∀ other, Fit h cli other ↔ other = started)
      (setUp : SetUp h started.config.socketDir r es') :
      StartRun h cli (r.map fun _ => started) (es ++ es')

theorem Fit.unique {started other : Started} (h₁ : Fit h cli started) (h₂ : Fit h cli other) :
    other = started := by
  obtain ⟨es, hconfig⟩ := h₁.config
  obtain ⟨es', hconfig'⟩ := h₂.config
  obtain ⟨config, backend⟩ := started
  obtain ⟨config', backend'⟩ := other
  cases (hconfig.unique hconfig').1
  cases (h₁.backend.unique h₂.backend).1
  rfl

theorem Fit.prepare {started : Started} (fits : Fit h cli started) :
    ∃ es, Effect.Writes (prepare h cli) (.ok started) es := by
  obtain ⟨es, hconfig⟩ := fits.config
  obtain ⟨token, requests, htoken⟩ := fits.token
  exact ⟨_, hconfig.bind ((checkToken_writes_ok htoken).bind
    (writes_emit.bind (fits.backend.bind Effect.writes_pure)))⟩

theorem start_writes (h : Host) (cli : Cli) :
    ∃ r es, Effect.Writes (start h cli) r es ∧ StartRun h cli r es := by
  obtain ⟨r, es, hprepare, hquiet, hfits⟩ := prepare_writes h cli
  cases r with
  | error e =>
    refine ⟨_, _, hprepare.stop, .unfit hquiet ?_⟩
    intro started fits
    obtain ⟨es', hprepare'⟩ := fits.prepare
    cases (hprepare.unique hprepare').1
  | ok started =>
    obtain ⟨r, es', hsetUp, hrun⟩ := setUp_writes h started.config
    have hunique : ∀ other, Fit h cli other ↔ other = started := by
      intro other
      constructor
      · exact (hfits started rfl).unique
      · rintro rfl
        exact hfits _ rfl
    cases r with
    | error e => exact ⟨_, _, hprepare.bind hsetUp.stop, .fit hquiet hunique hrun⟩
    | ok u =>
      refine ⟨.ok started, _, hprepare.bind (hsetUp.bind Effect.writes_pure), ?_⟩
      rw [List.append_nil]
      exact .fit hquiet hunique hrun

theorem start_cases {r : Except StartError Started}
    (hrun : (start h cli).run.run [] = some (r, es)) : StartRun h cli r es := by
  obtain ⟨r', es', hwrites, hstart⟩ := start_writes h cli
  cases hrun.symm.trans (hwrites [])
  exact hstart

/-! ### The socket files -/

/-- The socket file that an effect is on. -/
def StartEffect.target : StartEffect → Option String
  | .unlinked path | .bound path _ | .setMode path _ => some path
  | _ => none

theorem StartEffect.Quiet.target {e : StartEffect} (h : e.Quiet) : e.target = none := by
  cases e <;> first | rfl | exact h.elim

theorem StartEffect.Quiet.ne_ready {e : StartEffect} (h : e.Quiet) : e ≠ .ready := by
  rintro rfl
  exact h

theorem foldl_apply_other {path : String} {files : Files} (h : ∀ e ∈ es, e.target ≠ some path) :
    es.foldl StartEffect.apply files path = files path := by
  induction es generalizing files with
  | nil => rfl
  | cons e es ih =>
    rw [List.foldl_cons, ih fun e' he' => h e' (List.mem_cons_of_mem e he')]
    have hne := h e List.mem_cons_self
    cases e with
    | unlinked p | bound p mode | setMode p mode =>
      exact Function.update_of_ne (fun heq => hne (congrArg some heq.symm)) ..
    | _ => rfl

theorem foldl_apply_quiet {files : Files} (h : ∀ e ∈ es, e.Quiet) :
    es.foldl StartEffect.apply files = files := by
  funext path
  refine foldl_apply_other fun e he => ?_
  rw [(h e he).target]
  simp

/-- A start is on no other socket file than the admin socket of its directory. -/
theorem SetUp.target {dir : String} {r : Except StartError Unit} (setUp : SetUp h dir r es) :
    ∀ e ∈ es, ∀ path, e.target = some path → path = adminPath dir := by
  have hquiet : ∀ {l : List StartEffect}, (∀ e ∈ l, e.Quiet) → ∀ e ∈ l, ∀ path,
      e.target = some path → path = adminPath dir := by
    intro l hl e he path htarget
    rw [(hl e he).target] at htarget
    cases htarget
  intro e he path htarget
  cases setUp with
  | dirFailed => cases he
  | unlinkFailed _ quiet => exact hquiet quiet e he path htarget
  | bindFailed _ quiet | modeFailed _ quiet =>
    rcases List.mem_append.mp he with he | he
    · exact hquiet quiet e he path htarget
    · simp only [List.mem_cons, List.not_mem_nil, or_false] at he
      rcases he with rfl | rfl <;> exact (Option.some.inj htarget).symm
  | bound _ quiet _ _ _ quiet' =>
    simp only [List.mem_append, List.mem_cons, List.not_mem_nil, or_false] at he
    rcases he with (he | rfl | rfl | rfl | rfl) | he
    · exact hquiet quiet e he path htarget
    · exact (Option.some.inj htarget).symm
    · exact (Option.some.inj htarget).symm
    · exact (Option.some.inj htarget).symm
    · cases htarget
    · exact hquiet quiet' e he path htarget

/-- The set-up tells that it is ready exactly if the directory and the admin socket are made. -/
theorem SetUp.ready_iff {dir : String} {r : Except StartError Unit} (setUp : SetUp h dir r es) :
    .ready ∈ es ↔ h.createDir = none ∧ h.bind.unlink = none ∧ h.bind.bind = none ∧
      h.bind.chmod = none := by
  have hquiet : ∀ {l : List StartEffect}, (∀ e ∈ l, e.Quiet) → .ready ∉ l :=
    fun hl hmem => (hl _ hmem).ne_ready rfl
  cases setUp with
  | dirFailed createDir => simp [createDir]
  | unlinkFailed createDir quiet unlink => simp [hquiet quiet, unlink]
  | bindFailed createDir quiet unlink bind => simp [hquiet quiet, bind]
  | modeFailed createDir quiet unlink bind chmod => simp [hquiet quiet, chmod]
  | bound createDir quiet unlink bind chmod => simp [createDir, unlink, bind, chmod]

theorem SetUp.ok_iff {dir : String} {r : Except StartError Unit} (setUp : SetUp h dir r es) :
    r = .ok () ↔ .ready ∈ es ∧ h.terminate = none ∧ h.interrupt = none := by
  rw [setUp.ready_iff]
  cases setUp with
  | dirFailed createDir => simp [createDir]
  | unlinkFailed createDir quiet unlink => simp [unlink]
  | bindFailed createDir quiet unlink bind => simp [bind]
  | modeFailed createDir quiet unlink bind chmod => simp [chmod]
  | bound createDir quiet unlink bind chmod quiet' handlers =>
    simp [createDir, unlink, bind, chmod, handlers]

/-- From the notification on, the admin socket is bound with its mode, and no file changes. -/
theorem SetUp.ready_bound {dir : String} {r : Except StartError Unit} {pre : List StartEffect}
    {files : Files} (setUp : SetUp h dir r es) (hpre : pre <+: es) (hready : .ready ∈ pre) :
    pre.foldl StartEffect.apply files =
      Function.update files (adminPath dir) (some ⟨.admin, adminSocketMode⟩) := by
  have hquiet : ∀ {l : List StartEffect}, (∀ e ∈ l, e.Quiet) → .ready ∉ l :=
    fun hl hmem => (hl _ hmem).ne_ready rfl
  have hbound := setUp.ready_iff.mp (hpre.subset hready)
  cases setUp with
  | dirFailed createDir => simp [createDir] at hbound
  | unlinkFailed createDir quiet unlink => simp [unlink] at hbound
  | bindFailed createDir quiet unlink bind => simp [bind] at hbound
  | modeFailed createDir quiet unlink bind chmod => simp [chmod] at hbound
  | @bound r es₀ es' createDir quiet unlink bind chmod quiet' =>
    have hsplit : es₀ ++ [.unlinked (adminPath dir), .bound (adminPath dir) h.bind.created,
        .setMode (adminPath dir) adminSocketMode, .ready] ++ es' =
        (es₀ ++ [.unlinked (adminPath dir), .bound (adminPath dir) h.bind.created,
          .setMode (adminPath dir) adminSocketMode]) ++ .ready :: es' := by simp
    rw [hsplit] at hpre
    rcases Machine.prefix_append_cases hpre with hearly | ⟨later, rfl, hlater⟩
    · have hmem := hearly.subset hready
      simp [hquiet quiet] at hmem
    · rw [List.foldl_append, List.foldl_append, foldl_apply_quiet quiet]
      have hsame : ∀ {files : Files}, later.foldl StartEffect.apply files = files := by
        intro files
        funext path
        refine foldl_apply_other fun e he => ?_
        rcases List.mem_cons.mp (hlater.subset he) with rfl | he
        · simp [StartEffect.target]
        · simp [(quiet' e he).target]
      rw [hsame]
      simp [StartEffect.apply]

end

/-- A start ends, whatever it finds.  It tells that the daemon is ready exactly if there are a
configuration, a token and the configured backend session and the admin socket could be made; from
then on the admin socket is bound with mode `0600`, wherever the process is stopped.  It comes to
the accept loop exactly if also the signal handlers are installed. -/
theorem start_ready (h : Host) (cli : Cli) :
    ∃ r es, (start h cli).run.run [] = some (r, es) ∧
      (.ready ∈ es ↔ (∃ started, Fit h cli started) ∧ h.createDir = none ∧
        h.bind.unlink = none ∧ h.bind.bind = none ∧ h.bind.chmod = none) ∧
      (∀ started, r = .ok started ↔ Fit h cli started ∧ .ready ∈ es ∧ h.terminate = none ∧
        h.interrupt = none) ∧
      ∀ stale pre, pre <+: es → .ready ∈ pre → ∃ started, Fit h cli started ∧
        filesAfter stale pre (adminPath started.config.socketDir) =
          some ⟨.admin, adminSocketMode⟩ := by
  obtain ⟨r, es, hwrites, hstart⟩ := start_writes h cli
  refine ⟨r, es, hwrites [], ?_⟩
  cases hstart with
  | unfit quiet unfit =>
    have hready : ∀ pre, pre <+: es → .ready ∉ pre :=
      fun pre hpre hmem => (quiet _ (hpre.subset hmem)).ne_ready rfl
    refine ⟨?_, ?_, fun _ pre hpre hmem => absurd hmem (hready pre hpre)⟩
    · simp [hready es List.prefix_rfl, unfit]
    · simp [unfit]
  | @fit started r es es' quiet fits setUp =>
    have hready : .ready ∉ es := fun hmem => (quiet _ hmem).ne_ready rfl
    have hfits : Fit h cli started := (fits started).mpr rfl
    refine ⟨?_, ?_, ?_⟩
    · rw [List.mem_append, or_iff_right hready, setUp.ready_iff]
      simp only [show ∃ started, Fit h cli started from ⟨started, hfits⟩, true_and]
    · intro other
      rw [List.mem_append, or_iff_right hready, fits, ← setUp.ok_iff]
      cases r with
      | error e => simp [Except.map]
      | ok u => simp [Except.map, eq_comm]
    · intro stale pre hpre hmem
      refine ⟨started, hfits, ?_⟩
      rcases Machine.prefix_append_cases hpre with hearly | ⟨later, rfl, hlater⟩
      · exact absurd (hearly.subset hmem) hready
      · rw [filesAfter, List.foldl_append, foldl_apply_quiet quiet,
          setUp.ready_bound hlater ((List.mem_append.mp hmem).resolve_left hready),
          Function.update_self]

/-- Wherever a start is stopped, it has changed no socket file but the admin socket of the
configured directory; and a start that comes to the accept loop, from whatever files earlier
processes have left, has made exactly the initial state of the daemon. -/
theorem start_initial {h : Host} {cli : Cli} {r : Except StartError Started}
    {es : List StartEffect} (hrun : (start h cli).run.run [] = some (r, es))
    (stale : Daemon.Stale) :
    (∀ pre, pre <+: es → ∀ path, filesAfter stale pre path ≠ staleFiles stale path →
      ∃ started, Fit h cli started ∧ path = adminPath started.config.socketDir) ∧
    ∀ started, r = .ok started → ∀ env : Env, env.config = started.config →
      filesAfter stale es = (Daemon.init env started.backend stale).files := by
  cases start_cases hrun with
  | unfit quiet unfit =>
    refine ⟨?_, by simp⟩
    intro pre hpre path hchanged
    rw [filesAfter, foldl_apply_quiet fun e he => quiet e (hpre.subset he)] at hchanged
    exact absurd rfl hchanged
  | @fit started r es es' quiet fits setUp =>
    have hfits : Fit h cli started := (fits started).mpr rfl
    refine ⟨?_, ?_⟩
    · intro pre hpre path hchanged
      refine ⟨started, hfits, ?_⟩
      by_contra hpath
      refine hchanged (foldl_apply_other fun e he htarget => ?_)
      rcases List.mem_append.mp (hpre.subset he) with he | he
      · rw [(quiet e he).target] at htarget
        cases htarget
      · exact hpath (setUp.target e he path htarget)
    · intro other hok env henv
      have hr : r = .ok () ∧ other = started := by
        cases r with
        | error e => cases hok
        | ok u =>
          cases hok
          exact ⟨rfl, rfl⟩
      obtain ⟨rfl, rfl⟩ := hr
      have hready := (setUp.ok_iff.mp rfl).1
      rw [filesAfter, List.foldl_append, foldl_apply_quiet quiet,
        setUp.ready_bound List.prefix_rfl hready, ← henv]
      simp [Daemon.init, bindAdminSocket, bindSocket, BindOutcome.success]
      rfl

/-- A host on which everything works, with the token in the environment. -/
def sampleHost : Host where
  surroundings := sampleSurroundings "token" []
  toml _ := .ok .default
  debug s := "\"" ++ s ++ "\""
  fnoxOpen _ := .ok 0
  fnoxDiscover := .ok 0
  createDir := none
  setDirMode := none
  bind := .success
  terminate := none
  interrupt := none

/-- `remo-broker --bootstrap-source env`. -/
def sampleCli : Cli := { RawConfig.default with bootstrapSource := some .env, config := none }

theorem start_initial_env : ∃ started es,
    (start sampleHost sampleCli).run.run [] = some (.ok started, es) ∧
    ∀ env : Env, env.config = started.config →
      filesAfter (fun _ => some 0o777) es =
        (Daemon.init env started.backend fun _ => some 0o777).files := by
  have hfacts : ((start sampleHost sampleCli).run.run []).map (fun r => r.1.toOption.isSome) =
      some true := by
    decide +kernel
  obtain ⟨⟨r, es⟩, hrun, hok⟩ := Option.map_eq_some_iff.mp hfacts
  cases r with
  | error e => cases hok
  | ok started => exact ⟨started, es, hrun, (start_initial hrun _).2 started rfl⟩

end RemoBroker
