import RemoBroker.Cache
import RemoBroker.Config
import RemoBroker.Manifest
import RemoBroker.Proto

/-! The parts of the project registry, `src/registry.rs`, that act on one project: its record, the
bounds of its cache, the loading of its manifest, and the binding of its socket in the socket
directory. -/

namespace RemoBroker

def adminSocketName : String := "admin.sock"
def adminSocketMode : Nat := 0o600
def projectSocketMode : Nat := 0o660

inductive RegistryError where
  | projectExists (name : String)
  | projectUnknown (name : String)
  | manifestNotFound (error : ManifestError)
  | manifestInvalid (error : ManifestError)
  | bindSocket (path source : String)
  | socketPerms (path source : String)
deriving DecidableEq

def RegistryError.message (debug : String → String) : RegistryError → String
  | .projectExists name => "project " ++ debug name ++ " already registered"
  | .projectUnknown name => "project " ++ debug name ++ " not registered"
  | .manifestNotFound e => "manifest not found: " ++ e.message debug
  | .manifestInvalid e => "manifest invalid: " ++ e.message debug
  | .bindSocket path source => "failed to bind project socket " ++ path ++ ": " ++ source
  | .socketPerms path source =>
    "failed to set project socket permissions on " ++ path ++ ": " ++ source

def adminErrorFor (debug : String → String) (e : RegistryError) : AdminResponse :=
  let code := match e with
    | .projectExists _ => AdminErrorCode.projectExists
    | .projectUnknown _ => .projectUnknown
    | .manifestNotFound _ => .manifestNotFound
    | .manifestInvalid _ => .manifestInvalid
    | .bindSocket _ _ | .socketPerms _ _ => .internalError
  .error (ErrorResponse.new code (e.message debug))

structure Project where
  name : String
  projectPath : String
  socketPath : String
  manifestPath : String
  manifest : Manifest
  cache : BoundedCache

structure CacheDefaults where
  maxEntries : UInt32
  ttl : Duration

/-- The defaults that `Server::new` takes from the configuration. -/
def Config.cacheDefaults (c : Config) : CacheDefaults :=
  ⟨c.cacheDefaultMaxEntries, c.cacheDefaultTtl⟩

/-- `resolve_cache_bounds`: the manifest's values where it has them. -/
def resolveCacheBounds (manifest : Manifest) (defaults : CacheDefaults) : Nat × Duration :=
  ((manifest.cache.maxEntries.getD defaults.maxEntries).toNat,
    (manifest.cache.ttlSeconds.map fun s => Duration.fromSecs s.toNat).getD defaults.ttl)

def loadManifest (toml : String → Except String RawManifest) (disk : Disk) (projectPath : String) :
    Except RegistryError (Manifest × String) :=
  (Manifest.load toml disk projectPath).mapError fun e =>
    match e with
    | .notFound path => .manifestNotFound (.notFound path)
    | e => .manifestInvalid e

/-- `load_manifest` followed by the comparison of the manifest's name with the requested one, as
`register` and `reload` make it. -/
def loadNamed (toml : String → Except String RawManifest) (disk : Disk)
    (name projectPath : String) : Except RegistryError (Manifest × String) :=
  match loadManifest toml disk projectPath with
  | .error e => .error e
  | .ok (manifest, path) =>
    if manifest.project.name ≠ name then
      .error (.manifestInvalid (.nameDirMismatch manifest.project.name name))
    else .ok (manifest, path)

theorem loadNamed_ok {toml : String → Except String RawManifest} {disk : Disk}
    {name projectPath path : String} {m : Manifest}
    (h : loadNamed toml disk name projectPath = .ok (m, path)) :
    m.project.name = name ∧ m.Validated ∧ Manifest.load toml disk projectPath = .ok (m, path) := by
  unfold loadNamed at h
  split at h
  · cases h
  rename_i m' path' hload
  split at h
  · cases h
  rename_i hname
  cases h
  have hraw : Manifest.load toml disk projectPath = .ok (m, path) := by
    unfold loadManifest at hload
    cases hl : Manifest.load toml disk projectPath with
    | error e => simp [hl, Except.mapError] at hload
    | ok r =>
      simp only [hl, Except.mapError, Except.ok.injEq] at hload
      rw [hload]
  exact ⟨not_not.mp hname, Manifest.load_validated hraw, hraw⟩

def socketPathFor (socketDir name : String) : String := Path.join socketDir (name ++ ".sock")

theorem isAbsolute_of_valid {name : String} (h : isValidProjectName name = true) :
    name.toList ≠ [] ∧ Path.isAbsolute name = false := by
  constructor
  · intro hnil
    have : name = "" := String.toList_inj.mp (by simpa using hnil)
    subst this
    revert h
    decide
  · by_contra habs
    have hhead := Path.bytes_of_isAbsolute (by simpa using habs)
    unfold isValidProjectName at h
    cases hb : bytes name with
    | nil => simp [hb] at hhead
    | cons first rest =>
      obtain rfl : first = 47 := by simpa [hb] using hhead
      simp only [hb] at h
      split at h
      · cases h
      · revert h
        simp [isAsciiLowercase, isAsciiDigit]

/-- Projects of different names have different sockets. -/
theorem socketPathFor_injective {dir n n' : String} (hn : isValidProjectName n = true)
    (hn' : isValidProjectName n' = true) (h : socketPathFor dir n = socketPathFor dir n') :
    n = n' := by
  obtain ⟨hne, habs⟩ := isAbsolute_of_valid hn
  obtain ⟨hne', habs'⟩ := isAbsolute_of_valid hn'
  have hname := Path.join_injective ((Path.isAbsolute_append hne).trans habs)
    ((Path.isAbsolute_append hne').trans habs') h
  apply String.toList_inj.mp
  have hlist := congrArg String.toList hname
  simpa [String.toList_append] using hlist

def adminPath (socketDir : String) : String := Path.join socketDir adminSocketName

/-- A registration of a project: the `Arc<Project>` that one `register` created. -/
structure RegId where
  name : String
  gen : Nat
deriving DecidableEq

/-- Who bound a socket file: the admin listener, the listener of a registration, a `register` that
failed after the bind, or another process. -/
inductive Owner where
  | admin
  | project (reg : RegId)
  | failed
  | foreign
deriving DecidableEq

structure SocketFile where
  owner : Owner
  mode : Nat
deriving DecidableEq

abbrev Files := String → Option SocketFile

inductive FileOp where
  | unlink | bind | chmod
deriving DecidableEq

/-- The answers of the operating system to the three steps of a bind: an error of the kind that is
not `NotFound` for the unlink, and the errors of the bind and of the change of mode. -/
structure BindOutcome where
  unlink : Option String
  bind : Option String
  chmod : Option String
  /-- The mode that the umask leaves on the file of a bind. -/
  created : Nat

def BindOutcome.success : BindOutcome := ⟨none, none, none, 0o755⟩

/-- Where `bind_admin_socket` and `bind_project_socket` return early. -/
inductive BindError where
  | bind (source : String)
  | perms (source : String)

/-- The steps of `bind_admin_socket` and `bind_project_socket`: unlink a stale file, bind, set the
mode.  When the mode cannot be set the listener is dropped and its file stays. -/
def bindSocket (files : Files) (path : String) (owner : Owner) (mode : Nat) (out : BindOutcome) :
    Files × Except BindError Unit × List FileOp :=
  match out.unlink with
  | some e => (files, .error (.bind e), [.unlink])
  | none =>
    let files := Function.update files path none
    match out.bind with
    | some e => (files, .error (.bind e), [.unlink, .bind])
    | none =>
      match out.chmod with
      | some e =>
        (Function.update files path (some ⟨.failed, out.created⟩), .error (.perms e),
          [.unlink, .bind, .chmod])
      | none => (Function.update files path (some ⟨owner, mode⟩), .ok (), [.unlink, .bind, .chmod])

def bindAdminSocket (files : Files) (path : String) (out : BindOutcome) :
    Files × Except BindError Unit × List FileOp :=
  bindSocket files path .admin adminSocketMode out

def bindProjectSocket (files : Files) (path : String) (reg : RegId) (out : BindOutcome) :
    Files × Except RegistryError Unit × List FileOp :=
  let (files, result, ops) := bindSocket files path (.project reg) projectSocketMode out
  (files, result.mapError fun e => match e with
    | .bind source => .bindSocket path source
    | .perms source => .socketPerms path source, ops)

section
variable {files : Files} {path p : String} {owner : Owner} {mode : Nat} {out : BindOutcome}

theorem bindSocket_other (hp : p ≠ path) :
    (bindSocket files path owner mode out).1 p = files p := by
  rcases out with ⟨_ | _, _ | _, _ | _, _⟩ <;> simp [bindSocket, hp]

theorem bindSocket_ok (h : (bindSocket files path owner mode out).2.1 = .ok ()) :
    (bindSocket files path owner mode out).1 = Function.update files path (some ⟨owner, mode⟩) := by
  rcases out with ⟨_ | _, _ | _, _ | _, _⟩ <;> simp [bindSocket] at h ⊢

theorem bindSocket_error {e : BindError}
    (h : (bindSocket files path owner mode out).2.1 = .error e) :
    (bindSocket files path owner mode out).1 path = files path ∨
      (bindSocket files path owner mode out).1 path = none ∨
      (bindSocket files path owner mode out).1 path = some ⟨.failed, out.created⟩ := by
  rcases out with ⟨_ | _, _ | _, _ | _, _⟩ <;> simp [bindSocket] at h ⊢

/-- What a bind answers and does is decided by the operating system, not by the files before. -/
theorem bindProjectSocket_files {files' : Files} {reg : RegId} :
    (bindProjectSocket files' path reg out).2 = (bindProjectSocket files path reg out).2 := by
  rcases out with ⟨_ | _, _ | _, _ | _, _⟩ <;> rfl

theorem bindProjectSocket_ok {files' : Files} {reg : RegId} {ops : List FileOp}
    (h : bindProjectSocket files path reg out = (files', .ok (), ops)) :
    files' = Function.update files path (some ⟨.project reg, projectSocketMode⟩) := by
  have hresult : (bindSocket files path (.project reg) projectSocketMode out).2.1 = .ok () := by
    cases hr : (bindSocket files path (.project reg) projectSocketMode out).2.1 with
    | ok => rfl
    | error e => simp [bindProjectSocket, hr, Except.mapError] at h
  obtain rfl : (bindProjectSocket files path reg out).1 = files' := congrArg Prod.fst h
  exact bindSocket_ok hresult

theorem bindProjectSocket_error {files' : Files} {reg : RegId} {e : RegistryError}
    {ops : List FileOp} (h : bindProjectSocket files path reg out = (files', .error e, ops)) :
    (∀ p, p ≠ path → files' p = files p) ∧
      (files' path = files path ∨ files' path = none ∨
        files' path = some ⟨.failed, out.created⟩) := by
  obtain ⟨e', hresult⟩ : ∃ e',
      (bindSocket files path (.project reg) projectSocketMode out).2.1 = .error e' := by
    cases hr : (bindSocket files path (.project reg) projectSocketMode out).2.1 with
    | ok => simp [bindProjectSocket, hr, Except.mapError] at h
    | error e' => exact ⟨e', rfl⟩
  obtain rfl : (bindProjectSocket files path reg out).1 = files' := congrArg Prod.fst h
  exact ⟨fun p hp => bindSocket_other hp, bindSocket_error hresult⟩

/-- A bind that fails before the change of mode leaves no file that was not there. -/
theorem bindProjectSocket_unbound {files' : Files} {reg : RegId} {e : RegistryError}
    {ops : List FileOp} {f : SocketFile} (hchmod : out.chmod = none)
    (h : bindProjectSocket files path reg out = (files', .error e, ops))
    (found : files' p = some f) : files p = some f := by
  obtain ⟨unlink, bind, chmod, created⟩ := out
  subst hchmod
  cases unlink with
  | some error =>
    obtain rfl : files = files' := congrArg Prod.fst h
    exact found
  | none =>
    cases bind with
    | some error =>
      obtain rfl : Function.update files path none = files' := congrArg Prod.fst h
      by_cases hp : p = path
      · simp [hp] at found
      · rwa [Function.update_of_ne hp] at found
    | none => cases congrArg (fun r => r.2.1) h

end

end RemoBroker
