import RemoBroker.RustStd
import Mathlib.Data.List.Nodup

/-! The project manifest, `src/manifest.rs`: what TOML deserialization yields, the validation of
it, and the discovery and loading of the manifest of a project directory.  TOML itself is a
parameter. -/

namespace RemoBroker

def supportedSchemaVersions : List UInt32 := [1]

/-- Per-project files that the broker checks, in priority order. -/
def manifestCandidates : List String := [".devcontainer/remo-broker.toml", ".remo/broker.toml"]

def projectNameMaxLen : Nat := 64
def descriptionMaxLen : Nat := 256
def secretNameMaxLen : Nat := 128
def cacheTtlMax : UInt32 := 86400
def cacheMaxEntriesMax : UInt32 := 1024

inductive ManifestError where
  | notFound (projectPath : String)
  | io (path source : String)
  | parse (path source : String)
  | unsupportedSchemaVersion (version : UInt32)
  | invalidProjectName (name : String)
  | nameDirMismatch (name dir : String)
  | descriptionTooLong (len : Nat)
  | invalidSecretName (name : String)
  | duplicateSecret (name : String)
  | cacheTtlOutOfRange (value : UInt32)
  | cacheMaxEntriesOutOfRange (value : UInt32)
deriving DecidableEq

/-- The text of an error, where `debug` is the `{:?}` form of a string. -/
def ManifestError.message (debug : String → String) : ManifestError → String
  | .notFound path => "no manifest under " ++ path ++
      ": expected .devcontainer/remo-broker.toml or .remo/broker.toml"
  | .io path source => "failed to read " ++ path ++ ": " ++ source
  | .parse path source => "failed to parse TOML in " ++ path ++ ": " ++ source
  | .unsupportedSchemaVersion v => "unsupported schema_version: " ++ toString v ++
      " (supported: " ++ toString supportedSchemaVersions ++ ")"
  | .invalidProjectName name => "invalid project.name " ++ debug name ++
      ": must match ^[a-z0-9][a-z0-9_-]\x7b0,63\x7d$"
  | .nameDirMismatch name dir => "project.name " ++ debug name ++
      " does not match project directory basename " ++ debug dir
  | .descriptionTooLong len => "project.description too long: " ++ toString len ++
      " chars (max " ++ toString descriptionMaxLen ++ ")"
  | .invalidSecretName name => "invalid allowlist secret name " ++ debug name ++
      ": must match ^[A-Za-z0-9_]\x7b1,128\x7d$"
  | .duplicateSecret name => "duplicate secret name in allowlist: " ++ debug name
  | .cacheTtlOutOfRange value => "cache.ttl_seconds out of range: " ++ toString value ++
      " (must be 1..=" ++ toString cacheTtlMax ++ ")"
  | .cacheMaxEntriesOutOfRange value => "cache.max_entries out of range: " ++ toString value ++
      " (must be 1..=" ++ toString cacheMaxEntriesMax ++ ")"

structure RawProject where
  name : String
  description : Option String

structure RawAllowlist where
  secrets : List String

structure RawCache where
  ttlSeconds : Option UInt32
  maxEntries : Option UInt32

/-- A manifest as TOML deserialization yields it. -/
structure RawManifest where
  schemaVersion : UInt32
  project : RawProject
  allowlist : RawAllowlist
  cache : Option RawCache

def isAsciiLowercase (b : UInt8) : Bool := 97 ≤ b && b ≤ 122
def isAsciiUppercase (b : UInt8) : Bool := 65 ≤ b && b ≤ 90
def isAsciiDigit (b : UInt8) : Bool := 48 ≤ b && b ≤ 57
def isAsciiAlphanumeric (b : UInt8) : Bool :=
  isAsciiLowercase b || isAsciiUppercase b || isAsciiDigit b

def isValidProjectName (s : String) : Bool :=
  match bytes s with
  | [] => false
  | first :: rest =>
    if projectNameMaxLen < (first :: rest).length then false
    else if !isAsciiLowercase first && !isAsciiDigit first then false
    else rest.all fun b => isAsciiLowercase b || isAsciiDigit b || b == 95 || b == 45

def isValidSecretName (s : String) : Bool :=
  if bytes s = [] || secretNameMaxLen < (bytes s).length then false
  else (bytes s).all fun b => isAsciiAlphanumeric b || b == 95

namespace Manifest

structure Project where
  name : String
  description : Option String
deriving DecidableEq

structure Allowlist where
  secrets : List String
deriving DecidableEq

/-- The cache overrides of a manifest, `None` where the broker's default applies. -/
structure Cache where
  ttlSeconds : Option UInt32
  maxEntries : Option UInt32
deriving DecidableEq

def Cache.default : Cache := ⟨none, none⟩

/-- The rules that a validated `[cache]` block keeps. -/
structure Cache.InRange (c : Cache) : Prop where
  ttl : ∀ s, c.ttlSeconds = some s → 1 ≤ s ∧ s ≤ cacheTtlMax
  entries : ∀ n, c.maxEntries = some n → 1 ≤ n ∧ n ≤ cacheMaxEntriesMax

end Manifest

/-- A validated manifest.  It is built only by `validate`, and carries what `validate` checked
about the manifest itself. -/
structure Manifest where
  schemaVersion : UInt32
  project : Manifest.Project
  allowlist : Manifest.Allowlist
  cache : Manifest.Cache
  version_supported : schemaVersion ∈ supportedSchemaVersions
  name_valid : isValidProjectName project.name = true
  description_short : ∀ d, project.description = some d → d.length ≤ descriptionMaxLen
  secrets_valid : ∀ n ∈ allowlist.secrets, isValidSecretName n = true
  secrets_nodup : allowlist.secrets.Nodup
  cache_inRange : cache.InRange

namespace Manifest

/-- The loop over the allowlist, with the names seen so far. -/
def checkSecrets (seen : List String) : List String → Except ManifestError Unit
  | [] => .ok ()
  | name :: rest =>
    if !isValidSecretName name then .error (.invalidSecretName name)
    else if name ∈ seen then .error (.duplicateSecret name)
    else checkSecrets (name :: seen) rest

/-- An optional field's value, when it lies outside `1..=max`. -/
def outOfRange (max : UInt32) (value : Option UInt32) : Option UInt32 :=
  value.filter fun v => !(1 ≤ v && v ≤ max)

/-- The `[cache]` block: absent means both defaults. -/
def checkCache : Option RawCache → Except ManifestError Cache
  | none => .ok Cache.default
  | some c =>
    match outOfRange cacheTtlMax c.ttlSeconds with
    | some ttl => .error (.cacheTtlOutOfRange ttl)
    | none =>
      match outOfRange cacheMaxEntriesMax c.maxEntries with
      | some max => .error (.cacheMaxEntriesOutOfRange max)
      | none => .ok ⟨c.ttlSeconds, c.maxEntries⟩

theorem outOfRange_eq_none {max : UInt32} {value : Option UInt32} :
    outOfRange max value = none ↔ ∀ v, value = some v → 1 ≤ v ∧ v ≤ max := by
  cases value with
  | none => simp [outOfRange]
  | some v =>
    by_cases hrange : 1 ≤ v ∧ v ≤ max
    · rw [outOfRange, Option.filter_some, decide_eq_true hrange.1, decide_eq_true hrange.2]
      exact ⟨fun _ w hw => Option.some.inj hw ▸ hrange, fun _ => rfl⟩
    · have hbool : (!(decide (1 ≤ v) && decide (v ≤ max))) = true := by
        simpa only [Bool.not_eq_true', Bool.and_eq_false_iff, decide_eq_false_iff_not,
          not_and_or] using hrange
      rw [outOfRange, Option.filter_some, if_pos hbool]
      exact ⟨fun h => absurd h (by simp), fun h => absurd (h v rfl) hrange⟩

theorem checkSecrets_ok {seen names : List String} (h : checkSecrets seen names = .ok ()) :
    (∀ n ∈ names, isValidSecretName n = true) ∧ names.Nodup ∧ ∀ n ∈ names, n ∉ seen := by
  induction names generalizing seen with
  | nil => simp
  | cons name rest ih =>
    simp only [checkSecrets] at h
    split at h
    · cases h
    · rename_i hvalid
      split at h
      · cases h
      · rename_i hseen
        obtain ⟨hrest, hnodup, hnew⟩ := ih h
        have hname : isValidSecretName name = true := by simpa using hvalid
        refine ⟨?_, ?_, ?_⟩
        · simpa [hname] using hrest
        · exact List.nodup_cons.mpr ⟨fun hmem => hnew name hmem (by simp), hnodup⟩
        · intro n hn
          rcases List.mem_cons.mp hn with rfl | hn
          · exact hseen
          · exact fun hs => hnew n hn (List.mem_cons_of_mem _ hs)

theorem checkCache_ok {raw : Option RawCache} {c : Cache} (h : checkCache raw = .ok c) :
    c.InRange ∧ c = (raw.map fun r => ⟨r.ttlSeconds, r.maxEntries⟩).getD Cache.default := by
  cases raw with
  | none =>
    cases h
    exact ⟨⟨by simp [Cache.default], by simp [Cache.default]⟩, rfl⟩
  | some r =>
    simp only [checkCache] at h
    split at h
    · cases h
    · rename_i httl
      split at h
      · cases h
      · rename_i hmax
        cases h
        exact ⟨⟨outOfRange_eq_none.mp httl, outOfRange_eq_none.mp hmax⟩, rfl⟩

/-- `Manifest::validate`: the checks in the order of the source, the first failure is the error. -/
def validate (raw : RawManifest) (projectDirName : Option String) :
    Except ManifestError Manifest :=
  if hversion : raw.schemaVersion ∉ supportedSchemaVersions then
    .error (.unsupportedSchemaVersion raw.schemaVersion)
  else if hname : ¬isValidProjectName raw.project.name = true then
    .error (.invalidProjectName raw.project.name)
  else match projectDirName.filter fun dir => raw.project.name ≠ dir with
  | some dir => .error (.nameDirMismatch raw.project.name dir)
  | none =>
    match hdesc : raw.project.description.filter fun d => descriptionMaxLen < d.length with
    | some d => .error (.descriptionTooLong d.length)
    | none =>
      match hsecrets : checkSecrets [] raw.allowlist.secrets with
      | .error e => .error e
      | .ok () =>
        match hcache : checkCache raw.cache with
        | .error e => .error e
        | .ok cache =>
          .ok {
            schemaVersion := raw.schemaVersion
            project := ⟨raw.project.name, raw.project.description⟩
            allowlist := ⟨raw.allowlist.secrets⟩
            cache
            version_supported := not_not.mp hversion
            name_valid := not_not.mp hname
            description_short := fun d hd => by
              have : raw.project.description = some d := hd
              simpa [this, Option.filter_some] using hdesc
            secrets_valid := (checkSecrets_ok hsecrets).1
            secrets_nodup := (checkSecrets_ok hsecrets).2.1
            cache_inRange := (checkCache_ok hcache).1 }

/-- What a run of `validate` that succeeds has checked and returned. -/
theorem validate_ok {raw : RawManifest} {dir : Option String} {m : Manifest}
    (h : validate raw dir = .ok m) :
    m.schemaVersion = raw.schemaVersion ∧
    m.project = ⟨raw.project.name, raw.project.description⟩ ∧
    m.allowlist = ⟨raw.allowlist.secrets⟩ ∧
    (∀ d, dir = some d → m.project.name = d) := by
  unfold validate at h
  split at h
  · cases h
  split at h
  · cases h
  split at h
  · cases h
  rename_i hdir
  split at h
  · cases h
  split at h
  · cases h
  split at h
  · cases h
  cases h
  refine ⟨rfl, rfl, rfl, ?_⟩
  rintro d rfl
  simpa [Option.filter_some] using hdir

def Validated (m : Manifest) : Prop := ∃ raw dir, validate raw dir = .ok m

end Manifest

/-- The answers of the file system to the queries that loading a manifest makes. -/
structure Disk where
  isFile : String → Bool
  readToString : String → Except String String

def discover (disk : Disk) (projectPath : String) : Option String :=
  (manifestCandidates.map (Path.join projectPath)).find? disk.isFile

/-- `Manifest::load`: the validated manifest and the path it was loaded from. -/
def Manifest.load (toml : String → Except String RawManifest) (disk : Disk)
    (projectPath : String) : Except ManifestError (Manifest × String) := do
  let path ← match discover disk projectPath with
    | some path => pure path
    | none => .error (.notFound projectPath)
  let src ← (disk.readToString path).mapError (.io path)
  let raw ← (toml src).mapError (.parse path)
  let manifest ← validate raw (Path.fileName projectPath)
  return (manifest, path)

theorem Manifest.load_source {toml : String → Except String RawManifest} {disk : Disk}
    {projectPath path : String} {m : Manifest}
    (h : Manifest.load toml disk projectPath = .ok (m, path)) :
    ∃ src raw, path ∈ manifestCandidates.map (Path.join projectPath) ∧
      disk.readToString path = .ok src ∧ toml src = .ok raw ∧
      validate raw (Path.fileName projectPath) = .ok m := by
  unfold Manifest.load at h
  cases hpath : discover disk projectPath with
  | none => simp [hpath, bind, Except.bind] at h
  | some p =>
    simp only [hpath, bind, Except.bind, pure, Except.pure] at h
    cases hread : disk.readToString p with
    | error e => simp [hread, Except.mapError] at h
    | ok src =>
      simp only [hread, Except.mapError] at h
      cases hraw : toml src with
      | error e => simp [hraw] at h
      | ok raw =>
        simp only [hraw] at h
        split at h
        · cases h
        rename_i hvalid
        cases h
        exact ⟨src, raw, List.mem_of_find?_eq_some hpath, hread, hraw, hvalid⟩

theorem Manifest.load_ok {toml : String → Except String RawManifest} {disk : Disk}
    {projectPath path : String} {m : Manifest}
    (h : Manifest.load toml disk projectPath = .ok (m, path)) :
    ∃ raw, validate raw (Path.fileName projectPath) = .ok m :=
  let ⟨_, raw, _, _, _, hvalid⟩ := Manifest.load_source h
  ⟨raw, hvalid⟩

theorem Manifest.load_validated {toml : String → Except String RawManifest} {disk : Disk}
    {projectPath path : String} {m : Manifest}
    (h : Manifest.load toml disk projectPath = .ok (m, path)) : m.Validated :=
  let ⟨raw, hraw⟩ := Manifest.load_ok h
  ⟨raw, _, hraw⟩

end RemoBroker
