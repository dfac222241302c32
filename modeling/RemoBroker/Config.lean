import RemoBroker.RustStd

/-! The daemon's configuration, `src/config.rs`: how the command line, the file and the defaults
combine, and the ranges that the result keeps. -/

namespace RemoBroker

def defaultBootstrapTokenPath : String := "/etc/remo-broker/bootstrap-token"
def defaultSocketDir : String := "/run/remo-broker"
def defaultAuditLogPath : String := "/var/log/remo-broker/audit.log"
def defaultCacheTtlSeconds : UInt32 := 900
def defaultCacheMaxEntries : UInt32 := 32
def defaultBackendFetchTimeoutMs : UInt32 := 5000

inductive ConfigError where
  | fileNotFound (path : String)
  | io (path source : String)
  | parse (path source : String)
  | cacheTtlOutOfRange (value : UInt32)
  | cacheMaxEntriesOutOfRange (value : UInt32)
  | backendTimeoutZero
deriving DecidableEq

inductive BootstrapSource where
  | file (path : String)
  | imds
  | env
deriving DecidableEq

inductive BootstrapSourceKind where
  | file | imds | env
deriving DecidableEq

/-- The fields that the command line (`Overrides`) and the file (`RawConfig`) may give. -/
structure RawConfig where
  bootstrapSource : Option BootstrapSourceKind
  bootstrapTokenPath : Option String
  socketDir : Option String
  auditLogPath : Option String
  cacheDefaultTtlSeconds : Option UInt32
  cacheDefaultMaxEntries : Option UInt32
  backendFetchTimeoutMs : Option UInt32
  fnoxConfigPath : Option String

abbrev Overrides := RawConfig

def RawConfig.default : RawConfig := ⟨none, none, none, none, none, none, none, none⟩

/-- The validated configuration, with the ranges that `resolve` checked. -/
structure Config where
  bootstrap : BootstrapSource
  socketDir : String
  auditLogPath : String
  cacheDefaultTtl : Duration
  cacheDefaultMaxEntries : UInt32
  backendFetchTimeout : Duration
  fnoxConfigPath : Option String
  ttl_inRange : Duration.fromSecs 1 ≤ cacheDefaultTtl ∧ cacheDefaultTtl ≤ Duration.fromSecs 86400
  entries_inRange : 1 ≤ cacheDefaultMaxEntries ∧ cacheDefaultMaxEntries ≤ 1024

theorem Config.ttl_pos (c : Config) : 0 < c.cacheDefaultTtl :=
  Nat.lt_of_lt_of_le (Duration.fromSecs_pos Nat.one_pos) c.ttl_inRange.1

/-- `Config::resolve`: an override wins over the file, the file over the default. -/
def Config.resolve (raw : RawConfig) (overrides : Overrides) : Except ConfigError Config :=
  let sourceKind := (overrides.bootstrapSource.or raw.bootstrapSource).getD .file
  let tokenPath :=
    (overrides.bootstrapTokenPath.or raw.bootstrapTokenPath).getD defaultBootstrapTokenPath
  let bootstrap := match sourceKind with
    | .file => BootstrapSource.file tokenPath
    | .imds => .imds
    | .env => .env
  let socketDir := (overrides.socketDir.or raw.socketDir).getD defaultSocketDir
  let auditLogPath := (overrides.auditLogPath.or raw.auditLogPath).getD defaultAuditLogPath
  let ttl := (overrides.cacheDefaultTtlSeconds.or raw.cacheDefaultTtlSeconds).getD
    defaultCacheTtlSeconds
  if httl : 1 ≤ ttl ∧ ttl ≤ 86400 then
    let entries := (overrides.cacheDefaultMaxEntries.or raw.cacheDefaultMaxEntries).getD
      defaultCacheMaxEntries
    if hentries : 1 ≤ entries ∧ entries ≤ 1024 then
      let timeout := (overrides.backendFetchTimeoutMs.or raw.backendFetchTimeoutMs).getD
        defaultBackendFetchTimeoutMs
      if timeout = 0 then .error .backendTimeoutZero
      else .ok {
        bootstrap, socketDir, auditLogPath
        cacheDefaultTtl := Duration.fromSecs ttl.toNat
        cacheDefaultMaxEntries := entries
        backendFetchTimeout := Duration.fromMillis timeout.toNat
        fnoxConfigPath := overrides.fnoxConfigPath.or raw.fnoxConfigPath
        ttl_inRange := ⟨Duration.fromSecs_le.mpr (UInt32.le_iff_toNat_le.mp httl.1),
          Duration.fromSecs_le.mpr (UInt32.le_iff_toNat_le.mp httl.2)⟩
        entries_inRange := hentries }
    else .error (.cacheMaxEntriesOutOfRange entries)
  else .error (.cacheTtlOutOfRange ttl)

/-- The configuration of a daemon that is given nothing. -/
def Config.default : Config where
  bootstrap := .file defaultBootstrapTokenPath
  socketDir := defaultSocketDir
  auditLogPath := defaultAuditLogPath
  cacheDefaultTtl := Duration.fromSecs defaultCacheTtlSeconds.toNat
  cacheDefaultMaxEntries := defaultCacheMaxEntries
  backendFetchTimeout := Duration.fromMillis defaultBackendFetchTimeoutMs.toNat
  fnoxConfigPath := none
  ttl_inRange := by decide
  entries_inRange := by decide

theorem Config.resolve_default :
    Config.resolve RawConfig.default RawConfig.default = .ok Config.default := rfl

end RemoBroker
