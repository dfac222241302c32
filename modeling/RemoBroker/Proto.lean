import RemoBroker.RustStd

/-! The messages of the two sockets, `src/proto/`.  A message is the Rust value before it is
serialized or after it is parsed; a line that does not parse is the text of the parse error. -/

namespace RemoBroker

def protocolVersion : UInt32 := 1
def maxMessageBytes : Nat := 64 * 1024

/-- The error response of both sockets, over the socket's own codes. -/
structure ErrorResponse (Code : Type) where
  code : Code
  message : String
  retryAfterSeconds : Option UInt32
deriving DecidableEq

def ErrorResponse.new {Code : Type} (code : Code) (message : String) : ErrorResponse Code :=
  ⟨code, message, none⟩

inductive ProjectRequest where
  | get (name : String)
  | ping
  | info
deriving DecidableEq

/-- A line read from a project socket: the request, or the error of the JSON parser. -/
abbrev ProjectLine := Except String ProjectRequest

inductive ProjectErrorCode where
  | denied | notFound | backendError | backendUnreachable | rateLimited | protocolError
  | internalError | peerUnexpected
deriving DecidableEq

abbrev ProjectError := ErrorResponse ProjectErrorCode

structure GetResponse where
  value : Option String
  valueB64 : Option String
  ttlSeconds : UInt32
deriving DecidableEq

def GetResponse.utf8 (value : String) (ttlSeconds : UInt32) : GetResponse :=
  ⟨some value, none, ttlSeconds⟩

inductive ProjectResponse where
  | get (response : GetResponse)
  | ping (brokerVersion : String) (protocolVersion : UInt32) (project : String)
  | info (project : String) (allowlist : List String) (schemaVersion : UInt32)
  | error (error : ProjectError)
deriving DecidableEq

def ProjectResponse.carriesValue : ProjectResponse → Bool
  | .get _ => true
  | _ => false

def ProjectResponse.code : ProjectResponse → Option ProjectErrorCode
  | .error e => some e.code
  | _ => none

inductive AdminRequest where
  | register (name projectPath : String)
  | unregister (name : String)
  | reload (name : String)
  | status
  | rotateBootstrap
deriving DecidableEq

inductive AdminErrorCode where
  | manifestInvalid | manifestNotFound | projectUnknown | projectExists | bootstrapError
  | protocolError | internalError
deriving DecidableEq

abbrev AdminError := ErrorResponse AdminErrorCode

inductive BootstrapMode where
  | file | imds | env
deriving DecidableEq

structure ProjectStatus where
  name : String
  socketPath : String
  allowlistSize : UInt32
  cacheEntries : UInt32
deriving DecidableEq

structure StatusResponse where
  brokerVersion : String
  protocolVersion : UInt32
  uptimeSeconds : UInt64
  bootstrapMode : BootstrapMode
  projects : List ProjectStatus
deriving DecidableEq

inductive AdminResponse where
  | registered (socketPath : String)
  | ok
  | reloaded (allowlist : List String)
  | status (response : StatusResponse)
  | rotated
  | error (error : AdminError)
deriving DecidableEq

end RemoBroker
