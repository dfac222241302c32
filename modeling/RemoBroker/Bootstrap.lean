import RemoBroker.Config
import RemoBroker.Lib.Search
import RemoBroker.RustStd.Text

/-! The bootstrap token, `src/bootstrap.rs`: the three sources, with the HTTP exchanges of the
metadata service.  What the file system, the environment and the network answer is an input. -/

namespace RemoBroker

def bootstrapEnvVar : String := "REMO_BROKER_BOOTSTRAP_TOKEN"
def imdsBaseUrl : String := "http://169.254.169.254"
def imdsTokenTtlSeconds : UInt32 := 21600
def imdsTimeout : Duration := Duration.fromSecs 2

inductive BootstrapError where
  | fileNotFound (path : String)
  | fileEmpty (path : String)
  | io (path source : String)
  | envUnset (var : String)
  | envEmpty (var : String)
  | imdsInvalidBaseUrl (url : String)
  | imdsConnect (addr source : String)
  | imdsIo (source : String)
  | imdsTimeout (endpoint : String) (timeoutMs : Nat)
  | imdsHttp (endpoint : String) (status : UInt16) (body : String)
  | imdsMalformedResponse (endpoint : String)
  | imdsEmptyToken
  | imdsNoInstanceRole
deriving DecidableEq

/-- The text of an error, where `debug` is the `{:?}` form of a string. -/
def BootstrapError.message (debug : String → String) : BootstrapError → String
  | .fileNotFound path => "bootstrap token file " ++ path ++ " not found"
  | .fileEmpty path => "bootstrap token file " ++ path ++ " is empty"
  | .io path source => "failed to read bootstrap token file " ++ path ++ ": " ++ source
  | .envUnset var => "env var " ++ var ++ " is not set"
  | .envEmpty var => "env var " ++ var ++ " is set but empty"
  | .imdsInvalidBaseUrl url => "imds bootstrap: invalid base url " ++ debug url
  | .imdsConnect addr source => "imds bootstrap: failed to connect to " ++ addr ++ ": " ++ source
  | .imdsIo source => "imds bootstrap: i/o error: " ++ source
  | .imdsTimeout endpoint timeoutMs => "imds bootstrap: request to " ++ endpoint ++
      " timed out after " ++ toString timeoutMs ++ " ms"
  | .imdsHttp endpoint status body => "imds bootstrap: " ++ endpoint ++ " returned HTTP " ++
      toString status ++ ": " ++ body
  | .imdsMalformedResponse endpoint => "imds bootstrap: malformed HTTP response from " ++ endpoint
  | .imdsEmptyToken => "imds bootstrap: metadata token endpoint returned empty body"
  | .imdsNoInstanceRole => "imds bootstrap: no IAM instance role attached to this instance"

inductive ReadError where
  | notFound
  | other (source : String)

/-- How a connection to the metadata service goes, up to all the bytes that it answers with. -/
inductive Exchange where
  | connectFailed (source : String)
  | connectTimedOut
  | ioFailed (source : String)
  | ioTimedOut
  | received (raw : List UInt8)

/-- What a fetch reads: the files, the environment, and the connections in their order. -/
structure Surroundings where
  file : String → Except ReadError (List UInt8)
  env : String → Option (List UInt8)
  network : Nat → Exchange

/-- A part of a fetch, with the requests that have been written; nothing where the code panics. -/
abbrev TokenFetch := ExceptT BootstrapError (StateT (List String) Option)

/-- `tokio::fs::read_to_string` of what a file holds. -/
def readToString (read : Except ReadError (List UInt8)) : Except ReadError String :=
  match read with
  | .error e => .error e
  | .ok content =>
    match Str.fromUtf8 content with
    | none => .error (.other "stream did not contain valid UTF-8")
    | some s => .ok s

def fetchFile (w : Surroundings) (path : String) : TokenFetch String :=
  match readToString (w.file path) with
  | .ok s => if Str.trim s = "" then throw (.fileEmpty path) else pure (Str.trim s)
  | .error .notFound => throw (.fileNotFound path)
  | .error (.other source) => throw (.io path source)

def fetchEnvWithVar (w : Surroundings) (var : String) : TokenFetch String :=
  match w.env var with
  | none => throw (.envUnset var)
  | some value =>
    match Str.fromUtf8 value with
    -- `VarError::NotUnicode`
    | none => throw (.envEmpty var)
    | some s => if s = "" then throw (.envEmpty var) else pure s

/-- `\r\n\r\n`, which ends the header of a response. -/
def headerEnd : List UInt8 := [13, 10, 13, 10]

/-- The status of a response, from its header. -/
def parseStatus (headerBytes : List UInt8) : Option UInt16 := do
  let headerStr ← Str.fromUtf8 headerBytes
  let statusLine ← (Str.lines headerStr).head?
  let word ← (Str.splitWhitespace statusLine)[1]?
  Str.parseU16 word

def parseHttpResponse (endpoint : String) (raw : List UInt8) :
    Option (Except BootstrapError String) :=
  match Search.position headerEnd raw with
  | none => some (.error (.imdsMalformedResponse endpoint))
  | some sep => do
    let headerBytes ← sliceTo raw sep
    let bodyBytes ← sliceFrom raw (sep + 4)
    match parseStatus headerBytes with
    | none => some (.error (.imdsMalformedResponse endpoint))
    | some status =>
      let body := Str.fromUtf8Lossy bodyBytes
      if 200 ≤ status ∧ status < 300 then some (.ok body)
      else some (.error (.imdsHttp endpoint status body))

/-- `http://host[:port]` as host and port. -/
def parseBaseUrl (url : String) : Except BootstrapError (String × UInt16) :=
  match Str.stripPrefix "http://" url with
  | none => .error (.imdsInvalidBaseUrl url)
  | some stripped =>
    let hostAndPort := String.ofList (stripped.toList.takeWhile (· ≠ '/'))
    match Str.rsplitOnce hostAndPort ':' with
    | some (host, portStr) =>
      match Str.parseU16 portStr with
      | none => .error (.imdsInvalidBaseUrl url)
      | some port => if host = "" then .error (.imdsInvalidBaseUrl url) else .ok (host, port)
    | none =>
      if hostAndPort = "" then .error (.imdsInvalidBaseUrl url) else .ok (hostAndPort, 80)

def imdsRoundTrip (w : Surroundings) (baseUrl endpoint request : String) (timeout : Duration) :
    TokenFetch String := do
  let (host, port) ← liftExcept (parseBaseUrl baseUrl)
  let written ← get
  match w.network written.length with
  | .connectFailed source => throw (.imdsConnect (host ++ ":" ++ toString port) source)
  | .connectTimedOut => throw (.imdsTimeout endpoint timeout.asMillis)
  | .ioFailed source =>
    set (written ++ [request])
    throw (.imdsIo source)
  | .ioTimedOut =>
    set (written ++ [request])
    throw (.imdsTimeout endpoint timeout.asMillis)
  | .received raw =>
    set (written ++ [request])
    ExceptT.mk (liftM (parseHttpResponse endpoint raw))

def metadataTokenEndpoint : String := "/latest/api/token"

def metadataTokenRequest : String :=
  "PUT " ++ metadataTokenEndpoint ++ " HTTP/1.1\r\n" ++
  "Host: 169.254.169.254\r\n" ++
  "X-aws-ec2-metadata-token-ttl-seconds: " ++ toString imdsTokenTtlSeconds ++ "\r\n" ++
  "Content-Length: 0\r\n" ++
  "Connection: close\r\n" ++
  "\r\n"

def credentialsEndpoint (role : String) : String :=
  "/latest/meta-data/iam/security-credentials/" ++ role

def getRequest (endpoint metadataToken : String) : String :=
  "GET " ++ endpoint ++ " HTTP/1.1\r\n" ++
  "Host: 169.254.169.254\r\n" ++
  "X-aws-ec2-metadata-token: " ++ metadataToken ++ "\r\n" ++
  "Connection: close\r\n" ++
  "\r\n"

def fetchImdsMetadataToken (w : Surroundings) (baseUrl : String) (timeout : Duration) :
    TokenFetch String := do
  let body ← imdsRoundTrip w baseUrl metadataTokenEndpoint metadataTokenRequest timeout
  if Str.trim body = "" then throw .imdsEmptyToken else pure (Str.trim body)

/-- The first line that is not blank, trimmed. -/
def firstRole (body : String) : String :=
  (((Str.lines body).map Str.trim).find? (· ≠ "")).getD ""

def fetchImdsRoleName (w : Surroundings) (baseUrl metadataToken : String) (timeout : Duration) :
    TokenFetch String := do
  let body ← imdsRoundTrip w baseUrl (credentialsEndpoint "")
    (getRequest (credentialsEndpoint "") metadataToken) timeout
  if firstRole body = "" then throw .imdsNoInstanceRole else pure (firstRole body)

def fetchImdsRoleCredentials (w : Surroundings) (baseUrl metadataToken role : String)
    (timeout : Duration) : TokenFetch String :=
  imdsRoundTrip w baseUrl (credentialsEndpoint role)
    (getRequest (credentialsEndpoint role) metadataToken) timeout

def fetchImdsAt (w : Surroundings) (baseUrl : String) (timeout : Duration) : TokenFetch String := do
  let metadataToken ← fetchImdsMetadataToken w baseUrl timeout
  let role ← fetchImdsRoleName w baseUrl metadataToken timeout
  fetchImdsRoleCredentials w baseUrl metadataToken role timeout

def fetchToken (w : Surroundings) : BootstrapSource → TokenFetch String
  | .file path => fetchFile w path
  | .env => fetchEnvWithVar w bootstrapEnvVar
  | .imds => fetchImdsAt w imdsBaseUrl imdsTimeout

end RemoBroker
