import RemoBroker.Lib.Json
import RemoBroker.Proto

/-! What `serde_json::to_string` makes of the responses of the two sockets, as bytes.  The fields
stand in the order of the structs, under the names that the `serde` attributes give them. -/

namespace RemoBroker

def ProjectErrorCode.wire : ProjectErrorCode → String
  | .denied => "denied"
  | .notFound => "not_found"
  | .backendError => "backend_error"
  | .backendUnreachable => "backend_unreachable"
  | .rateLimited => "rate_limited"
  | .protocolError => "protocol_error"
  | .internalError => "internal_error"
  | .peerUnexpected => "peer_unexpected"

def AdminErrorCode.wire : AdminErrorCode → String
  | .manifestInvalid => "manifest_invalid"
  | .manifestNotFound => "manifest_not_found"
  | .projectUnknown => "project_unknown"
  | .projectExists => "project_exists"
  | .bootstrapError => "bootstrap_error"
  | .protocolError => "protocol_error"
  | .internalError => "internal_error"

def BootstrapMode.wire : BootstrapMode → String
  | .file => "file"
  | .imds => "imds"
  | .env => "env"

/-- A field of an object, by its name. -/
abbrev Field := List UInt8 × List UInt8

def textField (name value : String) : Field := (bytes name, Json.string (bytes value))

def numberField (name : String) (value : Nat) : Field := (bytes name, Json.number value)

def okField (ok : Bool) : Field := (bytes "ok", Json.bool ok)

def textsField (name : String) (values : List String) : Field :=
  (bytes name, Json.array (values.map fun v => Json.string (bytes v)))

/-- An `Option` field with `skip_serializing_if = "Option::is_none"`. -/
def optionField {α : Type} (field : α → Field) (value : Option α) : List Field :=
  value.toList.map field

def ErrorResponse.toJson {Code : Type} (wire : Code → String) (e : ErrorResponse Code) :
    List UInt8 :=
  Json.object ([okField false, textField "code" (wire e.code), textField "message" e.message] ++
    optionField (fun s : UInt32 => numberField "retry_after_seconds" s.toNat) e.retryAfterSeconds)

def GetResponse.toJson (g : GetResponse) : List UInt8 :=
  Json.object ([okField true] ++ optionField (textField "value") g.value ++
    optionField (textField "value_b64") g.valueB64 ++
    [numberField "ttl_seconds" g.ttlSeconds.toNat])

def ProjectResponse.toJson : ProjectResponse → List UInt8
  | .get response => response.toJson
  | .ping brokerVersion protocolVersion project =>
    Json.object [okField true, textField "broker_version" brokerVersion,
      numberField "protocol_version" protocolVersion.toNat, textField "project" project]
  | .info project allowlist schemaVersion =>
    Json.object [okField true, textField "project" project, textsField "allowlist" allowlist,
      numberField "schema_version" schemaVersion.toNat]
  | .error e => e.toJson ProjectErrorCode.wire

def ProjectStatus.toJson (p : ProjectStatus) : List UInt8 :=
  Json.object [textField "name" p.name, textField "socket_path" p.socketPath,
    numberField "allowlist_size" p.allowlistSize.toNat,
    numberField "cache_entries" p.cacheEntries.toNat]

def StatusResponse.toJson (r : StatusResponse) : List UInt8 :=
  Json.object [okField true, textField "broker_version" r.brokerVersion,
    numberField "protocol_version" r.protocolVersion.toNat,
    numberField "uptime_seconds" r.uptimeSeconds.toNat,
    textField "bootstrap_mode" r.bootstrapMode.wire,
    (bytes "projects", Json.array (r.projects.map ProjectStatus.toJson))]

def AdminResponse.toJson : AdminResponse → List UInt8
  | .registered socketPath => Json.object [okField true, textField "socket_path" socketPath]
  | .ok => Json.object [okField true]
  | .reloaded allowlist => Json.object [okField true, textsField "allowlist" allowlist]
  | .status response => response.toJson
  | .rotated => Json.object [okField true, textField "backend_auth" "ok"]
  | .error e => e.toJson AdminErrorCode.wire

@[simp] theorem textField_inline {name value : String} : Json.newline ∉ (textField name value).2 :=
  Json.string_inline

@[simp] theorem numberField_inline {name : String} {value : Nat} :
    Json.newline ∉ (numberField name value).2 :=
  Json.number_inline

@[simp] theorem okField_inline {ok : Bool} : Json.newline ∉ (okField ok).2 := Json.bool_inline ok

@[simp] theorem textsField_inline {name : String} {values : List String} :
    Json.newline ∉ (textsField name values).2 := by
  apply Json.array_inline
  intro item hitem
  obtain ⟨v, _, rfl⟩ := List.mem_map.mp hitem
  exact Json.string_inline

theorem optionField_inline {α : Type} {field : α → Field} {value : Option α}
    (h : ∀ v, Json.newline ∉ (field v).2) : ∀ f ∈ optionField field value, Json.newline ∉ f.2 := by
  intro f hf
  obtain ⟨v, _, rfl⟩ := List.mem_map.mp hf
  exact h v

theorem ErrorResponse.toJson_inline {Code : Type} {wire : Code → String} {e : ErrorResponse Code} :
    Json.newline ∉ e.toJson wire := by
  apply Json.object_inline
  intro f hf
  rcases List.mem_append.mp hf with hf | hf
  · simp only [List.mem_cons, List.not_mem_nil, or_false] at hf
    rcases hf with rfl | rfl | rfl <;> simp
  · exact optionField_inline (fun _ => numberField_inline) f hf

theorem GetResponse.toJson_inline {g : GetResponse} : Json.newline ∉ g.toJson := by
  apply Json.object_inline
  intro f hf
  simp only [List.mem_append, List.mem_singleton, or_assoc] at hf
  rcases hf with rfl | hf | hf | rfl
  · simp
  · exact optionField_inline (fun _ => textField_inline) f hf
  · exact optionField_inline (fun _ => textField_inline) f hf
  · simp

/-- A response is one line. -/
theorem ProjectResponse.toJson_inline {r : ProjectResponse} : Json.newline ∉ r.toJson := by
  cases r with
  | get response => exact GetResponse.toJson_inline
  | ping brokerVersion protocolVersion project => exact Json.object_inline (by simp)
  | info project allowlist schemaVersion => exact Json.object_inline (by simp)
  | error e => exact ErrorResponse.toJson_inline

/-- A line break in a secret is escaped. -/
example : Json.newline ∉ (ProjectResponse.get (GetResponse.utf8 "a\nb" 542)).toJson := by
  decide +kernel

theorem StatusResponse.toJson_inline {r : StatusResponse} : Json.newline ∉ r.toJson := by
  have hprojects : Json.newline ∉ Json.array (r.projects.map ProjectStatus.toJson) := by
    apply Json.array_inline
    intro item hitem
    obtain ⟨p, _, rfl⟩ := List.mem_map.mp hitem
    exact Json.object_inline (by simp)
  exact Json.object_inline (by simp [hprojects])

theorem AdminResponse.toJson_inline {r : AdminResponse} : Json.newline ∉ r.toJson := by
  cases r with
  | registered socketPath => exact Json.object_inline (by simp)
  | ok => exact Json.object_inline (by simp)
  | reloaded allowlist => exact Json.object_inline (by simp)
  | status response => exact StatusResponse.toJson_inline
  | rotated => exact Json.object_inline (by simp)
  | error e => exact ErrorResponse.toJson_inline

end RemoBroker
