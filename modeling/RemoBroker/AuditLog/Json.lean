import RemoBroker.Audit
import RemoBroker.Wire

/-! What `serde_json::to_string` makes of an audit event, as bytes.  The RFC 3339 text of an instant
is a parameter. -/

namespace RemoBroker

/-- `time::serde::rfc3339`: different instants have different texts. -/
structure Rfc3339 where
  format : Int → String
  injective : Function.Injective format

def Decision.wire : Decision → String
  | .allow => "allow"
  | .deny => "deny"

def Outcome.wire : Outcome → String
  | .ok => "ok"
  | .notFound => "not_found"
  | .backendError => "backend_error"
  | .backendUnreachable => "backend_unreachable"

def integerField (name : String) (value : Int) : Field := (bytes name, Json.integer value)

section
variable (stamp : Rfc3339)

def FetchEvent.jsonFields (e : FetchEvent) : List Field :=
  [textField "timestamp" (stamp.format e.timestamp), textField "project" e.project,
    textField "secret_name" e.secretName, textField "decision" e.decision.wire,
    textField "outcome" e.outcome.wire] ++ optionField (integerField "peer_pid") e.peerPid ++
  optionField (fun u : UInt32 => numberField "peer_uid" u.toNat) e.peerUid ++
  [numberField "latency_ms" e.latencyMs.toNat] ++ optionField (textField "backend") e.backend ++
  optionField (textField "reason") e.reason

/-- The tag and the fields of an event, `#[serde(tag = "event")]`. -/
def AuditEvent.jsonFields : AuditEvent → List Field
  | .fetch e => textField "event" "fetch" :: e.jsonFields stamp
  | .manifestInvalid timestamp project manifestPath error =>
    [textField "event" "manifest.invalid", textField "timestamp" (stamp.format timestamp),
      textField "project" project, textField "manifest_path" manifestPath,
      textField "error" error]
  | .socketRecovered timestamp project socketPath =>
    [textField "event" "socket.recovered", textField "timestamp" (stamp.format timestamp),
      textField "project" project, textField "socket_path" socketPath]
  | .shutdown timestamp reason eventsDropped eventsInDegradedBuffer =>
    [textField "event" "shutdown", textField "timestamp" (stamp.format timestamp),
      textField "reason" reason, numberField "events_dropped" eventsDropped.toNat,
      numberField "events_in_degraded_buffer" eventsInDegradedBuffer.toNat]

def AuditEvent.toJson (e : AuditEvent) : List UInt8 := Json.object (e.jsonFields stamp)

end

/-- RFC 3339 texts, with the instant in nanoseconds: of the epoch and of the last instant before it
as the standard has them, of any other one a sign and a stroke for each nanosecond. -/
def epochText (t : Int) : String :=
  if t = 0 then "1970-01-01T00:00:00Z"
  else if t = -1 then "1969-12-31T23:59:59.999999999Z"
  else String.ofList ((if t < 0 then ['-'] else []) ++ List.replicate t.natAbs 'I')

theorem epochText_injective : Function.Injective epochText := by
  have hstrokes : ∀ t, (epochText t).toList.count 'I' = if t = 0 ∨ t = -1 then 0 else t.natAbs := by
    intro t
    unfold epochText
    split_ifs <;> simp_all
  have hsigns : ∀ t, (epochText t).toList.count '-' =
      if t = 0 ∨ t = -1 then 2 else if t < 0 then 1 else 0 := by
    intro t
    unfold epochText
    split_ifs <;> simp_all [List.count_replicate]
  intro a b h
  have hcount := hstrokes a
  have hsign := hsigns a
  rw [h, hstrokes b] at hcount
  rw [h, hsigns b] at hsign
  by_cases hepoch : (a = 0 ∨ a = -1) ∧ (b = 0 ∨ b = -1)
  · obtain ⟨rfl | rfl, rfl | rfl⟩ := hepoch
    · rfl
    · exact absurd h (by decide)
    · exact absurd h (by decide)
    · rfl
  · split_ifs at hcount hsign <;> omega

def epochStamp : Rfc3339 := ⟨epochText, epochText_injective⟩

end RemoBroker
