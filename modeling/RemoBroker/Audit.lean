import RemoBroker.RustStd

/-! The audit log, `src/audit.rs`: the events, the bounded channel that producers write to without
blocking, and the writer task that appends one JSON line for each event and keeps the events that
it could not append in a bounded buffer.  The JSON text of an event is a parameter. -/

namespace RemoBroker

def channelCap : Nat := 1000
def degradedBufferCap : Nat := 1000

inductive Decision where
  | allow | deny
deriving DecidableEq

inductive Outcome where
  | ok | notFound | backendError | backendUnreachable
deriving DecidableEq

/-- A secret-fetch attempt.  There is no field for the value. -/
structure FetchEvent where
  timestamp : Int
  project : String
  secretName : String
  decision : Decision
  outcome : Outcome
  peerPid : Option Int
  peerUid : Option UInt32
  latencyMs : UInt32
  backend : Option String
  reason : Option String
deriving DecidableEq

inductive AuditEvent where
  | fetch (event : FetchEvent)
  | manifestInvalid (timestamp : Int) (project manifestPath error : String)
  | socketRecovered (timestamp : Int) (project socketPath : String)
  | shutdown (timestamp : Int) (reason : String) (eventsDropped eventsInDegradedBuffer : UInt64)
deriving DecidableEq

/-- How one `write_event` ends: the whole line is appended, or an error comes after the first
bytes of it, possibly none, were appended. -/
inductive WriteOutcome where
  | ok
  | error (appended : Nat)

/-- The state of the writer task: the bytes of the log file, the degraded buffer from its front,
and the count of events written, a `u64` that no run of fewer than `2 ^ 64` events wraps
(`run_counters_lt`). -/
structure Writer where
  log : List UInt8
  degraded : List AuditEvent
  written : Nat

structure WriterShutdown where
  degradedBufferRemaining : Nat
  eventsWritten : Nat
deriving DecidableEq

section
variable (json : AuditEvent → List UInt8)

def line (e : AuditEvent) : List UInt8 := json e ++ [10]

/-- The bytes that a `write_event` appends.  A failed one appends a proper prefix of the line. -/
def appended (e : AuditEvent) : WriteOutcome → List UInt8
  | .ok => line json e
  | .error k => (line json e).dropLast.take k

/-- The inner loop of the writer: append buffered events from the front until one fails.  The
outcomes are those of the successive `write_event` calls; the ones left over are returned.  Where
no outcome is left the call fails and appends nothing. -/
def drainDegraded : List AuditEvent → List WriteOutcome → List UInt8 → Nat →
    Writer × List WriteOutcome
  | [], outs, log, written => (⟨log, [], written⟩, outs)
  | e :: rest, .ok :: outs, log, written =>
    drainDegraded rest outs (log ++ appended json e .ok) (written + 1)
  | e :: rest, .error k :: outs, log, written =>
    (⟨log ++ appended json e (.error k), e :: rest, written⟩, outs)
  | e :: rest, [], log, written => (⟨log, e :: rest, written⟩, [])

/-- Put an event that could not be written at the back of the buffer, dropping the oldest when the
buffer is full. -/
def pushDegraded (degraded : List AuditEvent) (e : AuditEvent) : List AuditEvent :=
  if degraded.length = degradedBufferCap then degraded.tail ++ [e] else degraded ++ [e]

/-- The body of the writer's outer loop for a received event. -/
def writerIter (w : Writer) (e : AuditEvent) (outs : List WriteOutcome) : Writer :=
  let (w, outs) := drainDegraded json w.degraded outs w.log w.written
  match outs with
  | .ok :: _ => { w with log := w.log ++ appended json e .ok, written := w.written + 1 }
  | .error k :: _ =>
    { w with log := w.log ++ appended json e (.error k), degraded := pushDegraded w.degraded e }
  | [] => { w with degraded := pushDegraded w.degraded e }

/-- `writer_loop` over the events that it receives, each with the outcomes of the writes of its
iteration. -/
def writerLoop (w : Writer) : List (AuditEvent × List WriteOutcome) → Writer
  | [] => w
  | (e, outs) :: rest => writerLoop (writerIter json w e outs) rest

end

def Writer.shutdown (w : Writer) : WriterShutdown := ⟨w.degraded.length, w.written⟩

/-- The channel to the writer, its count of dropped events, an `AtomicU64` with the same bound, and
the writer. -/
structure Audit where
  queue : List AuditEvent
  dropped : Nat
  writer : Writer

/-- `AuditWriter::spawn` on an empty log file. -/
def Audit.spawn : Audit := ⟨[], 0, ⟨[], [], 0⟩⟩

/-- `AuditWriter::record`: `try_send`, which counts the event as dropped when the channel is
full. -/
def Audit.record (a : Audit) (e : AuditEvent) : Audit :=
  if a.queue.length < channelCap then { a with queue := a.queue ++ [e] }
  else { a with dropped := a.dropped + 1 }

/-- One iteration of the writer task, which needs an event in the channel. -/
def Audit.receive (json : AuditEvent → List UInt8) (a : Audit) (outs : List WriteOutcome) :
    Option Audit :=
  match a.queue with
  | [] => none
  | e :: rest => some { a with queue := rest, writer := writerIter json a.writer e outs }

end RemoBroker
