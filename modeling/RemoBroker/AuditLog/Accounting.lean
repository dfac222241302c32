import RemoBroker.AuditLog.Conservation
import RemoBroker.Lib.Machine

/-! The tallies of the audit pipeline.  Producers record events through the bounded channel, the
writer receives them, `shutdown_audit` records the `Shutdown` event, and the writer exits when the
last sender is gone and the channel is empty. -/

namespace RemoBroker

open RetryQueue

/-- The pipeline with the history that the tallies are compared with: the number of `record` calls
and the events that the writer received, with the outcomes of their writes. -/
structure Pipeline where
  audit : Audit
  calls : Nat
  receipts : List Receipt
  /-- What `shutdown_audit` read from `dropped()`, until it records the event. -/
  loaded : Option Nat
  senders : Bool
  exited : Option WriterShutdown

inductive PipelineAction where
  | record (e : AuditEvent)
  | loadDropped
  | emitShutdown (utc : Int)
  | receive (outs : List WriteOutcome)
  | dropSenders
  | exit

def Pipeline.start : Pipeline := ⟨.spawn, 0, [], none, true, none⟩

/-- `AuditWriter::record`, counted. -/
def Pipeline.record (p : Pipeline) (e : AuditEvent) : Pipeline :=
  { p with audit := p.audit.record e, calls := p.calls + 1 }

/-- The event of `shutdown_audit`, after it read `dropped()`. -/
def shutdownEvent (utc : Int) (dropped : Nat) : AuditEvent :=
  .shutdown utc "sigterm" (UInt64.ofNat dropped) 0

/-- A step of the pipeline.  It shows the `Shutdown` event with the state in which it is emitted. -/
def Pipeline.step (json : AuditEvent → List UInt8) :
    Machine.Step Pipeline PipelineAction (Pipeline × AuditEvent)
  | p, .record e => if p.senders then some (p.record e, []) else none
  | p, .loadDropped =>
    if p.senders then some ({ p with loaded := some p.audit.dropped }, []) else none
  | p, .emitShutdown utc =>
    match p.senders, p.loaded with
    | true, some dropped =>
      some ({ p.record (shutdownEvent utc dropped) with loaded := none },
        [(p, shutdownEvent utc dropped)])
    | _, _ => none
  | p, .receive outs =>
    match p.audit.queue with
    | [] => none
    | e :: _ => (p.audit.receive json outs).map fun audit =>
      ({ p with audit, receipts := p.receipts ++ [(e, outs)] }, [])
  | p, .dropSenders => some ({ p with senders := false }, [])
  | p, .exit =>
    if p.senders = false ∧ p.audit.queue = [] then
      some ({ p with exited := some p.audit.writer.shutdown }, [])
    else none

/-- The events lost so far: dropped at the channel or evicted from the degraded buffer. -/
def Pipeline.lost (p : Pipeline) : Nat := p.audit.dropped + (ledger p.receipts).evicted.length

/-- The event reports the losses and the events held in the degraded buffer. -/
def Pipeline.Reports (p : Pipeline) (e : AuditEvent) : Prop :=
  ∃ utc reason dropped held, e = .shutdown utc reason dropped held ∧ dropped.toNat = p.lost ∧
    held.toNat = p.audit.writer.degraded.length

/-- The iteration cannot write its event and finds the buffer full. -/
def evicts (w : Writer) (outs : List WriteOutcome) : Bool :=
  (w.degraded.drop (drained w.degraded.length outs)).length == degradedBufferCap &&
    !(eventOutcome w.degraded.length outs).isOk

/-- No event is evicted, and the `Shutdown` event is recorded while the degraded buffer is empty,
before another event is dropped. -/
def Pipeline.sound (p : Pipeline) : PipelineAction → Bool
  | .receive outs => !evicts p.audit.writer outs
  | .emitShutdown _ => p.audit.writer.degraded.isEmpty && p.loaded == some p.audit.dropped &&
    decide (p.audit.dropped < 2 ^ 64)
  | _ => true

/-- What a step can do. -/
inductive PipelineStep (json : AuditEvent → List UInt8) (p : Pipeline) :
    PipelineAction → Pipeline → List (Pipeline × AuditEvent) → Prop
  | record {e} (senders : p.senders = true) : PipelineStep json p (.record e) (p.record e) []
  | loadDropped : PipelineStep json p .loadDropped { p with loaded := some p.audit.dropped } []
  | emitShutdown {utc dropped} (senders : p.senders = true) (loaded : p.loaded = some dropped) :
      PipelineStep json p (.emitShutdown utc)
        { p.record (shutdownEvent utc dropped) with loaded := none }
        [(p, shutdownEvent utc dropped)]
  | receive {e rest outs} (queue : p.audit.queue = e :: rest) :
      PipelineStep json p (.receive outs)
        { p with
          audit := { p.audit with queue := rest, writer := writerIter json p.audit.writer e outs }
          receipts := p.receipts ++ [(e, outs)] } []
  | dropSenders : PipelineStep json p .dropSenders { p with senders := false } []
  | exit (senders : p.senders = false) (queue : p.audit.queue = []) :
      PipelineStep json p .exit { p with exited := some p.audit.writer.shutdown } []

/-- The writer has handled the received events, every recorded event is accounted for, and the
writer left its tallies at the end. -/
structure Balanced (json : AuditEvent → List UInt8) (p : Pipeline) : Prop where
  writer : p.audit.writer = writerLoop json .start p.receipts
  calls : p.calls = p.receipts.length + p.audit.queue.length + p.audit.dropped
  exited : ∀ tallies, p.exited = some tallies →
    p.senders = false ∧ p.audit.queue = [] ∧ tallies = p.audit.writer.shutdown

section
variable {json : AuditEvent → List UInt8} {p p' : Pipeline} {a : PipelineAction}
  {o tr : List (Pipeline × AuditEvent)} {as : List PipelineAction} {e : AuditEvent}

theorem Pipeline.step_cases (h : p.step json a = some (p', o)) : PipelineStep json p a p' o := by
  cases a with
  | record e =>
    obtain ⟨hsenders, heq⟩ := Option.ite_none_right_eq_some.mp h
    cases heq
    exact .record hsenders
  | loadDropped =>
    obtain ⟨-, heq⟩ := Option.ite_none_right_eq_some.mp h
    cases heq
    exact .loadDropped
  | emitShutdown utc =>
    simp only [Pipeline.step] at h
    split at h
    · rename_i hsenders hloaded
      cases h
      exact .emitShutdown hsenders hloaded
    · cases h
  | receive outs =>
    cases hqueue : p.audit.queue with
    | nil => simp [Pipeline.step, hqueue] at h
    | cons e rest =>
      simp only [Pipeline.step, hqueue, Audit.receive, Option.map_some] at h
      cases h
      exact .receive hqueue
  | dropSenders =>
    cases h
    exact .dropSenders
  | exit =>
    obtain ⟨⟨hsenders, hqueue⟩, heq⟩ := Option.ite_none_right_eq_some.mp h
    cases heq
    exact .exit hsenders hqueue

theorem Balanced.start : Balanced json Pipeline.start :=
  ⟨rfl, rfl, fun _ h => absurd h (Option.some_ne_none _).symm⟩

theorem Audit.record_writer (audit : Audit) (e : AuditEvent) :
    (audit.record e).writer = audit.writer := by
  unfold Audit.record
  split <;> rfl

theorem Audit.record_count (audit : Audit) (e : AuditEvent) :
    (audit.record e).queue.length + (audit.record e).dropped =
      audit.queue.length + audit.dropped + 1 := by
  unfold Audit.record
  split
  · show (audit.queue ++ [e]).length + audit.dropped = _
    rw [List.length_append, List.length_singleton]
    omega
  · show audit.queue.length + (audit.dropped + 1) = _
    omega

theorem Balanced.record (h : Balanced json p) (hsenders : p.senders = true) :
    Balanced json (p.record e) := by
  have hcalls := h.calls
  have hcount := p.audit.record_count e
  refine ⟨(p.audit.record_writer e).trans h.writer, ?_, fun tallies ht => ?_⟩
  · show p.calls + 1 = p.receipts.length + (p.audit.record e).queue.length +
      (p.audit.record e).dropped
    omega
  · cases hsenders.symm.trans (h.exited tallies ht).1

theorem Balanced.step (h : Balanced json p) (hstep : p.step json a = some (p', o)) :
    Balanced json p' := by
  cases Pipeline.step_cases hstep with
  | record hsenders => exact h.record hsenders
  | loadDropped => exact ⟨h.writer, h.calls, h.exited⟩
  | @emitShutdown utc dropped hsenders hloaded =>
    have hrecord := h.record (e := shutdownEvent utc dropped) hsenders
    exact ⟨hrecord.writer, hrecord.calls, hrecord.exited⟩
  | @receive e rest outs hqueue =>
    have hcalls := h.calls
    rw [hqueue, List.length_cons] at hcalls
    refine ⟨?_, ?_, fun tallies ht => ?_⟩
    · rw [writerLoop_concat, ← h.writer]
    · show p.calls = (p.receipts ++ [(e, outs)]).length + rest.length + p.audit.dropped
      rw [List.length_append, List.length_singleton]
      omega
    · have hempty := (h.exited tallies ht).2.1
      rw [hqueue] at hempty
      cases hempty
  | dropSenders => exact ⟨h.writer, h.calls, fun tallies ht => ⟨rfl, (h.exited tallies ht).2⟩⟩
  | exit hsenders hqueue =>
    refine ⟨h.writer, h.calls, fun tallies ht => ?_⟩
    cases ht
    exact ⟨hsenders, hqueue, rfl⟩

theorem Balanced.run (hrun : Machine.exec (Pipeline.step json) .start as = some (p, tr)) :
    Balanced json p :=
  Machine.exec_invariant Balanced.start (fun _ _ _ _ h => h.step) hrun

/-- Every recorded event was written, is in the channel or in the buffer, or was lost. -/
theorem Balanced.total (h : Balanced json p) :
    p.calls = p.audit.writer.written + p.audit.writer.degraded.length + p.audit.queue.length +
      p.lost := by
  have hagrees := writerLoop_agrees json p.receipts
  have hlength := (ledger_accounted p.receipts).length
  rw [← h.writer] at hagrees
  have hnumbered : (numbered p.receipts).length = p.receipts.length := by simp [numbered]
  rw [h.calls, hagrees.written, hagrees.degraded, List.length_map, Pipeline.lost]
  omega

/-- The code counts in `u64`.  Neither counter is above the number of `record` calls, so in a run of
fewer than `2 ^ 64` calls the natural numbers of the model are its values. -/
theorem run_counters_lt (hrun : Machine.exec (Pipeline.step json) .start as = some (p, tr))
    (hcalls : p.calls < 2 ^ 64) :
    p.audit.dropped < 2 ^ 64 ∧ p.audit.writer.written < 2 ^ 64 := by
  have htotal := (Balanced.run hrun).total
  rw [Pipeline.lost] at htotal
  omega

theorem ledger_keeps (h : Balanced json p) {outs : List WriteOutcome}
    (hno : evicts p.audit.writer outs = false) :
    (ledger (p.receipts ++ [(e, outs)])).evicted = (ledger p.receipts).evicted := by
  have hagrees := writerLoop_agrees json p.receipts
  rw [← h.writer] at hagrees
  have hcap : 0 < degradedBufferCap := by decide
  rw [ledger_concat]
  rcases Ledger.iter_evicted (l := ledger p.receipts) hcap with hsame | ⟨hwrote, hfull, -⟩
  · exact hsame
  · rw [evicts, hagrees.degraded, List.length_drop, List.length_map, ← List.length_drop, hfull,
      hwrote] at hno
    cases hno

/-- Nothing was evicted so far, and the events shown report exactly. -/
structure Reported (json : AuditEvent → List UInt8) (tr : List (Pipeline × AuditEvent))
    (p : Pipeline) : Prop where
  balanced : Balanced json p
  evicted : (ledger p.receipts).evicted = []
  exact : ∀ x ∈ tr, x.1.Reports x.2

theorem Reported.step (h : Reported json tr p) (hsound : p.sound a = true)
    (hstep : p.step json a = some (p', o)) : Reported json (tr ++ o) p' := by
  have hbal := h.balanced.step hstep
  cases Pipeline.step_cases hstep with
  | @receive e rest outs hqueue =>
    have hno : evicts p.audit.writer outs = false := by simpa [Pipeline.sound] using hsound
    exact ⟨hbal, (ledger_keeps h.balanced hno).trans h.evicted, by simpa using h.exact⟩
  | @emitShutdown utc dropped hsenders hloaded =>
    simp only [Pipeline.sound, Bool.and_eq_true, List.isEmpty_iff, beq_iff_eq, decide_eq_true_eq,
      hloaded, Option.some.injEq] at hsound
    obtain ⟨⟨hempty, rfl⟩, hlt⟩ := hsound
    refine ⟨hbal, h.evicted, fun x hx => ?_⟩
    rcases List.mem_append.mp hx with hx | hx
    · exact h.exact x hx
    · rw [List.mem_singleton.mp hx]
      refine ⟨utc, "sigterm", _, 0, rfl, ?_, ?_⟩
      · rw [UInt64.toNat_ofNat', Nat.mod_eq_of_lt hlt, Pipeline.lost, h.evicted]
        rfl
      · rw [hempty]
        rfl
  | record => exact ⟨hbal, h.evicted, by simpa using h.exact⟩
  | loadDropped => exact ⟨hbal, h.evicted, by simpa using h.exact⟩
  | dropSenders => exact ⟨hbal, h.evicted, by simpa using h.exact⟩
  | exit => exact ⟨hbal, h.evicted, by simpa using h.exact⟩

/-- In every run in which nothing is evicted and the `Shutdown` event is recorded while the degraded
buffer is empty, the tallies cover every `record` call and the event reports exactly. -/
theorem run_no_silent_loss
    (hsound : Machine.Along (Pipeline.step json) (fun p a => p.sound a = true) .start as)
    (hrun : Machine.exec (Pipeline.step json) .start as = some (p, tr)) :
    (∀ tallies, p.exited = some tallies →
      p.calls = tallies.eventsWritten + tallies.degradedBufferRemaining + p.audit.dropped) ∧
    ∀ x ∈ tr, x.1.Reports x.2 := by
  have h : Reported json tr p :=
    Machine.exec_induction_along ⟨Balanced.start, rfl, fun _ hx => absurd hx List.not_mem_nil⟩
      (fun _ _ _ _ _ h hsound hstep => h.step hsound hstep) hsound hrun
  refine ⟨fun tallies ht => ?_, h.exact⟩
  obtain ⟨-, hqueue, rfl⟩ := h.balanced.exited tallies ht
  have htotal := h.balanced.total
  rw [hqueue, Pipeline.lost, h.evicted] at htotal
  exact htotal

end

/-- An event is recorded and cannot be written, `n` times. -/
def failedRounds (e : AuditEvent) : Nat → List PipelineAction
  | 0 => []
  | n + 1 => .record e :: .receive [] :: failedRounds e n

/-- Nothing was written and nothing is in the channel after `n` recorded events. -/
structure Stalled (n : Nat) (p : Pipeline) : Prop where
  senders : p.senders = true
  calls : p.calls = n
  queue : p.audit.queue = []
  dropped : p.audit.dropped = 0
  written : p.audit.writer.written = 0
  degraded : p.audit.writer.degraded.length = min n degradedBufferCap

theorem writerIter_failed (json : AuditEvent → List UInt8) (w : Writer) (e : AuditEvent) :
    writerIter json w e [] = { w with degraded := pushDegraded w.degraded e } := by
  cases w with
  | mk log degraded written => cases degraded <;> rfl

theorem Stalled.round {n : Nat} {p : Pipeline} (h : Stalled n p)
    (json : AuditEvent → List UInt8) (e : AuditEvent) : ∃ p', Stalled (n + 1) p' ∧ ∀ as,
      Machine.exec (Pipeline.step json) p (.record e :: .receive [] :: as) =
        Machine.exec (Pipeline.step json) p' as := by
  have hrecord : p.audit.record e = { p.audit with queue := [e] } := by
    simp [Audit.record, h.queue, channelCap]
  refine ⟨{ p with
    audit := { p.audit with queue := [], writer := writerIter json p.audit.writer e [] }
    calls := p.calls + 1, receipts := p.receipts ++ [(e, [])] }, ?_, fun as => ?_⟩
  · refine ⟨h.senders, congrArg (· + 1) h.calls, rfl, h.dropped, ?_, ?_⟩
    · rw [writerIter_failed]
      exact h.written
    · have hlength := h.degraded
      have hcap : degradedBufferCap = 1000 := rfl
      rw [writerIter_failed]
      show (pushDegraded p.audit.writer.degraded e).length = _
      unfold pushDegraded
      split
      · rw [List.length_append, List.length_tail, List.length_singleton]
        omega
      · rw [List.length_append, List.length_singleton]
        omega
  · simp [Machine.exec, Pipeline.step, h.senders, Pipeline.record, hrecord, Audit.receive]

theorem Stalled.rounds {n k : Nat} {p : Pipeline} (h : Stalled n p)
    (json : AuditEvent → List UInt8) (e : AuditEvent) : ∃ p', Stalled (n + k) p' ∧ ∀ as,
      Machine.exec (Pipeline.step json) p (failedRounds e k ++ as) =
        Machine.exec (Pipeline.step json) p' as := by
  induction k generalizing n p with
  | zero => exact ⟨p, h, fun _ => rfl⟩
  | succ k ih =>
    obtain ⟨p₁, h₁, heq₁⟩ := h.round json e
    obtain ⟨p₂, h₂, heq₂⟩ := ih h₁
    refine ⟨p₂, by rwa [Nat.add_assoc, Nat.add_comm 1] at h₂, fun as => ?_⟩
    exact (heq₁ _).trans (heq₂ as)

/-- The first event is written with the second, before `shutdown_audit`. -/
def recoveringRun : List PipelineAction :=
  [.record (recovered 0), .receive [.error 0], .record (recovered 1), .receive [.ok, .ok],
    .loadDropped, .emitShutdown 2, .receive [.ok], .dropSenders, .exit]

theorem run_no_silent_loss_recovering : ∃ p tr,
    Machine.exec (Pipeline.step recoveredJson) .start recoveringRun = some (p, tr) ∧
    p.exited = some ⟨0, 3⟩ ∧ p.calls = 3 ∧ tr.map Prod.snd = [shutdownEvent 2 0] ∧
    (∀ tallies, p.exited = some tallies →
      p.calls = tallies.eventsWritten + tallies.degradedBufferRemaining + p.audit.dropped) ∧
    ∀ x ∈ tr, x.1.Reports x.2 := by
  have hfacts : (Machine.exec (Pipeline.step recoveredJson) .start recoveringRun).map (fun r =>
      (r.1.exited, r.1.calls, r.2.map Prod.snd)) = some (some ⟨0, 3⟩, 3, [shutdownEvent 2 0]) := by
    decide +kernel
  obtain ⟨⟨p, tr⟩, hrun, hp⟩ := Option.map_eq_some_iff.mp hfacts
  simp only [Prod.mk.injEq] at hp
  obtain ⟨hexited, hcalls, htr⟩ := hp
  exact ⟨p, tr, hrun, hexited, hcalls, htr,
    run_no_silent_loss (Machine.along_checked (by decide +kernel)) hrun⟩

/-- The file cannot be written from the start on.  One event more than the degraded buffer holds is
recorded before `shutdown_audit`. -/
def stalledRun : List PipelineAction :=
  failedRounds (recovered 0) 1001 ++
    [.loadDropped, .emitShutdown 1, .receive [], .dropSenders, .exit]

/-- In `stalledRun` the tallies miss two `record` calls, and the `Shutdown` event reports no event
in the degraded buffer, which holds 1000. -/
theorem run_silent_loss : ∃ p tr tallies,
    Machine.exec (Pipeline.step recoveredJson) .start stalledRun = some (p, tr) ∧
    p.exited = some tallies ∧ p.calls = 1002 ∧
    tallies.eventsWritten + tallies.degradedBufferRemaining + p.audit.dropped = 1000 ∧
    ∃ x ∈ tr, ¬ x.1.Reports x.2 := by
  have hstart : Stalled 0 .start := ⟨rfl, rfl, rfl, rfl, rfl, rfl⟩
  obtain ⟨p, hp, heq⟩ := hstart.rounds (k := 1001) recoveredJson (recovered 0)
  have hcap : degradedBufferCap = 1000 := rfl
  have hfull : p.audit.writer.degraded.length = 1000 := by
    rw [hp.degraded, hcap]
    rfl
  have hrecord : p.audit.record (shutdownEvent 1 0) =
      { p.audit with queue := [shutdownEvent 1 0] } := by
    simp [Audit.record, hp.queue, channelCap]
  have hrun : Machine.exec (Pipeline.step recoveredJson) .start stalledRun = some ({ p with
      audit := { p.audit with
        queue := []
        writer := writerIter recoveredJson p.audit.writer (shutdownEvent 1 0) [] }
      calls := p.calls + 1
      receipts := p.receipts ++ [(shutdownEvent 1 0, [])]
      loaded := none
      senders := false
      exited := some (writerIter recoveredJson p.audit.writer (shutdownEvent 1 0) []).shutdown },
      [({ p with loaded := some 0 }, shutdownEvent 1 0)]) := by
    rw [stalledRun, heq]
    simp [Machine.exec, Pipeline.step, hp.senders, Pipeline.record, hrecord, Audit.receive,
      hp.dropped]
  refine ⟨_, _, _, hrun, rfl, congrArg (· + 1) hp.calls, ?_, _, List.mem_cons_self, ?_⟩
  · rw [writerIter_failed]
    simp [Writer.shutdown, hp.written, hp.dropped, pushDegraded, hfull, hcap]
  · rintro ⟨utc, reason, dropped, held, hevent, -, hheld⟩
    cases hevent
    have hzero : 0 = p.audit.writer.degraded.length := hheld
    rw [hfull] at hzero
    cases hzero

end RemoBroker
