import Mathlib.Data.List.Infix
import RemoBroker.AuditLog.Writer
import RemoBroker.Lib.Lines

/-! Where the received audit events go when each write either appends its line or appends nothing:
every event is written, buffered or evicted, and the log has the events in the order in which they
were received unless an event was written while older ones stayed in the buffer. -/

namespace RemoBroker

open RetryQueue

/-- A write that fails appends nothing. -/
def WriteOutcome.atomic : WriteOutcome → Bool
  | .ok => true
  | .error k => k == 0

def Receipt.atomic (x : Receipt) : Bool := x.2.all WriteOutcome.atomic

/-- The iteration writes the received event after a write of a buffered event failed. -/
def overtakes (w : Writer) (outs : List WriteOutcome) : Bool :=
  decide (drained w.degraded.length outs < w.degraded.length) &&
    (eventOutcome w.degraded.length outs).isOk

/-- No iteration of the loop writes its event over the events left in the buffer. -/
def neverOvertakes (json : AuditEvent → List UInt8) (w : Writer) : List Receipt → Bool
  | [] => true
  | (e, outs) :: rest => !overtakes w outs && neverOvertakes json (writerIter json w e outs) rest

/-- The contents of the log file, from the empty file on, after each `write_event` call. -/
def logStates (json : AuditEvent → List UInt8) (xs : List Receipt) : List (List UInt8) :=
  (writerCalls json .start xs).inits.map (callBytes json)

/-- Every received event is written, buffered or evicted, the buffer keeps the order in which they
were received, and what is evicted is the front of a full buffer. -/
structure Conserved (json : AuditEvent → List UInt8) (xs : List Receipt) : Prop where
  partition :
    ((ledger xs).written ++ (ledger xs).buffered ++ (ledger xs).evicted).Perm (numbered xs)
  log : (writerLoop json .start xs).log = (ledger xs).written.flatMap fun x => line json x.1
  buffer : (writerLoop json .start xs).degraded = (ledger xs).buffered.map Prod.fst
  inOrder : List.Sublist (ledger xs).buffered (numbered xs)
  bounded : (writerLoop json .start xs).degraded.length ≤ degradedBufferCap
  older : ∀ x ∈ (ledger xs).evicted, ∀ y ∈ (ledger xs).buffered, x.2 < y.2
  full : ∀ pre e outs, pre ++ [(e, outs)] <+: xs →
    (ledger (pre ++ [(e, outs)])).evicted = (ledger pre).evicted ∨
    ∃ left front, left = (ledger pre).buffered.drop (drained (ledger pre).buffered.length outs) ∧
      left.length = degradedBufferCap ∧ left.head? = some front ∧
      (ledger (pre ++ [(e, outs)])).evicted = (ledger pre).evicted ++ [front]
  counter : (writerLoop json .start xs).written = (ledger xs).written.length
  shutdown : (writerLoop json .start xs).shutdown =
    ⟨(writerLoop json .start xs).degraded.length, (writerLoop json .start xs).written⟩

section
variable {json : AuditEvent → List UInt8} {xs : List Receipt}
  {calls : List (AuditEvent × WriteOutcome)}

theorem mem_logStates {log : List UInt8} : log ∈ logStates json xs ↔
    ∃ calls, calls <+: writerCalls json .start xs ∧ log = callBytes json calls := by
  simp only [logStates, List.mem_map, List.mem_inits]
  exact exists_congr fun _ => and_congr_right fun _ => eq_comm

theorem writerLoop_mem_logStates : (writerLoop json .start xs).log ∈ logStates json xs :=
  mem_logStates.mpr ⟨_, List.prefix_rfl, (writerLoop_agrees json xs).log⟩

theorem nextOutcome_atomic {outs : List WriteOutcome} (h : outs.all WriteOutcome.atomic = true) :
    (nextOutcome outs).atomic = true := by
  cases outs with
  | nil => rfl
  | cons out outs => exact (Bool.and_eq_true_iff.mp h).1

theorem attempts_atomic {outs : List WriteOutcome} (h : outs.all WriteOutcome.atomic = true)
    (degraded : List AuditEvent) (e : AuditEvent) :
    ∀ c ∈ attempts degraded e outs, c.2.atomic = true := by
  have htail : ∀ outs : List WriteOutcome, outs.all WriteOutcome.atomic = true →
      outs.tail.all WriteOutcome.atomic = true := by
    intro outs h
    cases outs with
    | nil => rfl
    | cons out outs => exact (Bool.and_eq_true_iff.mp h).2
  induction degraded generalizing outs with
  | nil =>
    intro c hc
    rw [List.mem_singleton.mp hc]
    exact nextOutcome_atomic h
  | cons b degraded ih =>
    have hstop : ∀ c ∈ [(b, nextOutcome outs), (e, nextOutcome outs.tail)],
        c.2.atomic = true := by
      intro c hc
      rcases List.mem_cons.mp hc with rfl | hc
      · exact nextOutcome_atomic h
      · rw [List.mem_singleton.mp hc]
        exact nextOutcome_atomic (htail outs h)
    cases outs with
    | nil => exact hstop
    | cons out outs =>
      cases out with
      | ok =>
        intro c hc
        rcases List.mem_cons.mp hc with rfl | hc
        · rfl
        · exact ih (htail _ h) c hc
      | error k => exact hstop

theorem writerCalls_atomic (json : AuditEvent → List UInt8)
    (h : ∀ x ∈ xs, Receipt.atomic x = true) (w : Writer) :
    ∀ c ∈ writerCalls json w xs, c.2.atomic = true := by
  induction xs generalizing w with
  | nil => exact fun _ hc => absurd hc List.not_mem_nil
  | cons x xs ih =>
    intro c hc
    rcases List.mem_append.mp hc with hc | hc
    · exact attempts_atomic (h x List.mem_cons_self) _ _ c hc
    · exact ih (fun y hy => h y (List.mem_cons_of_mem _ hy)) _ c hc

/-- With atomic writes the log is the lines of the events that were written. -/
theorem callBytes_atomic (h : ∀ c ∈ calls, c.2.atomic = true) :
    callBytes json calls = (succeeded calls).flatMap (line json) := by
  induction calls with
  | nil => rfl
  | cons c calls ih =>
    have hrest := ih fun d hd => h d (List.mem_cons_of_mem _ hd)
    have hc := h c List.mem_cons_self
    obtain ⟨e, out⟩ := c
    cases out with
    | ok =>
      rw [callBytes_cons, hrest]
      rfl
    | error k =>
      have hk : k = 0 := by simpa [WriteOutcome.atomic] using hc
      rw [callBytes_cons, hrest, hk, appended_none, List.nil_append]
      rfl

theorem succeeded_mono {calls' : List (AuditEvent × WriteOutcome)} (h : calls' <+: calls) :
    succeeded calls' <+: succeeded calls :=
  (h.filter _).map _

theorem neverOvertakes_concat {w : Writer} {x : Receipt} : neverOvertakes json w (xs ++ [x]) =
    (neverOvertakes json w xs && !overtakes (writerLoop json w xs) x.2) := by
  induction xs generalizing w with
  | nil => exact Bool.and_comm _ _
  | cons y xs ih =>
    show (_ && neverOvertakes json _ (xs ++ [x])) = _
    rw [ih, ← Bool.and_assoc]
    rfl

theorem ledger_in_order (h : neverOvertakes json .start xs = true) :
    List.Sublist ((ledger xs).written ++ (ledger xs).buffered) (numbered xs) := by
  induction xs using List.reverseRecOn with
  | nil => exact List.Sublist.refl _
  | append_singleton xs x ih =>
    rw [neverOvertakes_concat, Bool.and_eq_true_iff, Bool.not_eq_true'] at h
    obtain ⟨hbefore, hnot⟩ := h
    rw [numbered_concat, ledger_concat]
    refine Ledger.iter_sublist (ih hbefore) fun hwrote => ?_
    have hlength : (writerLoop json .start xs).degraded.length = (ledger xs).buffered.length := by
      rw [(writerLoop_agrees json xs).degraded, List.length_map]
    rw [overtakes, hlength, hwrote, Bool.and_true, decide_eq_false_iff_not, Nat.not_lt] at hnot
    exact List.drop_eq_nil_of_le hnot

theorem numbered_fst : (numbered xs).map Prod.fst = xs.map Prod.fst := by
  simp [numbered]

theorem numbered_pairwise : (numbered xs).Pairwise fun x y => x.2 < y.2 := by
  have hsnd : ((numbered xs).map Prod.snd).Pairwise (· < ·) := by
    rw [numbered, List.zipIdx_map_snd]
    exact List.pairwise_lt_range'
  exact List.pairwise_map.mp hsnd

theorem ledger_older {x y : AuditEvent × Nat} (hx : x ∈ (ledger xs).evicted)
    (hy : y ∈ (ledger xs).buffered) : x.2 < y.2 := by
  have hpair := numbered_pairwise.sublist (ledger_accounted xs).inOrder
  exact (List.pairwise_append.mp hpair).2.2 x hx y hy

/-- In every run in which each write is atomic and no event is written over the events left in the
buffer, the log has received events in the order in which they were received, at any time. -/
theorem writerLoop_in_order (json : AuditEvent → List UInt8) (xs : List Receipt)
    (hatomic : ∀ x ∈ xs, Receipt.atomic x = true)
    (hdrained : neverOvertakes json .start xs = true) :
    (writerLoop json .start xs).log ∈ logStates json xs ∧
    ∀ log ∈ logStates json xs, ∃ es, List.Sublist es (xs.map Prod.fst) ∧
      log = es.flatMap (line json) := by
  refine ⟨writerLoop_mem_logStates, fun log hlog => ?_⟩
  obtain ⟨calls, hcalls, rfl⟩ := mem_logStates.mp hlog
  have hall := writerCalls_atomic json hatomic .start
  refine ⟨succeeded calls, ?_, callBytes_atomic fun c hc => hall c (hcalls.subset hc)⟩
  have hwritten : List.Sublist ((ledger xs).written.map Prod.fst) (xs.map Prod.fst) := by
    rw [← numbered_fst]
    exact ((List.sublist_append_left _ _).trans (ledger_in_order hdrained)).map Prod.fst
  rw [← (writerLoop_agrees json xs).succeeded] at hwritten
  exact (succeeded_mono hcalls).sublist.trans hwritten

/-- With atomic writes, under any pattern of failures, the writer loses no event but those that it
evicts, and writes none twice. -/
theorem writerLoop_conserved (json : AuditEvent → List UInt8) (xs : List Receipt)
    (hatomic : ∀ x ∈ xs, Receipt.atomic x = true) : Conserved json xs := by
  have hagrees := writerLoop_agrees json xs
  have haccounted := ledger_accounted xs
  constructor
  · exact haccounted.perm
  · rw [hagrees.log, callBytes_atomic (writerCalls_atomic json hatomic .start), hagrees.succeeded,
      List.flatMap_map]
  · exact hagrees.degraded
  · exact (List.sublist_append_right _ _).trans haccounted.inOrder
  · rw [hagrees.degraded, List.length_map]
    exact haccounted.bounded
  · exact fun x hx y hy => ledger_older hx hy
  · intro pre e outs _
    have hcap : 0 < degradedBufferCap := by decide
    rw [ledger_concat]
    rcases Ledger.iter_evicted (l := ledger pre) hcap with hsame | ⟨-, hfull, front, hfront, hev⟩
    · exact .inl hsame
    · exact .inr ⟨_, front, rfl, hfull, hfront, hev⟩
  · exact hagrees.written
  · rfl

theorem split_log {es : List AuditEvent} (hnl : ∀ e ∈ es, 10 ∉ json e) :
    Lines.split 10 (es.flatMap (line json)) = (es.map json, []) :=
  Lines.split_lines hnl

end

/-- The recovery of the socket of a project, with its time. -/
def recovered (t : Int) : AuditEvent := .socketRecovered t "web" "/run/remo-broker/web.sock"

/-- The JSON text of a `socket.recovered` event in the first ten seconds of 1970. -/
def recoveredJson : AuditEvent → List UInt8
  | .socketRecovered t project path =>
    bytes ("\x7b\"event\":\"socket.recovered\",\"timestamp\":\"1970-01-01T00:00:0" ++ toString t ++
      "Z\",\"project\":\"" ++ project ++ "\",\"socket_path\":\"" ++ path ++ "\"\x7d")
  | _ => []

/-- The file cannot be written while two events arrive, and is drained with the third. -/
def drainedEvents : List Receipt :=
  [(recovered 0, [.error 0]), (recovered 1, [.error 0, .error 0]), (recovered 2, [.ok, .ok, .ok])]

theorem writerLoop_in_order_drained : (writerLoop recoveredJson .start drainedEvents).written = 3 ∧
    (writerLoop recoveredJson .start drainedEvents).log ∈ logStates recoveredJson drainedEvents ∧
    ∀ log ∈ logStates recoveredJson drainedEvents,
      ∃ es, List.Sublist es [recovered 0, recovered 1, recovered 2] ∧
        log = es.flatMap (line recoveredJson) :=
  ⟨by decide, writerLoop_in_order recoveredJson drainedEvents (by decide) (by decide)⟩

/-- The first event fails to be written, fails again when the second one is written, and is written
with the third. -/
def overtakenEvents : List Receipt :=
  [(recovered 0, [.error 0]), (recovered 1, [.error 0, .ok]), (recovered 2, [.ok, .ok])]

/-- The log of `overtakenEvents` has the second event before the first. -/
theorem writerLoop_out_of_order : (∀ x ∈ overtakenEvents, Receipt.atomic x = true) ∧
    ¬ ∃ es, List.Sublist es (overtakenEvents.map Prod.fst) ∧
      (writerLoop recoveredJson .start overtakenEvents).log = es.flatMap (line recoveredJson) := by
  refine ⟨by decide, ?_⟩
  rintro ⟨es, hsub, hlog⟩
  have hnl : ∀ e ∈ overtakenEvents.map Prod.fst, 10 ∉ recoveredJson e := by decide +kernel
  have hwritten : (writerLoop recoveredJson .start overtakenEvents).log =
      [recovered 1, recovered 0, recovered 2].flatMap (line recoveredJson) := by
    rw [(writerLoop_agrees recoveredJson overtakenEvents).log]
    exact callBytes_atomic (writerCalls_atomic recoveredJson (by decide) .start)
  have hsplit := congrArg (Lines.split 10) (hwritten.symm.trans hlog)
  rw [split_log (by decide +kernel), split_log fun e he => hnl e (hsub.subset he)] at hsplit
  obtain ⟨hmap, -⟩ := Prod.mk.inj hsplit
  have hes : es = overtakenEvents.map Prod.fst := by
    refine hsub.eq_of_length ?_
    have hlength := congrArg List.length hmap
    rw [List.length_map, List.length_map] at hlength
    exact hlength.symm
  rw [hes] at hmap
  revert hmap
  decide +kernel

theorem writerLoop_conserved_overtaken :
    (ledger overtakenEvents).written.map Prod.snd = [1, 0, 2] ∧
    (writerLoop recoveredJson .start overtakenEvents).shutdown = ⟨0, 3⟩ ∧
    Conserved recoveredJson overtakenEvents :=
  ⟨by decide, by decide, writerLoop_conserved recoveredJson overtakenEvents (by decide)⟩

end RemoBroker
