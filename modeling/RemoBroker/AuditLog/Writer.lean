import Mathlib.Data.List.Induction
import RemoBroker.Audit
import RemoBroker.Lib.RetryQueue

/-! The audit writer over whole sequences of received events, under any pattern of write failures.
The ledger numbers the received events in the order in which they came and says where each one
went; `writerCalls` lists the `write_event` calls that were made, from which the bytes of the log
file follow. -/

namespace RemoBroker

open RetryQueue

def WriteOutcome.isOk : WriteOutcome → Bool
  | .ok => true
  | .error _ => false

/-- How the next write ends.  Where no outcome is left it fails and appends nothing. -/
def nextOutcome (outs : List WriteOutcome) : WriteOutcome := outs.headD (.error 0)

/-- The number of buffered events that the inner loop writes from a buffer of the given length. -/
def drained : Nat → List WriteOutcome → Nat
  | n + 1, .ok :: outs => drained n outs + 1
  | _, _ => 0

/-- How the write of the received event ends, after the inner loop on a buffer of the given
length. -/
def eventOutcome : Nat → List WriteOutcome → WriteOutcome
  | 0, outs => nextOutcome outs
  | n + 1, .ok :: outs => eventOutcome n outs
  | _ + 1, outs => nextOutcome outs.tail

/-- The `write_event` calls of one iteration, in order, with their outcomes. -/
def attempts : List AuditEvent → AuditEvent → List WriteOutcome → List (AuditEvent × WriteOutcome)
  | [], e, outs => [(e, nextOutcome outs)]
  | b :: degraded, e, .ok :: outs => (b, .ok) :: attempts degraded e outs
  | b :: _, e, outs => [(b, nextOutcome outs), (e, nextOutcome outs.tail)]

/-- The bytes that a sequence of `write_event` calls appends. -/
def callBytes (json : AuditEvent → List UInt8) (calls : List (AuditEvent × WriteOutcome)) :
    List UInt8 :=
  calls.flatMap fun c => appended json c.1 c.2

/-- The events whose write succeeded. -/
def succeeded (calls : List (AuditEvent × WriteOutcome)) : List AuditEvent :=
  (calls.filter fun c => c.2.isOk).map Prod.fst

def Writer.start : Writer := ⟨[], [], 0⟩

/-- A received event with the outcomes of the writes of its iteration. -/
abbrev Receipt := AuditEvent × List WriteOutcome

def writerCalls (json : AuditEvent → List UInt8) (w : Writer) :
    List Receipt → List (AuditEvent × WriteOutcome)
  | [] => []
  | (e, outs) :: rest =>
    attempts w.degraded e outs ++ writerCalls json (writerIter json w e outs) rest

/-- The received events, each with its number. -/
def numbered (xs : List Receipt) : List (AuditEvent × Nat) := (xs.map Prod.fst).zipIdx

def ledgerIter {α : Type} (l : Ledger α) (x : α) (outs : List WriteOutcome) : Ledger α :=
  l.iter degradedBufferCap x (drained l.buffered.length outs)
    (eventOutcome l.buffered.length outs).isOk

/-- Where the numbered events went. -/
def ledger (xs : List Receipt) : Ledger (AuditEvent × Nat) :=
  xs.zipIdx.foldl (fun l x => ledgerIter l (x.1.1, x.2) x.1.2) .empty

section
variable {json : AuditEvent → List UInt8} {w : Writer} {e : AuditEvent} {outs : List WriteOutcome}
  {xs : List Receipt} {x : Receipt}

@[simp] theorem callBytes_nil : callBytes json [] = [] := rfl

@[simp] theorem callBytes_cons {c : AuditEvent × WriteOutcome}
    {calls : List (AuditEvent × WriteOutcome)} :
    callBytes json (c :: calls) = appended json c.1 c.2 ++ callBytes json calls := rfl

@[simp] theorem callBytes_append {cs ds : List (AuditEvent × WriteOutcome)} :
    callBytes json (cs ++ ds) = callBytes json cs ++ callBytes json ds := by
  simp [callBytes]

@[simp] theorem succeeded_append {cs ds : List (AuditEvent × WriteOutcome)} :
    succeeded (cs ++ ds) = succeeded cs ++ succeeded ds := by
  simp [succeeded]

@[simp] theorem appended_none : appended json e (.error 0) = [] := by
  simp [appended]

/-- The inner loop writes the first `drained` events of the buffer, and leaves the outcome of the
write of the received event next. -/
theorem drainDegraded_spec (json : AuditEvent → List UInt8) (e : AuditEvent)
    (degraded : List AuditEvent) (outs : List WriteOutcome) (log : List UInt8) (written : Nat) :
    ∃ log' rest, drainDegraded json degraded outs log written =
        (⟨log', degraded.drop (drained degraded.length outs),
          written + drained degraded.length outs⟩, rest) ∧
      nextOutcome rest = eventOutcome degraded.length outs ∧
      log' ++ appended json e (nextOutcome rest) =
        log ++ callBytes json (attempts degraded e outs) := by
  induction degraded generalizing outs log written with
  | nil => exact ⟨log, outs, rfl, rfl, by simp [attempts]⟩
  | cons b degraded ih =>
    cases outs with
    | nil => exact ⟨log, [], rfl, rfl, by simp [attempts, nextOutcome]⟩
    | cons out outs =>
      cases out with
      | ok =>
        obtain ⟨log', rest, heq, hnext, hlog⟩ := ih outs (log ++ appended json b .ok) (written + 1)
        refine ⟨log', rest, ?_, hnext, ?_⟩
        · simp only [drainDegraded, heq, List.length_cons, drained, List.drop_succ_cons]
          rw [Nat.add_assoc, Nat.add_comm 1]
        · rw [hlog]
          simp [attempts]
      | error k =>
        exact ⟨log ++ appended json b (.error k), outs, rfl, rfl,
          by simp [attempts, nextOutcome]⟩

theorem writerIter_spec : writerIter json w e outs =
    { log := w.log ++ callBytes json (attempts w.degraded e outs)
      degraded :=
        if (eventOutcome w.degraded.length outs).isOk then
          w.degraded.drop (drained w.degraded.length outs)
        else pushDegraded (w.degraded.drop (drained w.degraded.length outs)) e
      written := w.written + drained w.degraded.length outs +
        if (eventOutcome w.degraded.length outs).isOk then 1 else 0 } := by
  obtain ⟨log', rest, heq, hnext, hlog⟩ :=
    drainDegraded_spec json e w.degraded outs w.log w.written
  rw [← hlog, ← hnext]
  cases rest with
  | nil => simp [writerIter, heq, nextOutcome, WriteOutcome.isOk]
  | cons out rest =>
    cases out with
    | ok => simp [writerIter, heq, nextOutcome, WriteOutcome.isOk]
    | error k => simp [writerIter, heq, nextOutcome, WriteOutcome.isOk]

theorem drained_le (n : Nat) (outs : List WriteOutcome) : drained n outs ≤ n := by
  induction n generalizing outs with
  | zero => cases outs <;> exact Nat.le_refl 0
  | succ n ih =>
    cases outs with
    | nil => exact Nat.zero_le _
    | cons out outs =>
      cases out with
      | ok => exact Nat.succ_le_succ (ih outs)
      | error k => exact Nat.zero_le _

theorem succeeded_attempts (degraded : List AuditEvent) (e : AuditEvent)
    (outs : List WriteOutcome) :
    succeeded (attempts degraded e outs) = degraded.take (drained degraded.length outs) ++
      if (eventOutcome degraded.length outs).isOk then [e] else [] := by
  have hlast : ∀ out : WriteOutcome, succeeded [(e, out)] = if out.isOk then [e] else [] := by
    intro out
    cases out <;> rfl
  induction degraded generalizing outs with
  | nil => exact hlast _
  | cons b degraded ih =>
    cases outs with
    | nil => rfl
    | cons out outs =>
      cases out with
      | ok =>
        show b :: succeeded (attempts degraded e outs) = _
        rw [ih]
        rfl
      | error k =>
        show succeeded [(e, nextOutcome outs)] = _
        rw [hlast]
        rfl

theorem writerLoop_append {ys : List Receipt} :
    writerLoop json w (xs ++ ys) = writerLoop json (writerLoop json w xs) ys := by
  induction xs generalizing w with
  | nil => rfl
  | cons x xs ih => exact ih

theorem writerLoop_concat : writerLoop json w (xs ++ [x]) =
    writerIter json (writerLoop json w xs) x.1 x.2 :=
  writerLoop_append

theorem writerCalls_append {ys : List Receipt} : writerCalls json w (xs ++ ys) =
    writerCalls json w xs ++ writerCalls json (writerLoop json w xs) ys := by
  induction xs generalizing w with
  | nil => rfl
  | cons x xs ih =>
    show attempts _ _ _ ++ writerCalls json _ (xs ++ ys) = _
    rw [ih, ← List.append_assoc]
    rfl

theorem writerCalls_concat : writerCalls json w (xs ++ [x]) =
    writerCalls json w xs ++ attempts (writerLoop json w xs).degraded x.1 x.2 := by
  rw [writerCalls_append]
  exact congrArg _ (List.append_nil _)

theorem numbered_concat : numbered (xs ++ [x]) = numbered xs ++ [(x.1, xs.length)] := by
  simp [numbered, List.zipIdx_append]

theorem ledger_concat :
    ledger (xs ++ [x]) = ledgerIter (ledger xs) (x.1, xs.length) x.2 := by
  simp [ledger, List.zipIdx_append]

/-- The writer, the calls that it made and the ledger tell the same. -/
structure Agrees (json : AuditEvent → List UInt8) (w : Writer)
    (calls : List (AuditEvent × WriteOutcome)) (l : Ledger (AuditEvent × Nat)) : Prop where
  log : w.log = callBytes json calls
  degraded : w.degraded = l.buffered.map Prod.fst
  written : w.written = l.written.length
  succeeded : succeeded calls = l.written.map Prod.fst

theorem Agrees.iter {calls : List (AuditEvent × WriteOutcome)} {l : Ledger (AuditEvent × Nat)}
    (h : Agrees json w calls l) (n : Nat) :
    Agrees json (writerIter json w e outs) (calls ++ attempts w.degraded e outs)
      (ledgerIter l (e, n) outs) := by
  have hlength : w.degraded.length = l.buffered.length := by rw [h.degraded, List.length_map]
  have hdrop : ∀ k, w.degraded.drop k = (l.buffered.drop k).map Prod.fst := by
    intro k
    rw [h.degraded, List.map_drop]
  have htake : ∀ k, w.degraded.take k = (l.buffered.take k).map Prod.fst := by
    intro k
    rw [h.degraded, List.map_take]
  have hdrained := List.length_take_of_le (drained_le l.buffered.length outs)
  rw [writerIter_spec, ledgerIter, Ledger.iter]
  constructor
  · rw [callBytes_append, h.log]
  · rw [hlength, hdrop]
    cases (eventOutcome l.buffered.length outs).isOk with
    | true => rfl
    | false =>
      simp only [Bool.false_eq_true, if_false, pushDegraded, List.length_map]
      split <;> simp
  · rw [hlength, h.written]
    cases (eventOutcome l.buffered.length outs).isOk with
    | true => simp [hdrained, Nat.add_assoc]
    | false =>
      simp only [Bool.false_eq_true, if_false]
      split <;> simp [hdrained]
  · rw [succeeded_append, succeeded_attempts, hlength, htake, h.succeeded]
    cases (eventOutcome l.buffered.length outs).isOk with
    | true => simp
    | false =>
      simp only [Bool.false_eq_true, if_false]
      split <;> simp

theorem writerLoop_agrees (json : AuditEvent → List UInt8) (xs : List Receipt) :
    Agrees json (writerLoop json .start xs) (writerCalls json .start xs) (ledger xs) := by
  induction xs using List.reverseRecOn with
  | nil => exact ⟨rfl, rfl, rfl, rfl⟩
  | append_singleton xs x ih =>
    rw [writerLoop_concat, writerCalls_concat, ledger_concat]
    exact ih.iter xs.length

theorem ledger_accounted (xs : List Receipt) :
    Accounted degradedBufferCap (numbered xs) (ledger xs) := by
  induction xs using List.reverseRecOn with
  | nil => exact accounted_empty
  | append_singleton xs x ih =>
    rw [numbered_concat, ledger_concat]
    exact ih.iter (by decide)

end

end RemoBroker
