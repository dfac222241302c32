import Mathlib.Data.List.Perm.Subperm
import RemoBroker.AuditLog.Conservation

/-! The audit log as a JSONL file when a write can fail after a part of its line was appended.  The
part stays in the file, and the next write that succeeds appends its line to it. -/

namespace RemoBroker

open RetryQueue

/-- A call that failed after a part of its line was appended. -/
def torn (json : AuditEvent → List UInt8) (c : AuditEvent × WriteOutcome) : Bool :=
  !c.2.isOk && appended json c.1 c.2 != []

/-- No write succeeds after one that failed part way. -/
def NoWriteAfterTorn (json : AuditEvent → List UInt8) (calls : List (AuditEvent × WriteOutcome)) :
    Prop :=
  calls.Pairwise fun c d => torn json c = true → d.2.isOk = false

instance {json : AuditEvent → List UInt8} {calls : List (AuditEvent × WriteOutcome)} :
    Decidable (NoWriteAfterTorn json calls) :=
  inferInstanceAs (Decidable (calls.Pairwise _))

/-- Every line that a newline ends is the text of a received event, of each one at most once. -/
def Jsonl (json : AuditEvent → List UInt8) (received : List AuditEvent) (log : List UInt8) : Prop :=
  ∃ es, List.Subperm es received ∧ Lines.complete 10 log = es.map json

section
variable {json : AuditEvent → List UInt8} {calls : List (AuditEvent × WriteOutcome)}
  {e : AuditEvent} {c : AuditEvent × WriteOutcome}

theorem appended_error_text (hnl : ∀ e, 10 ∉ json e) (k : Nat) :
    10 ∉ appended json e (.error k) := by
  have hline : (line json e).dropLast = json e := List.dropLast_concat
  rw [appended, hline]
  exact fun hmem => hnl e (List.mem_of_mem_take hmem)

theorem callBytes_concat : callBytes json (calls ++ [c]) =
    callBytes json calls ++ appended json c.1 c.2 := by
  rw [callBytes_append, callBytes_cons, callBytes_nil, List.append_nil]

theorem complete_concat (hnl : ∀ e, 10 ∉ json e) :
    Lines.complete 10 (callBytes json (calls ++ [c])) = Lines.complete 10 (callBytes json calls) ++
      if c.2.isOk then [Lines.rest 10 (callBytes json calls) ++ json c.1] else [] := by
  obtain ⟨e, out⟩ := c
  rw [callBytes_concat]
  cases out with
  | ok => exact Lines.complete_append_line (hnl e)
  | error k =>
    rw [Lines.complete_append_text (appended_error_text hnl k)]
    exact (List.append_nil _).symm

theorem rest_concat (hnl : ∀ e, 10 ∉ json e) :
    Lines.rest 10 (callBytes json (calls ++ [c])) =
      if c.2.isOk then [] else Lines.rest 10 (callBytes json calls) ++ appended json c.1 c.2 := by
  obtain ⟨e, out⟩ := c
  rw [callBytes_concat]
  cases out with
  | ok => exact Lines.rest_append_line
  | error k => exact Lines.rest_append_text (appended_error_text hnl k)

/-- The file ends within a line as soon as a write has failed part way, and until then only. -/
theorem rest_eq_nil_iff (hnl : ∀ e, 10 ∉ json e) (h : NoWriteAfterTorn json calls) :
    Lines.rest 10 (callBytes json calls) = [] ↔ ∀ c ∈ calls, torn json c = false := by
  induction calls using List.reverseRecOn with
  | nil => simp
  | append_singleton calls c ih =>
    obtain ⟨hcalls, -, hlast⟩ := List.pairwise_append.mp h
    have hiff := ih hcalls
    have hmem : (∀ d ∈ calls ++ [c], torn json d = false) ↔
        (∀ d ∈ calls, torn json d = false) ∧ torn json c = false := by
      simp only [List.mem_append, List.mem_singleton, or_imp, forall_and, forall_eq]
    rw [rest_concat hnl, hmem]
    cases hok : c.2.isOk with
    | true =>
      refine ⟨fun _ => ⟨fun d hd => ?_, by simp [torn, hok]⟩, fun _ => rfl⟩
      by_contra htorn
      have hfail := hlast d hd c List.mem_cons_self (by simpa using htorn)
      rw [hok] at hfail
      cases hfail
    | false =>
      simp [torn, hok, hiff]

theorem complete_eq (hnl : ∀ e, 10 ∉ json e) (h : NoWriteAfterTorn json calls) :
    Lines.complete 10 (callBytes json calls) = (succeeded calls).map json := by
  induction calls using List.reverseRecOn with
  | nil => rfl
  | append_singleton calls c ih =>
    obtain ⟨hcalls, -, hlast⟩ := List.pairwise_append.mp h
    rw [complete_concat hnl, ih hcalls, succeeded_append, List.map_append]
    obtain ⟨e, out⟩ := c
    cases out with
    | ok =>
      have hrest : Lines.rest 10 (callBytes json calls) = [] := by
        refine (rest_eq_nil_iff hnl hcalls).mpr fun d hd => ?_
        by_contra htorn
        cases hlast d hd (e, .ok) List.mem_cons_self (by simpa using htorn)
      rw [hrest]
      rfl
    | error k => rfl

theorem succeeded_subperm (json : AuditEvent → List UInt8) (xs : List Receipt) :
    List.Subperm (succeeded (writerCalls json .start xs)) (xs.map Prod.fst) := by
  rw [(writerLoop_agrees json xs).succeeded, ← numbered_fst]
  have hperm := (ledger_accounted xs).perm.map Prod.fst
  rw [List.append_assoc, List.map_append] at hperm
  exact (List.sublist_append_left _ _).subperm.trans hperm.subperm

theorem jsonl_of_noWriteAfterTorn {xs : List Receipt} (hnl : ∀ e, 10 ∉ json e)
    (h : NoWriteAfterTorn json (writerCalls json .start xs)) :
    ∀ log ∈ logStates json xs, Jsonl json (xs.map Prod.fst) log := by
  intro log hlog
  obtain ⟨calls, hcalls, rfl⟩ := mem_logStates.mp hlog
  refine ⟨succeeded calls, ?_, complete_eq hnl (h.sublist hcalls.sublist)⟩
  exact (succeeded_mono hcalls).sublist.subperm.trans (succeeded_subperm json xs)

/-- A write that succeeds after one that failed part way makes a line that is the text of no
event, if no text ends with another one. -/
theorem noWriteAfterTorn_of_jsonl (received : List AuditEvent) (hnl : ∀ e, 10 ∉ json e)
    (hsuffix : ∀ e e' text, text ++ json e = json e' → text = [])
    (h : ∀ calls', calls' <+: calls → Jsonl json received (callBytes json calls')) :
    NoWriteAfterTorn json calls := by
  induction calls using List.reverseRecOn with
  | nil => exact List.Pairwise.nil
  | append_singleton calls c ih =>
    have hcalls := ih fun calls' hpre => h calls' (hpre.trans (List.prefix_append _ _))
    refine List.pairwise_append.mpr
      ⟨hcalls, List.pairwise_singleton _ _, fun d hd c' hc' htorn => ?_⟩
    rw [List.mem_singleton.mp hc']
    by_contra hok
    rw [Bool.not_eq_false] at hok
    obtain ⟨es, -, hlines⟩ := h _ List.prefix_rfl
    rw [complete_concat hnl, hok, if_pos rfl] at hlines
    have hmem : Lines.rest 10 (callBytes json calls) ++ json c.1 ∈ es.map json := by
      rw [← hlines]
      exact List.mem_append_right _ List.mem_cons_self
    obtain ⟨e', -, heq⟩ := List.mem_map.mp hmem
    have hrest := hsuffix _ _ _ heq.symm
    have hwhole := (rest_eq_nil_iff hnl hcalls).mp hrest d hd
    rw [htorn] at hwhole
    cases hwhole

/-- The log is at any time a JSONL file without duplicates if no write succeeds after one that
failed part way, and only if no text of an event ends with the text of another one. -/
theorem writerLoop_jsonl_iff (json : AuditEvent → List UInt8) (hnl : ∀ e, 10 ∉ json e)
    (xs : List Receipt) :
    (writerLoop json .start xs).log ∈ logStates json xs ∧
    (NoWriteAfterTorn json (writerCalls json .start xs) →
      ∀ log ∈ logStates json xs, Jsonl json (xs.map Prod.fst) log) ∧
    ((∀ e e' text, text ++ json e = json e' → text = []) →
      (∀ log ∈ logStates json xs, Jsonl json (xs.map Prod.fst) log) →
      NoWriteAfterTorn json (writerCalls json .start xs)) := by
  refine ⟨writerLoop_mem_logStates, jsonl_of_noWriteAfterTorn hnl, fun hsuffix hall => ?_⟩
  refine noWriteAfterTorn_of_jsonl (xs.map Prod.fst) hnl hsuffix fun calls hcalls => ?_
  exact hall _ (mem_logStates.mpr ⟨calls, hcalls, rfl⟩)

end

/-- The text of `recovered 1` for that event and of `recovered 0` for every other one. -/
def twoJson (e : AuditEvent) : List UInt8 :=
  recoveredJson (recovered (if e = recovered 1 then 1 else 0))

theorem twoJson_text : ∀ e, 10 ∉ twoJson e := by
  intro e
  unfold twoJson
  split <;> decide +kernel

theorem twoJson_length (e : AuditEvent) : (twoJson e).length = (twoJson (recovered 0)).length := by
  rw [show twoJson (recovered 0) = recoveredJson (recovered 0) from rfl]
  unfold twoJson
  split <;> decide +kernel

/-- The disk is full while the first event arrives, and the second one is cut short. -/
def cutEvents : List Receipt :=
  [(recovered 0, [.error 0]), (recovered 1, [.ok, .error 7])]

theorem writerLoop_jsonl_iff_cut :
    (∀ log ∈ logStates twoJson cutEvents, Jsonl twoJson [recovered 0, recovered 1] log) ∧
    NoWriteAfterTorn twoJson (writerCalls twoJson .start cutEvents) := by
  have hsuffix : ∀ e e' text, text ++ twoJson e = twoJson e' → text = [] := by
    intro e e' text heq
    have hlength := congrArg List.length heq
    rw [List.length_append, twoJson_length e, twoJson_length e'] at hlength
    exact List.length_eq_zero_iff.mp (by omega)
  have hcut : NoWriteAfterTorn twoJson (writerCalls twoJson .start cutEvents) := by decide +kernel
  obtain ⟨-, henough, hneeded⟩ := writerLoop_jsonl_iff twoJson twoJson_text cutEvents
  exact ⟨henough hcut, hneeded hsuffix (henough hcut)⟩

/-- The write of the first event fails after one byte, and is repeated when the second arrives. -/
def gluedEvents : List Receipt := [(recovered 0, [.error 1]), (recovered 1, [.ok, .ok])]

/-- The first line of the log of `gluedEvents` is the text of no received event. -/
theorem writerLoop_glued : (∀ e, 10 ∉ twoJson e) ∧
    ¬ Jsonl twoJson (gluedEvents.map Prod.fst) (writerLoop twoJson .start gluedEvents).log := by
  refine ⟨twoJson_text, ?_⟩
  rintro ⟨es, hsub, hlines⟩
  have hbad : ∀ e ∈ gluedEvents.map Prod.fst,
      (Lines.complete 10 (writerLoop twoJson .start gluedEvents).log).head? ≠ some (twoJson e) := by
    decide +kernel
  have hsome : (Lines.complete 10 (writerLoop twoJson .start gluedEvents).log).head?.isSome := by
    decide +kernel
  rw [hlines] at hbad hsome
  cases es with
  | nil => cases hsome
  | cons e es => exact hbad e (hsub.subset List.mem_cons_self) rfl

end RemoBroker
