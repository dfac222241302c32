import RemoBroker.AuditLog.Outage
import RemoBroker.AuditTrail
import RemoBroker.Secrecy

/-! From a response to the log file.  What the connections of a run record goes through the channel
and the writer into the file: with a file that takes every write, the log and the channel hold the
accesses to secrets in the order in which they were recorded, without those that were dropped. -/

namespace RemoBroker

/-- The accesses to secrets that a trace shows, with the requests they are recorded for. -/
def accesses (tr : List Obs) : List (RequestId × FetchEvent) := tr.filterMap Obs.fetched

def accessEvent (x : RequestId × FetchEvent) : AuditEvent := .fetch x.2

/-- The writer received some of the recorded events and the channel holds later ones, in the order
in which they were recorded; the others were dropped.  `P` says how the writes end. -/
def Carried (json : AuditEvent → List UInt8) (P : List WriteOutcome → Prop)
    (xs : List (RequestId × FetchEvent)) (audit : Audit) : Prop :=
  ∃ receipts kept, (∀ x ∈ receipts, P x.2) ∧ audit.writer = writerLoop json .start receipts ∧
    receipts.map Prod.fst ++ audit.queue = kept.map accessEvent ∧ List.Sublist kept xs ∧
    kept.length + audit.dropped = xs.length

section
variable {env : Env} {json : AuditEvent → List UInt8} {P : List WriteOutcome → Prop}
  {xs : List (RequestId × FetchEvent)} {x : RequestId × FetchEvent} {audit audit' : Audit}
  {outs : List WriteOutcome} {tr o : List Obs} {s t : Daemon} {q : RequestId}

theorem Carried.record (h : Carried json P xs audit) :
    Carried json P (xs ++ [x]) (audit.record (accessEvent x)) := by
  obtain ⟨receipts, kept, hP, hwriter, hkept, hsub, hcount⟩ := h
  unfold Audit.record
  split
  · refine ⟨receipts, kept ++ [x], hP, hwriter, ?_, hsub.append (List.Sublist.refl _), ?_⟩
    · rw [List.map_append, ← hkept, List.append_assoc]
      rfl
    · simp only [List.length_append, List.length_singleton]
      omega
  · refine ⟨receipts, kept, hP, hwriter, hkept, hsub.trans (List.sublist_append_left _ _), ?_⟩
    simp only [List.length_append, List.length_singleton]
    omega

theorem Carried.recordAll (h : Carried json P xs audit) :
    Carried json P (xs ++ accesses o) (Daemon.recordAll audit o) := by
  rw [recordAll_eq, ← accesses]
  generalize accesses o = ys
  induction ys generalizing xs audit with
  | nil => simpa using h
  | cons y ys ih =>
    have hrest := ih (h.record (x := y))
    rwa [List.append_assoc] at hrest

theorem Carried.receive (h : Carried json P xs audit) (hP : P outs)
    (hreceive : audit.receive json outs = some audit') : Carried json P xs audit' := by
  obtain ⟨receipts, kept, hall, hwriter, hkept, hsub, hcount⟩ := h
  obtain ⟨e, rest, hqueue, rfl⟩ : ∃ e rest, audit.queue = e :: rest ∧
      audit' = { audit with queue := rest, writer := writerIter json audit.writer e outs } := by
    cases hqueue : audit.queue with
    | nil => simp [Audit.receive, hqueue] at hreceive
    | cons e rest =>
      simp only [Audit.receive, hqueue, Option.some.injEq] at hreceive
      exact ⟨e, rest, rfl, hreceive.symm⟩
  refine ⟨receipts ++ [(e, outs)], kept, ?_, ?_, ?_, hsub, hcount⟩
  · intro x hx
    rcases List.mem_append.mp hx with hx | hx
    · exact hall x hx
    · rw [List.mem_singleton.mp hx]
      exact hP
  · rw [writerLoop_concat, ← hwriter]
  · rw [← hkept, hqueue]
    simp

@[simp] theorem accesses_append : accesses (tr ++ o) = accesses tr ++ accesses o :=
  List.filterMap_append

theorem AdminStep.records_nothing {id : AdminId} {a : AdminAction}
    (step : AdminStep env s id a t o) : t.audit = s.audit ∧ accesses o = [] := by
  cases step <;> exact ⟨rfl, by simp [accesses, Obs.fetched, fileObs]⟩

theorem LoopStep.audit_eq {reg : RegId} {a : LoopAction} (step : LoopStep s reg a t) :
    t.audit = s.audit := by
  cases step <;> rfl

theorem Carried.step {a : Action} (h : Carried env.json P (accesses tr) s.audit)
    (hP : ∀ outs, a = .writer outs → P outs) (step : DaemonStep env s a t o) :
    Carried env.json P (accesses (tr ++ o)) t.audit := by
  rw [accesses_append]
  cases step with
  | conn task project step => exact h.recordAll
  | writer receive =>
    rw [show accesses [] = [] from rfl, List.append_nil]
    exact h.receive (hP _ rfl) receive
  | admin step =>
    obtain ⟨haudit, hnone⟩ := step.records_nothing
    rw [haudit, hnone, List.append_nil]
    exact h
  | loop step =>
    rw [step.audit_eq, show accesses [] = [] from rfl, List.append_nil]
    exact h
  | rotate => exact (List.append_nil (accesses tr)).symm ▸ h
  | status => exact (List.append_nil (accesses tr)).symm ▸ h

theorem run_carried {backend : Option Session} {stale : Daemon.Stale} {as : List Action}
    (hP : ∀ outs, .writer outs ∈ as → P outs) (hrun : run env backend stale as = some (s, tr)) :
    Carried env.json P (accesses tr) s.audit := by
  refine Machine.exec_induction_along
    (I := fun tr s => Carried env.json P (accesses tr) s.audit)
    (G := fun _ a => ∀ outs, a = .writer outs → P outs) ?_ ?_ ?_ hrun
  · exact ⟨[], [], by simp, rfl, rfl, List.Sublist.refl _, rfl⟩
  · intro tr s a t o h hG hstep
    exact h.step hG (step_cases hstep)
  · exact Machine.along_of_forall fun a ha outs heq => hP outs (heq ▸ ha)

theorem recordsOf_accesses : (accesses tr).filterMap (fun x => if x.1 = q then some x.2 else none) =
    recordsOf q tr := by
  rw [accesses, List.filterMap_filterMap, recordsOf]
  refine List.filterMap_congr fun o _ => ?_
  cases o <;> rfl

theorem mem_accesses {event : FetchEvent} (h : event ∈ recordsOf q tr) :
    (q, event) ∈ accesses tr := by
  rw [← recordsOf_accesses, List.mem_filterMap] at h
  obtain ⟨⟨q', event'⟩, hmem, heq⟩ := h
  obtain ⟨hq, hevent⟩ := Option.ite_none_right_eq_some.mp heq
  cases hq
  cases hevent
  exact hmem

theorem count_accesses : ((accesses tr).map Prod.fst).count q = (recordsOf q tr).length := by
  rw [← recordsOf_accesses]
  induction accesses tr with
  | nil => rfl
  | cons x xs ih =>
    by_cases hx : x.1 = q
    · simp [hx, ih]
    · simp [hx, ih]

theorem SingleRecord.length_le {hist : List Obs} (h : SingleRecord q hist) :
    (recordsOf q hist).length ≤ 1 := by
  rcases h with hnone | ⟨event, name, hone, -⟩
  · simp [hnone]
  · simp [hone]

theorem Requests.accesses_nodup (h : Requests env tr s) :
    ((accesses tr).map Prod.fst).Nodup := by
  rw [List.nodup_iff_count_le_one]
  intro q
  have hsingle := (h.life q tr List.prefix_rfl).singleRecord.length_le
  rwa [recordsOf_ofRequest, ← count_accesses] at hsingle

/-- The response to a `get` is written after the access was recorded. -/
theorem Requests.access (h : Requests env tr s) {name : String} {r : ProjectResponse}
    {pre : List Obs} (hpre : pre ++ [.writing q r] <+: tr)
    (hget : .received q (.ok (.get name)) ∈ pre) :
    ∃ event, (q, event) ∈ accesses pre ∧ Truthful q name pre event r := by
  have hmem : .received q (.ok (.get name)) ∈ ofRequest q pre := mem_ofRequest.mpr ⟨hget, rfl⟩
  obtain ⟨event, hone, htruth⟩ := (h.responding hpre).responding_get hmem
  rw [recordsOf_ofRequest] at hone
  exact ⟨event, mem_accesses (hone ▸ List.mem_singleton_self event), htruth.of_ofRequest⟩

/-- With a file that takes every write, the log and the channel hold the accesses of the run, in
order, without the dropped ones.  There is at most one for each request, and one that agrees with
the response for each `get` that is answered. -/
theorem run_accesses_logged {backend : Option Session} {stale : Daemon.Stale} {as : List Action}
    (hfile : ∀ outs, .writer outs ∈ as → outs.head? = some .ok)
    (hrun : run env backend stale as = some (s, tr)) :
    (∃ kept, List.Sublist kept (accesses tr) ∧
      kept.length + s.audit.dropped = (accesses tr).length ∧
      s.audit.writer.log ++ s.audit.queue.flatMap (line env.json) =
        (kept.map accessEvent).flatMap (line env.json)) ∧
    ((accesses tr).map Prod.fst).Nodup ∧
    ∀ q name r pre, pre ++ [.writing q r] <+: tr → .received q (.ok (.get name)) ∈ pre →
      ∃ event, (q, event) ∈ accesses pre ∧ Truthful q name pre event r := by
  have hrequests := run_requests hrun
  refine ⟨?_, hrequests.accesses_nodup, fun q name r pre hpre hget => hrequests.access hpre hget⟩
  obtain ⟨receipts, kept, hall, hwriter, hkept, hsub, hcount⟩ := run_carried hfile hrun
  refine ⟨kept, hsub, hcount, ?_⟩
  rw [← hkept, hwriter, Writer.start, writerLoop_succeeds_nil hall, List.nil_append,
    List.flatMap_append]

end

/-- A secret is fetched and another one denied; the writer has received the first event. -/
def halfLoggedRun : List Action := auditedRun ++ [.writer [.ok]]

theorem run_accesses_logged_half : ∃ s tr,
    run webEnv (some 0) (fun _ => none) halfLoggedRun = some (s, tr) ∧
    (accesses tr).length = 2 ∧ s.audit.writer.log = fetchedLine ∧
    ∃ kept, List.Sublist kept (accesses tr) ∧
      kept.length + s.audit.dropped = (accesses tr).length ∧
      s.audit.writer.log ++ s.audit.queue.flatMap (line webEnv.json) =
        (kept.map accessEvent).flatMap (line webEnv.json) := by
  have hfacts : (run webEnv (some 0) (fun _ => none) halfLoggedRun).map (fun r =>
      ((accesses r.2).length, r.1.audit.writer.log)) = some (2, fetchedLine) := by
    decide +kernel
  obtain ⟨⟨s, tr⟩, hrun, hs⟩ := Option.map_eq_some_iff.mp hfacts
  obtain ⟨htwo, hlog⟩ := Prod.mk.inj hs
  have hfile : ∀ outs, .writer outs ∈ halfLoggedRun → outs.head? = some .ok := by
    simp [halfLoggedRun, auditedRun, Action.register, Action.connect, Action.fetch, Action.denied]
  exact ⟨s, tr, hrun, htwo, hlog, (run_accesses_logged hfile hrun).1⟩

end RemoBroker
