import RemoBroker.AuditLog.Accesses
import RemoBroker.AuditLog.Events

/-! What an auditor learns from the log file of a run.  The lines of the file can be read back, and
as nothing else than the accesses that the run recorded; each access has the credentials of the
client whose connection it was made on. -/

namespace RemoBroker

open JsonText (NumberFormat)

/-- A process id, as `peer_cred` returns it: an `i32`. -/
def IsPid (pid : Int) : Prop := -2 ^ 31 ≤ pid ∧ pid < 2 ^ 31

/-- The accepted connections have process ids. -/
def Action.PidOk (a : Action) : Prop :=
  ∀ reg num pid uid, a = .loop reg (.spawn num (some pid) uid) → IsPid pid

/-- The event has the credentials of the connection. -/
def FetchEvent.OfPeer (event : FetchEvent) (conn : Conn) : Prop :=
  event.peerPid = conn.peerPid ∧ event.peerUid = conn.peerUid

/-- Every access is by the client of its connection. -/
structure Identified (tr : List Obs) (s : Daemon) : Prop where
  peer : ∀ x ∈ accesses tr, ∃ conn, s.conns x.1.conn = some conn ∧ x.2.OfPeer conn
  pid : ∀ c conn, s.conns c = some conn → ∀ pid ∈ conn.peerPid, IsPid pid

/-- What can be read in a log file is a list of events, and nothing else. -/
def ReadsAs (stamp : Rfc3339) (numbers : NumberFormat) (log : List UInt8) (es : List AuditEvent) :
    Prop :=
  Lines.rest 10 log = [] ∧
    ∀ es', (Lines.complete 10 log).mapM (JsonText.fromSlice numbers.inRange) =
      some (es'.map (·.toValue stamp)) ↔ es' = es

/-- The events `es` that can be read in the log of a run are accesses of the run, in their order and
with their clients.  What is missing waits in the channel or was counted as dropped; where there is
no such event, every answered `get` is in the log with what became of it. -/
structure Auditable (stamp : Rfc3339) (numbers : NumberFormat) (tr : List Obs) (s : Daemon)
    (es : List AuditEvent) : Prop where
  reads : ReadsAs stamp numbers s.audit.writer.log es
  ordered : ∃ kept, es ++ s.audit.queue = kept.map accessEvent ∧
    List.Sublist kept (accesses tr) ∧ kept.length + s.audit.dropped = (accesses tr).length
  genuine : ∀ e ∈ es, ∃ x ∈ accesses tr, e = accessEvent x ∧
    ∃ conn, s.conns x.1.conn = some conn ∧ x.2.OfPeer conn
  complete : s.audit.dropped = 0 → s.audit.queue = [] →
    ∀ q name r pre, pre ++ [.writing q r] <+: tr → .received q (.ok (.get name)) ∈ pre →
      ∃ event, .fetch event ∈ es ∧ Truthful q name pre event r

section
variable {env : Env} {s t : Daemon} {tr o : List Obs} {conn conn' : Conn} {a : Action}

/-- The second connection is the first one later on. -/
def Conn.SamePeer (conn conn' : Conn) : Prop :=
  conn'.peerPid = conn.peerPid ∧ conn'.peerUid = conn.peerUid

theorem FetchEvent.OfPeer.later {event : FetchEvent} (h : event.OfPeer conn)
    (hsame : conn.SamePeer conn') : event.OfPeer conn' :=
  ⟨h.1.trans hsame.1.symm, h.2.trans hsame.2.symm⟩

theorem ConnStep.samePeer {backend : Option Session} {q : RequestId} {p p' : Project}
    {a : ConnAction} (step : ConnStep env backend q p conn a p' conn' o) :
    conn.SamePeer conn' := by
  cases step <;> exact ⟨rfl, rfl⟩

theorem ConnStep.accesses_peer {backend : Option Session} {q : RequestId} {p p' : Project}
    {a : ConnAction} (step : ConnStep env backend q p conn a p' conn' o) :
    ∀ x ∈ accesses o, x.1 = q ∧ x.2.OfPeer conn := by
  cases step with
  | emitted =>
    intro x hx
    obtain rfl : x = _ := List.mem_singleton.mp hx
    exact ⟨rfl, rfl, rfl⟩
  | _ => simp [accesses, Obs.fetched]

/-- A connection stays, with its peer. -/
theorem DaemonStep.samePeer {c : ConnId} (step : DaemonStep env s a t o)
    (hconn : s.conns c = some conn) : ∃ conn', t.conns c = some conn' ∧ conn.SamePeer conn' := by
  rcases a.conn_or with ⟨c', b, rfl⟩ | hother
  · cases step with
    | @conn _ _ old p p' new _ task project step =>
      by_cases hc : c = c'
      · subst hc
        obtain rfl := Option.some.inj (hconn.symm.trans task)
        exact ⟨new, Function.update_self .., step.samePeer⟩
      · exact ⟨conn, (Function.update_of_ne hc ..).trans hconn, rfl, rfl⟩
  · have hchange := step.connChange hother c
    rw [hconn] at hchange
    generalize t.conns c = new at hchange
    cases hchange <;> exact ⟨_, rfl, rfl, rfl⟩

theorem abortConns_none {conns : ConnId → Option Conn} {reg : RegId} {joinSet : List Nat}
    {c : ConnId} (h : conns c = none) : Daemon.abortConns conns reg joinSet c = none := by
  simp [Daemon.abortConns, h]

/-- A connection that was not there has been accepted. -/
theorem DaemonStep.accepted {c : ConnId} (step : DaemonStep env s a t o)
    (hnone : s.conns c = none) (hconn : t.conns c = some conn) :
    a = .loop c.reg (.spawn c.num conn.peerPid conn.peerUid) := by
  cases step with
  | admin step =>
    cases step with
    | timedOut => cases (abortConns_none hnone).symm.trans hconn
    | _ => cases hnone.symm.trans hconn
  | @conn c' _ _ _ _ _ _ task project step =>
    have hne : c ≠ c' := by
      rintro rfl
      cases hnone.symm.trans task
    cases ((Function.update_of_ne hne ..).trans hnone).symm.trans hconn
  | @loop reg _ _ step =>
    cases step with
    | @spawned _ _ _ num pid uid task state pc fresh accept =>
      by_cases hc : c = ⟨reg, num⟩
      · subst hc
        cases (Function.update_self ..).symm.trans hconn
        rfl
      · cases ((Function.update_of_ne hc ..).trans hnone).symm.trans hconn
    | aborted => cases (abortConns_none hnone).symm.trans hconn
    | selected | joined | drained => cases hnone.symm.trans hconn
  | rotate | status | writer => cases hnone.symm.trans hconn

theorem DaemonStep.accesses_peer (step : DaemonStep env s a t o) :
    ∀ x ∈ accesses o, ∃ conn, s.conns x.1.conn = some conn ∧ x.2.OfPeer conn := by
  cases step with
  | admin step => simp [step.records_nothing.2]
  | conn task project step =>
    intro x hx
    obtain ⟨hq, hpeer⟩ := step.accesses_peer x hx
    exact ⟨_, by rw [hq]; exact task, hpeer⟩
  | loop | rotate | status | writer => simp [accesses, Obs.fetched]

theorem Identified.step (h : Identified tr s) (ha : a.PidOk) (step : DaemonStep env s a t o) :
    Identified (tr ++ o) t := by
  constructor
  · intro x hx
    have hbefore : ∃ conn, s.conns x.1.conn = some conn ∧ x.2.OfPeer conn := by
      rw [accesses_append] at hx
      rcases List.mem_append.mp hx with hx | hx
      · exact h.peer x hx
      · exact step.accesses_peer x hx
    obtain ⟨conn, hconn, hpeer⟩ := hbefore
    obtain ⟨conn', hconn', hsame⟩ := step.samePeer hconn
    exact ⟨conn', hconn', hpeer.later hsame⟩
  · intro c conn' hconn' pid hpid
    cases hold : s.conns c with
    | none =>
      have haccepted := step.accepted hold hconn'
      rw [hpid] at haccepted
      exact ha _ _ _ _ haccepted
    | some conn =>
      obtain ⟨conn'', hconn'', hsame⟩ := step.samePeer hold
      obtain rfl := Option.some.inj (hconn'.symm.trans hconn'')
      exact h.pid c conn hold pid (hsame.1 ▸ hpid)

theorem run_identified {backend : Option Session} {stale : Daemon.Stale} {as : List Action}
    (hpids : ∀ a ∈ as, a.PidOk) (hrun : run env backend stale as = some (s, tr)) :
    Identified tr s := by
  refine Machine.exec_induction_along (I := Identified) (G := fun _ a => a.PidOk) ?_ ?_
    (Machine.along_of_forall hpids) hrun
  · refine ⟨by simp [accesses], fun c conn hconn => ?_⟩
    cases hconn
  · intro tr s a t o h ha hstep
    exact h.step ha (step_cases hstep)

theorem Identified.fits (h : Identified tr s) : ∀ x ∈ accesses tr, (accessEvent x).Fits := by
  intro x hx pid hpid
  obtain ⟨conn, hconn, hpeer⟩ := h.peer x hx
  exact h.pid _ conn hconn pid (hpeer.1 ▸ hpid)

theorem readsAs_lines {stamp : Rfc3339} {numbers : NumberFormat} {es : List AuditEvent}
    (hfits : ∀ e ∈ es, e.Fits) :
    ReadsAs stamp numbers (es.flatMap (line (·.toJson stamp))) es := by
  have hsplit : Lines.split 10 (es.flatMap (line (·.toJson stamp))) =
      (es.map (·.toJson stamp), []) := Lines.split_lines fun e _ => e.toJson_inline
  have hcomplete : Lines.complete 10 (es.flatMap (line (·.toJson stamp))) =
      es.map (·.toJson stamp) := congrArg Prod.fst hsplit
  refine ⟨congrArg Prod.snd hsplit, fun es' => ?_⟩
  rw [hcomplete]
  exact mapM_fromSlice_iff hfits

/-- With a file that takes every write, the log of a run is auditable. -/
theorem run_auditable {backend : Option Session} {stale : Daemon.Stale} {as : List Action}
    {stamp : Rfc3339} (numbers : NumberFormat) (hjson : env.json = (·.toJson stamp))
    (hpids : ∀ a ∈ as, a.PidOk) (hfile : ∀ outs, .writer outs ∈ as → outs.head? = some .ok)
    (hrun : run env backend stale as = some (s, tr)) :
    ∃ es, Auditable stamp numbers tr s es := by
  have hidentified := run_identified hpids hrun
  obtain ⟨receipts, kept, hall, hwriter, hkept, hsub, hcount⟩ := run_carried hfile hrun
  have hmem : ∀ e ∈ receipts.map Prod.fst, ∃ x ∈ accesses tr, e = accessEvent x := by
    intro e he
    have hkept' : e ∈ kept.map accessEvent := hkept ▸ List.mem_append_left _ he
    obtain ⟨x, hx, rfl⟩ := List.mem_map.mp hkept'
    exact ⟨x, hsub.subset hx, rfl⟩
  refine ⟨receipts.map Prod.fst, ?_, ⟨kept, hkept, hsub, hcount⟩, ?_, ?_⟩
  · rw [hwriter, Writer.start, writerLoop_succeeds_nil hall, List.nil_append, hjson]
    refine readsAs_lines fun e he => ?_
    obtain ⟨x, hx, rfl⟩ := hmem e he
    exact hidentified.fits x hx
  · intro e he
    obtain ⟨x, hx, rfl⟩ := hmem e he
    exact ⟨x, hx, rfl, hidentified.peer x hx⟩
  · intro hdropped hqueue q name r pre hpre hget
    obtain ⟨event, hevent, htruth⟩ := (run_requests hrun).access hpre hget
    refine ⟨event, ?_, htruth⟩
    -- Nothing was dropped, so the writer has received every access.
    obtain rfl : kept = accesses tr := hsub.eq_of_length (by omega)
    rw [hqueue, List.append_nil] at hkept
    rw [hkept]
    have hpre' : accesses pre ⊆ accesses tr := by
      have hlt : pre <+: tr := (List.prefix_append pre _).trans hpre
      exact (hlt.filterMap _).subset
    exact List.mem_map.mpr ⟨(q, event), hpre' hevent, rfl⟩

end

/-- A client with credentials gets a secret and is denied another one, and the writer comes to the
end of the channel. -/
def auditableRun : List Action :=
  Action.register ⟨"web", 0⟩ "/srv/web" "web" 0 ++
    [.select .iterate, .select .pollStop, .select .acceptOk, .spawn 0 (some 42) (some 1000)].map
      (.loop ⟨"web", 0⟩) ++
    Action.fetch ⟨⟨"web", 0⟩, 0⟩ "A" 0 ++ Action.denied ⟨⟨"web", 0⟩, 0⟩ "B" 1 ++
    [.writer [.ok], .writer [.ok]]

theorem run_auditable_twice : ∃ s tr es,
    run webEnv (some 0) (fun _ => none) auditableRun = some (s, tr) ∧
    (accesses tr).map (fun x => (x.2.decision, x.2.peerPid)) =
      [(.allow, some 42), (.deny, some 42)] ∧
    s.audit.dropped = 0 ∧ s.audit.queue = [] ∧
    Auditable epochStamp everyNumber tr s es := by
  have hfacts : (run webEnv (some 0) (fun _ => none) auditableRun).map (fun r =>
      ((accesses r.2).map (fun x => (x.2.decision, x.2.peerPid)), r.1.audit.dropped,
        r.1.audit.queue.isEmpty)) = some ([(.allow, some 42), (.deny, some 42)], 0, true) := by
    decide +kernel
  obtain ⟨⟨s, tr⟩, hrun, htr⟩ := Option.map_eq_some_iff.mp hfacts
  obtain ⟨haccesses, hrest⟩ := Prod.mk.inj htr
  obtain ⟨hdropped, hqueue⟩ := Prod.mk.inj hrest
  have hpids : ∀ a ∈ auditableRun, a.PidOk := by
    rintro a ha reg num pid uid rfl
    obtain ⟨-, -, rfl, -⟩ : reg = ⟨"web", 0⟩ ∧ num = 0 ∧ pid = 42 ∧ uid = some 1000 := by
      simpa [auditableRun, Action.register, Action.fetch, Action.denied] using ha
    exact ⟨by decide, by decide⟩
  have hfile : ∀ outs, .writer outs ∈ auditableRun → outs.head? = some .ok := by
    simp [auditableRun, Action.register, Action.fetch, Action.denied]
  obtain ⟨es, hes⟩ := run_auditable everyNumber rfl hpids hfile hrun
  exact ⟨s, tr, es, hrun, haccesses, hdropped, List.isEmpty_iff.mp hqueue, hes⟩

end RemoBroker
