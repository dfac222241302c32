import RemoBroker.AuditLog.Writer

/-! The audit log through outages of its file.  While the file cannot be written the writer keeps
the last events in its buffer; the first event that it receives afterwards brings them all into the
log. -/

namespace RemoBroker

/-- The events that a buffer of the writer's size has kept. -/
def keptEvents (es : List AuditEvent) : List AuditEvent := es.drop (es.length - degradedBufferCap)

/-- Every write of the iteration fails and appends nothing. -/
def Receipt.Fails (x : Receipt) : Prop := ∀ out ∈ x.2, out = .error 0

/-- Every write that the iteration can make succeeds. -/
def Receipt.Succeeds (x : Receipt) : Prop := List.replicate (degradedBufferCap + 1) .ok <+: x.2

/-- A time without the file and the time after it, in which at least one event is received. -/
structure Outage where
  down : List Receipt
  up : List Receipt
  down_fails : ∀ x ∈ down, x.Fails
  up_succeeds : ∀ x ∈ up, x.Succeeds
  up_ne_nil : up ≠ []

def Outage.receipts (x : Outage) : List Receipt := x.down ++ x.up

/-- The events of an outage that come into the log. -/
def Outage.logged (x : Outage) : List AuditEvent :=
  keptEvents (x.down.map Prod.fst) ++ x.up.map Prod.fst

section
variable {json : AuditEvent → List UInt8} {e : AuditEvent} {es degraded : List AuditEvent}
  {outs : List WriteOutcome} {xs : List Receipt} {log : List UInt8} {written : Nat}

theorem keptEvents_length_eq : (keptEvents es).length = min es.length degradedBufferCap := by
  rw [keptEvents, List.length_drop]
  omega

theorem keptEvents_length : (keptEvents es).length ≤ degradedBufferCap := by
  rw [keptEvents_length_eq]
  exact Nat.min_le_right _ _

theorem keptEvents_of_le (h : es.length ≤ degradedBufferCap) : keptEvents es = es := by
  rw [keptEvents, Nat.sub_eq_zero_of_le h, List.drop_zero]

/-- A full buffer drops the oldest event. -/
theorem pushDegraded_eq (h : es.length ≤ degradedBufferCap) :
    pushDegraded es e = keptEvents (es ++ [e]) := by
  unfold pushDegraded keptEvents
  rw [List.length_append, List.length_singleton]
  split
  · rename_i hfull
    rw [hfull, Nat.add_sub_cancel_left, List.drop_append_of_le_length (by rw [hfull]; decide),
      List.drop_one]
  · have hle : es.length + 1 - degradedBufferCap = 0 := by omega
    rw [hle, List.drop_zero]

theorem keptEvents_append {more : List AuditEvent} :
    keptEvents (keptEvents es ++ more) = keptEvents (es ++ more) := by
  unfold keptEvents
  generalize degradedBufferCap = cap
  rw [← List.drop_append_of_le_length (Nat.sub_le _ _), List.drop_drop, List.length_drop,
    List.length_append]
  congr 1
  omega

theorem drained_fails {n : Nat} (h : ∀ out ∈ outs, out = .error 0) : drained n outs = 0 := by
  cases n with
  | zero => rfl
  | succ n =>
    cases outs with
    | nil => rfl
    | cons out outs =>
      cases h out List.mem_cons_self
      rfl

theorem nextOutcome_fails (h : ∀ out ∈ outs, out = .error 0) : nextOutcome outs = .error 0 := by
  cases outs with
  | nil => rfl
  | cons out outs => exact h out List.mem_cons_self

theorem eventOutcome_fails {n : Nat} (h : ∀ out ∈ outs, out = .error 0) :
    eventOutcome n outs = .error 0 := by
  cases n with
  | zero => exact nextOutcome_fails h
  | succ n =>
    cases outs with
    | nil => rfl
    | cons out outs =>
      cases h out List.mem_cons_self
      exact nextOutcome_fails fun out hout => h out (List.mem_cons_of_mem _ hout)

theorem callBytes_fails (h : ∀ out ∈ outs, out = .error 0) :
    callBytes json (attempts degraded e outs) = [] := by
  have htail : nextOutcome outs.tail = .error 0 :=
    nextOutcome_fails fun out hout => h out (List.mem_of_mem_tail hout)
  cases degraded with
  | nil => simp [attempts, nextOutcome_fails h]
  | cons b degraded =>
    cases outs with
    | nil => simp [attempts, nextOutcome]
    | cons out outs =>
      cases h out List.mem_cons_self
      simp only [List.tail_cons] at htail
      simp [attempts, nextOutcome_fails h, htail]

theorem writerIter_fails (hcap : degraded.length ≤ degradedBufferCap)
    (h : ∀ out ∈ outs, out = .error 0) :
    writerIter json ⟨log, degraded, written⟩ e outs =
      ⟨log, keptEvents (degraded ++ [e]), written⟩ := by
  rw [writerIter_spec, drained_fails h, eventOutcome_fails h, callBytes_fails h, List.drop_zero,
    pushDegraded_eq hcap]
  simp [WriteOutcome.isOk]

/-- Without the file the writer keeps the last events. -/
theorem writerLoop_fails (hcap : degraded.length ≤ degradedBufferCap) (h : ∀ x ∈ xs, x.Fails) :
    writerLoop json ⟨log, degraded, written⟩ xs =
      ⟨log, keptEvents (degraded ++ xs.map Prod.fst), written⟩ := by
  induction xs generalizing degraded with
  | nil => simp [writerLoop, keptEvents_of_le hcap]
  | cons x xs ih =>
    have hhead : ∀ out ∈ x.2, out = .error 0 := h x List.mem_cons_self
    have htail : ∀ y ∈ xs, y.Fails := fun y hy => h y (List.mem_cons_of_mem x hy)
    rw [writerLoop, writerIter_fails hcap hhead, ih keptEvents_length htail]
    simp only [keptEvents_append, List.append_assoc, List.map_cons, List.singleton_append]

theorem drained_succeeds {n : Nat} (h : List.replicate (n + 1) .ok <+: outs) :
    drained n outs = n ∧ eventOutcome n outs = .ok := by
  induction n generalizing outs with
  | zero =>
    obtain ⟨rest, rfl⟩ := h
    exact ⟨rfl, rfl⟩
  | succ n ih =>
    obtain ⟨rest, rfl⟩ := h
    obtain ⟨hdrained, houtcome⟩ := ih ⟨rest, rfl⟩
    exact ⟨congrArg Nat.succ hdrained, houtcome⟩

theorem callBytes_succeeds (h : List.replicate (degraded.length + 1) .ok <+: outs) :
    callBytes json (attempts degraded e outs) = (degraded ++ [e]).flatMap (line json) := by
  induction degraded generalizing outs with
  | nil =>
    obtain ⟨rest, rfl⟩ := h
    simp [attempts, nextOutcome, appended]
  | cons b degraded ih =>
    obtain ⟨rest, rfl⟩ := h
    have htail : callBytes json (attempts degraded e
        (List.replicate (degraded.length + 1) .ok ++ rest)) = _ := ih ⟨rest, rfl⟩
    show line json b ++ callBytes json (attempts degraded e
      (List.replicate (degraded.length + 1) .ok ++ rest)) = _
    rw [htail, List.cons_append, List.flatMap_cons]

/-- With the file back, the next event brings the whole buffer into the log. -/
theorem writerIter_succeeds (h : List.replicate (degraded.length + 1) .ok <+: outs) :
    writerIter json ⟨log, degraded, written⟩ e outs =
      ⟨log ++ (degraded ++ [e]).flatMap (line json), [], written + (degraded.length + 1)⟩ := by
  obtain ⟨hdrained, houtcome⟩ := drained_succeeds h
  rw [writerIter_spec, hdrained, houtcome, callBytes_succeeds h, List.drop_length]
  simp [WriteOutcome.isOk, Nat.add_assoc]

theorem Receipt.Succeeds.replicate {x : Receipt} (h : x.Succeeds)
    (hcap : degraded.length ≤ degradedBufferCap) :
    List.replicate (degraded.length + 1) .ok <+: x.2 := by
  obtain ⟨more, hmore⟩ := Nat.exists_eq_add_of_le (Nat.add_le_add_right hcap 1)
  refine List.IsPrefix.trans ⟨List.replicate more .ok, ?_⟩ h
  rw [List.replicate_append_replicate, hmore]

/-- With an empty buffer one successful write for each event is enough. -/
theorem writerLoop_succeeds_nil (h : ∀ x ∈ xs, x.2.head? = some .ok) :
    writerLoop json ⟨log, [], written⟩ xs =
      ⟨log ++ (xs.map Prod.fst).flatMap (line json), [], written + xs.length⟩ := by
  induction xs generalizing log written with
  | nil => simp [writerLoop]
  | cons x xs ih =>
    obtain ⟨rest, hrest⟩ := List.head?_eq_some_iff.mp (h x List.mem_cons_self)
    have hhead : List.replicate (([] : List AuditEvent).length + 1) .ok <+: x.2 :=
      ⟨rest, hrest.symm⟩
    rw [writerLoop, writerIter_succeeds hhead, ih fun y hy => h y (List.mem_cons_of_mem x hy)]
    simp [Nat.add_assoc, Nat.add_comm 1]

theorem Receipt.Succeeds.head {x : Receipt} (h : x.Succeeds) : x.2.head? = some .ok := by
  obtain ⟨rest, hrest⟩ := h
  rw [← hrest, List.replicate_succ]
  rfl

/-- A buffer goes into the log in front of the events received with the file back. -/
theorem writerLoop_succeeds (hcap : degraded.length ≤ degradedBufferCap)
    (h : ∀ x ∈ xs, x.Succeeds) (hne : xs ≠ []) :
    writerLoop json ⟨log, degraded, written⟩ xs =
      ⟨log ++ (degraded ++ xs.map Prod.fst).flatMap (line json), [],
        written + (degraded ++ xs.map Prod.fst).length⟩ := by
  cases xs with
  | nil => exact absurd rfl hne
  | cons x xs =>
    have hhead := (h x List.mem_cons_self).replicate hcap
    have htail : ∀ y ∈ xs, y.2.head? = some .ok :=
      fun y hy => (h y (List.mem_cons_of_mem x hy)).head
    rw [writerLoop, writerIter_succeeds hhead, writerLoop_succeeds_nil htail]
    simp [Nat.add_assoc, Nat.add_comm 1]

theorem writerLoop_outage (x : Outage) :
    writerLoop json ⟨log, [], written⟩ x.receipts =
      ⟨log ++ x.logged.flatMap (line json), [], written + x.logged.length⟩ := by
  rw [Outage.receipts, writerLoop_append, writerLoop_fails (Nat.zero_le _) x.down_fails,
    List.nil_append, writerLoop_succeeds keptEvents_length x.up_succeeds x.up_ne_nil]
  rfl

theorem writerLoop_outages (xs : List Outage) :
    writerLoop json ⟨log, [], written⟩ (xs.flatMap Outage.receipts) =
      ⟨log ++ (xs.flatMap Outage.logged).flatMap (line json), [],
        written + (xs.flatMap Outage.logged).length⟩ := by
  induction xs generalizing log written with
  | nil => simp [writerLoop]
  | cons x xs ih =>
    rw [List.flatMap_cons, writerLoop_append, writerLoop_outage, ih]
    simp [Nat.add_assoc]

end

/-- The log over any number of outages, and a last one that the end of the process cuts short. -/
theorem auditLog_outlives_outages (json : AuditEvent → List UInt8) (xs : List Outage)
    (last : List Receipt) (h : ∀ x ∈ last, x.Fails) :
    let w := writerLoop json .start (xs.flatMap Outage.receipts ++ last)
    w.log = (xs.flatMap Outage.logged).flatMap (line json) ∧
      w.degraded = keptEvents (last.map Prod.fst) ∧
      w.shutdown = ⟨min last.length degradedBufferCap, (xs.flatMap Outage.logged).length⟩ := by
  have hloop : writerLoop json .start (xs.flatMap Outage.receipts ++ last) =
      ⟨(xs.flatMap Outage.logged).flatMap (line json), keptEvents (last.map Prod.fst),
        (xs.flatMap Outage.logged).length⟩ := by
    rw [writerLoop_append, Writer.start, writerLoop_outages, writerLoop_fails (Nat.zero_le _) h,
      List.nil_append, List.nil_append, Nat.zero_add]
  simp only [hloop, Writer.shutdown, true_and]
  rw [keptEvents_length_eq, List.length_map]

/-- A receipt for which the file cannot be opened. -/
def refused (e : AuditEvent) : Receipt := (e, [.error 0, .error 0])

/-- One event without the file, and one after it. -/
def shortOutage : Outage where
  down := [refused (.socketRecovered 1 "web" "/run/web.sock")]
  up := [(.socketRecovered 2 "web" "/run/web.sock", List.replicate (degradedBufferCap + 1) .ok)]
  down_fails := by simp [Receipt.Fails, refused]
  up_succeeds := by simp [Receipt.Succeeds]
  up_ne_nil := List.cons_ne_nil _ _

theorem auditLog_outlives_outages_short :
    (∀ x ∈ [refused (.shutdown 3 "sigterm" 0 0)], x.Fails) ∧
    let w := writerLoop (fun _ => [123, 125]) .start ([shortOutage].flatMap Outage.receipts ++
      [refused (.shutdown 3 "sigterm" 0 0)])
    w.log = [123, 125, 10, 123, 125, 10] ∧ w.degraded = [.shutdown 3 "sigterm" 0 0] ∧
      w.shutdown = ⟨1, 2⟩ :=
  have hlast : ∀ x ∈ [refused (.shutdown 3 "sigterm" 0 0)], x.Fails := by
    simp [Receipt.Fails, refused]
  ⟨hlast, auditLog_outlives_outages (fun _ => [123, 125]) [shortOutage] _ hlast⟩

end RemoBroker
