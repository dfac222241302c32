import RemoBroker.Daemon.Request

/-! The audit trail of the project sockets: before the response to a `get` is written, one event
has been recorded for it, and the event agrees with the response and with how it came about. -/

namespace RemoBroker

def Obs.event (q : RequestId) : Obs → Option FetchEvent
  | .recorded q' event => if q' = q then some event else none
  | _ => none

def recordsOf (q : RequestId) (tr : List Obs) : List FetchEvent := tr.filterMap (Obs.event q)

/-- An event agrees with the response to a `get` for `name` and with what was done for it. -/
structure Truthful (q : RequestId) (name : String) (tr : List Obs) (event : FetchEvent)
    (r : ProjectResponse) : Prop where
  project : event.project = q.conn.reg.name
  secretName : event.secretName = name
  denied : event.decision = .deny ∧ event.reason = some "allowlist" ∧ event.backend = none ↔
    r.code = some .denied
  ok : event.decision = .allow ∧ event.outcome = .ok ↔ r.carriesValue = true
  notFound : event.decision = .allow ∧ event.outcome = .notFound ↔ r.code = some .notFound
  backendError : event.decision = .allow ∧ event.outcome = .backendError ↔
    r.code = some .backendError
  cache : event.backend = some "cache" ↔
    (∃ now e ttl, .lookedUp q name now (some e) ∈ tr ∧ r = .get (.utf8 e.value ttl)) ∧
      ∀ session n, .called q session n ∉ tr
  fnox : event.backend = some "fnox" ↔ ∃ session, .called q session name ∈ tr

structure AuditedTrace (tr : List Obs) : Prop where
  get : ∀ q name r pre, .received q (.ok (.get name)) ∈ tr → pre ++ [.writing q r] <+: tr →
    ∃ event, recordsOf q pre = [event] ∧ recordsOf q tr = [event] ∧ Truthful q name pre event r
  other : ∀ q line, .received q line ∈ tr → (∀ name, line ≠ .ok (.get name)) → recordsOf q tr = []
  value : ∀ q r pre, pre ++ [.writing q r] <+: tr → r.carriesValue = true →
    ∃ event, recordsOf q pre = [event] ∧ event.decision = .allow ∧ event.outcome = .ok

section
variable {env : Env} {q : RequestId} {hist tr pre : List Obs} {name : String}
  {event : PendingFetch} {r : ProjectResponse} {pc : ConnPc}

@[simp] theorem recordsOf_nil : recordsOf q [] = [] := rfl

@[simp] theorem recordsOf_append {tr' : List Obs} :
    recordsOf q (tr ++ tr') = recordsOf q tr ++ recordsOf q tr' := by
  simp [recordsOf]

theorem recordsOf_ofRequest : recordsOf q (ofRequest q tr) = recordsOf q tr := by
  induction tr with
  | nil => rfl
  | cons o tr ih =>
    by_cases ho : o.request = some q
    · have hcons : ofRequest q (o :: tr) = o :: ofRequest q tr := by simp [ofRequest, ho]
      simp only [recordsOf] at ih
      simp only [hcons, recordsOf, List.filterMap_cons, ih]
    · have hcons : ofRequest q (o :: tr) = ofRequest q tr := by simp [ofRequest, ho]
      have hnone : o.event q = none := by
        cases o with
        | recorded q' event =>
          have hq : q' ≠ q := fun heq => ho (heq ▸ rfl)
          simp [Obs.event, hq]
        | _ => rfl
      rw [hcons, ih, recordsOf, recordsOf, List.filterMap_cons_none hnone]

theorem Fetch.records (fetch : Fetch env q hist name event r) : recordsOf q hist = [] := by
  cases fetch <;> rfl

theorem Fetch.received (fetch : Fetch env q hist name event r) :
    .received q (.ok (.get name)) ∈ hist :=
  fetch.received_iff.mpr rfl

/-- Each branch of `dispatch_get` pairs its event with its response. -/
theorem Fetch.truthful {conn : Conn} {now : Instant} {utc : Int}
    (fetch : Fetch env q hist name event r) :
    Truthful q name hist (emitFetch q.conn.reg.name conn event now utc) r := by
  cases fetch with
  | denied =>
    constructor <;>
      simp [emitFetch, deniedResponse, ErrorResponse.new, ProjectResponse.code,
        ProjectResponse.carriesValue, askedObs]
  | @hit m start now e ttl =>
    constructor <;>
      simp [emitFetch, ProjectResponse.code, ProjectResponse.carriesValue, askedObs]
  | degraded =>
    constructor <;>
      simp [emitFetch, noSessionResponse, ErrorResponse.new, ProjectResponse.code,
        ProjectResponse.carriesValue, askedObs]
  | fetched | notFound | failed =>
    constructor <;>
      simp [emitFetch, notFoundResponse, backendErrorResponse, ErrorResponse.new,
        ProjectResponse.code, ProjectResponse.carriesValue, askedObs, calledObs]

/-- At most one event is recorded for a request, and only for a `get`. -/
def SingleRecord (q : RequestId) (hist : List Obs) : Prop :=
  recordsOf q hist = [] ∨
    ∃ event name, recordsOf q hist = [event] ∧ .received q (.ok (.get name)) ∈ hist

theorem SingleRecord.concat {o : Obs} (h : SingleRecord q hist) (ho : o.event q = none) :
    SingleRecord q (hist ++ [o]) := by
  have hsame : recordsOf q (hist ++ [o]) = recordsOf q hist := by
    rw [recordsOf_append, recordsOf, recordsOf, List.filterMap_cons_none ho, List.filterMap_nil,
      List.append_nil]
  unfold SingleRecord
  rw [hsame]
  refine h.imp_right ?_
  rintro ⟨event, name, hone, hget⟩
  exact ⟨event, name, hone, List.mem_append_left _ hget⟩

theorem Stage.singleRecord (stage : Stage env q pc hist) : SingleRecord q hist := by
  induction stage with
  | emitting fetch => exact .inl fetch.records
  | @recorded hist name event response conn now utc fetch =>
    refine .inr ⟨emitFetch q.conn.reg.name conn event now utc, name, ?_,
      List.mem_append_left _ fetch.received⟩
    rw [recordsOf_append, fetch.records]
    simp [recordsOf, Obs.event]
  | writing stage ih => exact ih.concat rfl
  | reading | dispatching | lookingUp | calling | awaiting | inserting | readingTtl | direct =>
    exact .inl rfl

theorem Life.singleRecord (life : Life env q hist) : SingleRecord q hist := by
  cases life with
  | stage stage => exact stage.singleRecord
  | answered stage => exact stage.singleRecord.concat rfl

theorem Stage.received (stage : Stage env q (.responding r) hist) :
    ∃ line, .received q line ∈ hist := by
  cases stage with
  | recorded fetch => exact ⟨_, List.mem_append_left _ fetch.received⟩
  | direct => exact ⟨_, List.mem_cons_self⟩

theorem SingleRecord.records_eq {event : FetchEvent} (h : SingleRecord q (ofRequest q tr))
    (hpre : pre <+: tr) (hone : recordsOf q pre = [event]) : recordsOf q tr = [event] := by
  obtain ⟨rest, rfl⟩ := hpre
  rw [SingleRecord, recordsOf_ofRequest] at h
  rw [recordsOf_append, hone] at h ⊢
  rcases h with hnone | ⟨event', name, hsingle, -⟩
  · simp at hnone
  · simp only [List.singleton_append, List.cons.injEq] at hsingle
    simp [hsingle.2]

theorem Stage.responding_get (stage : Stage env q (.responding r) hist)
    (hget : .received q (.ok (.get name)) ∈ hist) :
    ∃ event, recordsOf q hist = [event] ∧ Truthful q name hist event r := by
  cases stage with
  | direct direct =>
    cases direct <;> simp at hget
  | @recorded hist name' event response conn now utc fetch =>
    have hline := fetch.received_iff.mp (by simpa using hget)
    cases hline
    refine ⟨emitFetch q.conn.reg.name conn event now utc, ?_, ?_⟩
    · rw [recordsOf_append, fetch.records]
      simp [recordsOf, Obs.event]
    · have htruth : Truthful q name hist (emitFetch q.conn.reg.name conn event now utc) r :=
        fetch.truthful
      exact { htruth with cache := by simpa using htruth.cache, fnox := by simpa using htruth.fnox }

theorem Truthful.of_ofRequest {event : FetchEvent}
    (h : Truthful q name (ofRequest q tr) event r) : Truthful q name tr event r :=
  { h with
    cache := by simpa [mem_ofRequest, Obs.request] using h.cache
    fnox := by simpa [mem_ofRequest, Obs.request] using h.fnox }

theorem Stage.received_of_value (stage : Stage env q (.responding r) hist)
    (hr : r.carriesValue = true) : ∃ name, .received q (.ok (.get name)) ∈ hist := by
  cases r with
  | get g =>
    obtain ⟨name, m, hasked, -⟩ := stage.responding_value
    exact ⟨name, hasked.subset (by simp [askedObs])⟩
  | ping | info | error => cases hr

/-- In every run, each `get` whose response is written has recorded one event by then, which agrees
with the response, and nothing is recorded for other requests. -/
theorem run_audit_truthful {s : Daemon} {backend : Option Session} {stale : Daemon.Stale}
    {as : List Action} (hrun : run env backend stale as = some (s, tr)) : AuditedTrace tr := by
  have h := run_requests hrun
  have hall : ∀ q, Life env q (ofRequest q tr) := fun q => h.life q tr List.prefix_rfl
  constructor
  · intro q name r pre hget hpre
    have hinit : pre <+: tr := (List.prefix_append pre _).trans hpre
    have hstage := h.responding hpre
    obtain ⟨line, hline⟩ : ∃ line, .received q line ∈ ofRequest q pre := hstage.received
    have hsame : line = .ok (.get name) := by
      refine (hall q).received_unique ?_ (mem_ofRequest.mpr ⟨hget, rfl⟩)
      exact mem_ofRequest.mpr ⟨hinit.subset (mem_ofRequest.mp hline).1, rfl⟩
    obtain ⟨event, hone, htruth⟩ := hstage.responding_get (hsame ▸ hline)
    rw [recordsOf_ofRequest] at hone
    exact ⟨event, hone, (hall q).singleRecord.records_eq hinit hone, htruth.of_ofRequest⟩
  · intro q line hline hother
    rcases (hall q).singleRecord with hnone | ⟨event, name, -, hget⟩
    · rwa [recordsOf_ofRequest] at hnone
    · exact absurd ((hall q).received_unique (mem_ofRequest.mpr ⟨hline, rfl⟩) hget) (hother name)
  · intro q r pre hpre hvalue
    have hstage := h.responding hpre
    obtain ⟨name, hget⟩ := hstage.received_of_value hvalue
    obtain ⟨event, hone, htruth⟩ := hstage.responding_get hget
    rw [recordsOf_ofRequest] at hone
    exact ⟨event, hone, htruth.ok.mpr hvalue⟩

end

/-- One `get` is served from the backend, another is denied. -/
def auditedRun : List Action :=
  Action.register ⟨"web", 0⟩ "/srv/web" "web" 0 ++ Action.connect ⟨⟨"web", 0⟩, 0⟩ ++
  Action.fetch ⟨⟨"web", 0⟩, 0⟩ "A" 0 ++ Action.denied ⟨⟨"web", 0⟩, 0⟩ "B" 1

theorem run_audit_truthful_twice : ∃ s tr,
    run webEnv (some 0) (fun _ => none) auditedRun = some (s, tr) ∧
    (recordsOf ⟨⟨⟨"web", 0⟩, 0⟩, 0⟩ tr).map (fun e => (e.decision, e.backend)) =
      [(.allow, some "fnox")] ∧
    (recordsOf ⟨⟨⟨"web", 0⟩, 0⟩, 1⟩ tr).map (fun e => (e.decision, e.backend)) = [(.deny, none)] ∧
    AuditedTrace tr := by
  have hfacts : (run webEnv (some 0) (fun _ => none) auditedRun).map (fun r =>
      ((recordsOf ⟨⟨⟨"web", 0⟩, 0⟩, 0⟩ r.2).map fun e => (e.decision, e.backend),
        (recordsOf ⟨⟨⟨"web", 0⟩, 0⟩, 1⟩ r.2).map fun e => (e.decision, e.backend))) =
      some ([(.allow, some "fnox")], [(.deny, none)]) := by decide +kernel
  obtain ⟨⟨s, tr⟩, hrun, htr⟩ := Option.map_eq_some_iff.mp hfacts
  obtain ⟨hfetched, hdenied⟩ := Prod.mk.inj htr
  exact ⟨s, tr, hrun, hfetched, hdenied, run_audit_truthful hrun⟩

end RemoBroker
