import RemoBroker.Daemon.Request

/-! The allowlist.  The manifest of a registration changes by the stores of `register` and
`reload`; a `get` is decided by the manifest that is current when it is dispatched, and whatever
happens to it afterwards, in any interleaving, follows from that decision. -/

namespace RemoBroker

/-- The manifest that an observation makes the current one of a registration. -/
def Obs.storedOn (reg : RegId) : Obs → Option Manifest
  | .stored reg' m => if reg' = reg then some m else none
  | _ => none

/-- The current manifest of a registration after a trace: the last one stored. -/
def current (reg : RegId) (tr : List Obs) : Option Manifest :=
  tr.reverse.findSome? (Obs.storedOn reg)

/-- The manifests of a run: the trace tells the current ones, all of them passed `validate`, and
the manifest that a request is dispatched with is the current one at that moment. -/
structure Manifests (tr : List Obs) (s : Daemon) : Prop where
  current_eq : ∀ reg, current reg tr = (s.projects reg).map Project.manifest
  held : ∀ id task m, s.requests id = some task → task.manifest = some m → m.Validated
  validated : ∀ reg m, .stored reg m ∈ tr → m.Validated
  loaded : ∀ pre q m, pre ++ [.dispatched q m] <+: tr → current q.conn.reg pre = some m

section
variable {env : Env} {s t : Daemon} {tr o pre : List Obs} {reg : RegId} {id : AdminId}
  {q : RequestId} {m : Manifest}

@[simp] theorem current_nil : current reg [] = none := rfl

theorem current_append : current reg (tr ++ o) = (current reg o).or (current reg tr) := by
  simp [current, List.findSome?_append]

@[simp] theorem current_cons {x : Obs} :
    current reg (x :: tr) = (current reg tr).or (Obs.storedOn reg x) := by
  rw [← List.singleton_append, current_append]
  simp [current]

theorem current_eq_none (h : ∀ x ∈ o, Obs.storedOn reg x = none) : current reg o = none := by
  simpa [current] using h

theorem stored_mem_of_current (h : current reg tr = some m) : .stored reg m ∈ tr := by
  obtain ⟨x, hx, hstored⟩ := List.exists_of_findSome?_eq_some h
  cases x with
  | stored reg' m' =>
    simp only [Obs.storedOn, Option.ite_none_right_eq_some, Option.some.injEq] at hstored
    obtain ⟨rfl, rfl⟩ := hstored
    exact List.mem_reverse.mp hx
  | _ => cases hstored

theorem current_fileObs {path : String} {ops : List FileOp} :
    current reg (fileObs path ops) = none := by
  apply current_eq_none
  intro x hx
  obtain ⟨op, -, rfl⟩ := List.mem_map.mp hx
  rfl

theorem AdminStep.current_eq {a : AdminAction} (step : AdminStep env s id a t o) :
    (current reg o).or ((s.projects reg).map Project.manifest) =
      (t.projects reg).map Project.manifest := by
  cases step with
  | @bound path m mp gen out files ops task absent fresh bind =>
    rw [current_append, current_fileObs, Option.or_none]
    by_cases hreg : reg = ⟨id.name, gen⟩
    · subst hreg
      simp [Obs.storedOn, Project.create]
    · simp [Obs.storedOn, hreg, Ne.symm hreg]
  | bindFailed =>
    rw [current_append, current_fileObs, Option.or_none]
    rfl
  | @configured reg' p m task project =>
    by_cases hreg : reg = reg'
    · subst hreg
      simp [project, Project.setConfig]
    · simp [hreg]
  | @stored reg' p m task project =>
    by_cases hreg : reg = reg'
    · subst hreg
      simp [Obs.storedOn]
    · simp [Obs.storedOn, hreg, Ne.symm hreg]
  | _ => rfl

theorem AdminStep.stored_mem {a : AdminAction} (step : AdminStep env s id a t o)
    (h : .stored reg m ∈ o) : ∃ task, s.requests id = some task ∧ task.manifest = some m := by
  cases step with
  | bound task =>
    simp only [fileObs, List.mem_append, List.mem_map, reduceCtorEq, and_false, exists_false,
      List.mem_cons, Obs.stored.injEq, List.not_mem_nil, or_false, false_or] at h
    exact ⟨_, task, congrArg some h.2.symm⟩
  | stored task =>
    simp only [List.mem_cons, Obs.stored.injEq, reduceCtorEq, List.not_mem_nil, or_false] at h
    exact ⟨_, task, congrArg some h.2.symm⟩
  | bindFailed => simp [fileObs] at h
  | submit | registerFailed | registerLoaded | projectExists | spawned | inserted
  | unregisterUnknown | removed | notified | taken | noTask | joined | timedOut | unlinked
  | reloadUnknown | lookedUp | reloadFailed | reloadLoaded | configured => simp at h

theorem AdminStep.dispatched_notMem {a : AdminAction} (step : AdminStep env s id a t o) :
    .dispatched q m ∉ o := by
  intro h
  have hmem : .dispatched q m ∈ ofRequest q o := mem_ofRequest.mpr ⟨h, rfl⟩
  rw [step.ofRequest_eq] at hmem
  cases hmem

theorem Manifests.admin {a : AdminAction} (h : Manifests tr s)
    (step : AdminStep env s id a t o) : Manifests (tr ++ o) t := by
  constructor
  · intro reg
    rw [current_append, h.current_eq]
    exact step.current_eq
  · intro id' task' m htask' hm
    obtain ⟨task, hrequests, hheld⟩ := step.held
    rw [hrequests] at htask'
    rcases Function.update_some_cases htask' with ⟨rfl, rfl⟩ | ⟨-, hother⟩
    · rcases hheld m hm with ⟨-, hvalid⟩ | ⟨old, hold, hm⟩
      · exact hvalid
      · exact h.held _ _ _ hold hm
    · exact h.held _ _ _ hother hm
  · intro reg m hmem
    rcases List.mem_append.mp hmem with hold | hnew
    · exact h.validated reg m hold
    · obtain ⟨task, htask, hm⟩ := step.stored_mem hnew
      exact h.held _ _ _ htask hm
  · intro pre q m hpre
    rcases Machine.concat_prefix_append_cases hpre with hold | ⟨o', rfl, ho'⟩
    · exact h.loaded pre q m hold
    · exact absurd (Machine.mem_of_prefix_concat ho') step.dispatched_notMem

theorem ConnStep.dispatched_mem {backend : Option Session} {p p' : Project} {conn conn' : Conn}
    {a : ConnAction} {q' : RequestId} (step : ConnStep env backend q p conn a p' conn' o)
    (h : .dispatched q' m ∈ o) : q' = q ∧ m = p.manifest := by
  cases step <;> simp at h
  exact h

theorem ConnStep.storedOn_eq {backend : Option Session} {p p' : Project} {conn conn' : Conn}
    {a : ConnAction} (step : ConnStep env backend q p conn a p' conn' o) :
    ∀ x ∈ o, Obs.storedOn reg x = none := by
  cases step <;> simp [Obs.storedOn]

theorem Manifests.conn {c : ConnId} {conn conn' : Conn} {p p' : Project} {a : ConnAction}
    (h : Manifests tr s) (project : s.projects c.reg = some p)
    (step : ConnStep env s.backend ⟨c, conn.served⟩ p conn a p' conn' o)
    (hprojects : t.projects = Function.update s.projects c.reg (some p'))
    (hrequests : t.requests = s.requests) : Manifests (tr ++ o) t := by
  constructor
  · intro reg
    rw [current_append, current_eq_none step.storedOn_eq, Option.none_or, h.current_eq, hprojects]
    by_cases hreg : reg = c.reg
    · subst hreg
      rw [Function.update_self, project, step.project_eq]
      rfl
    · rw [Function.update_of_ne hreg]
  · exact hrequests ▸ h.held
  · intro reg m hmem
    rcases List.mem_append.mp hmem with hold | hnew
    · exact h.validated reg m hold
    · have hnone : Obs.storedOn reg (.stored reg m) = none := step.storedOn_eq _ hnew
      simp [Obs.storedOn] at hnone
  · intro pre q m hpre
    rcases Machine.concat_prefix_append_cases hpre with hold | ⟨o', rfl, ho'⟩
    · exact h.loaded pre q m hold
    · obtain ⟨rfl, rfl⟩ := step.dispatched_mem (Machine.mem_of_prefix_concat ho')
      have hnone : o' = [] := by
        have hlen := ho'.length_le
        rcases step.obs with rfl | ⟨x, rfl, -⟩
        · simp at hlen
        · simpa using hlen
      rw [hnone, List.append_nil, h.current_eq, project]
      rfl

theorem Manifests.frame (h : Manifests tr s) (hprojects : t.projects = s.projects)
    (hrequests : t.requests = s.requests) (hnew : ∀ x ∈ o, ∃ response, x = .served response) :
    Manifests (tr ++ o) t := by
  constructor
  · intro reg
    have hnone : current reg o = none := by
      apply current_eq_none
      intro x hx
      obtain ⟨response, rfl⟩ := hnew x hx
      rfl
    rw [current_append, hnone, Option.none_or, h.current_eq, hprojects]
  · exact hrequests ▸ h.held
  · intro reg m hmem
    rcases List.mem_append.mp hmem with hold | hmem
    · exact h.validated reg m hold
    · obtain ⟨response, hx⟩ := hnew _ hmem
      cases hx
  · intro pre q m hpre
    rcases Machine.concat_prefix_append_cases hpre with hold | ⟨o', rfl, ho'⟩
    · exact h.loaded pre q m hold
    · obtain ⟨response, hx⟩ := hnew _ (Machine.mem_of_prefix_concat ho')
      cases hx

theorem Manifests.step {a : Action} (h : Manifests tr s) (step : DaemonStep env s a t o) :
    Manifests (tr ++ o) t := by
  cases step with
  | admin step => exact h.admin step
  | conn task project step => exact h.conn project step rfl rfl
  | loop step => exact h.frame step.projects_eq step.frame.2.2.1 (by simp)
  | rotate | status | writer => exact h.frame rfl rfl (by simp)

theorem run_manifests {backend : Option Session} {stale : Daemon.Stale} {as : List Action}
    (hrun : run env backend stale as = some (s, tr)) : Manifests tr s := by
  refine Machine.exec_induction ?_ (fun _ _ _ _ _ h hs => h.step (step_cases hs)) hrun
  constructor
  · intro reg
    rfl
  · intro id task m htask
    cases htask
  · intro reg m hmem
    cases hmem
  · intro pre q m hpre
    simp at hpre

end

/-- `n` was on the validated, current manifest of the registration at a moment of `pre` at which
the `get` for it had been received. -/
def Permitted (q : RequestId) (n : String) (pre : List Obs) : Prop :=
  ∃ before m, before <+: pre ∧ .received q (.ok (.get n)) ∈ before ∧
    current q.conn.reg before = some m ∧ m.Validated ∧ n ∈ m.allowlist.secrets

/-- How a `get` for `n` goes that is decided by `m`: without a lookup, a call or a response other
than `denied` when `m` does not allow `n`, and then the connection is able to answer `denied` by its
own steps; without a `denied` response when `m` allows it. -/
structure Decided (env : Env) (s : Daemon) (tr : List Obs) (q : RequestId) (n : String)
    (m : Manifest) : Prop where
  absent : n ∉ m.allowlist.secrets → ∀ x ∈ tr, x.request = some q →
    x.consults = false ∧ ∀ r, x.response = some r → r = deniedResponse env.debug n
  answerable : n ∉ m.allowlist.secrets → ∀ conn, s.conns q.conn = some conn →
    conn.served = q.seq → conn.isClosed = false →
    ∃ bs t tr', Machine.exec (step env) s bs = some (t, tr') ∧
      .answered q (deniedResponse env.debug n) ∈ tr'
  allowed : n ∈ m.allowlist.secrets → ∀ x ∈ tr, x.request = some q →
    ∀ r, x.response = some r → r.code ≠ some .denied

section
variable {env : Env} {s : Daemon} {tr pre : List Obs} {q : RequestId} {n : String} {m : Manifest}

theorem permitted_of_asked (hreq : Requests env tr s) (hman : Manifests tr s) (hpre : pre <+: tr)
    (hasked : askedObs q n m <+: ofRequest q pre) (allowed : n ∈ m.allowlist.secrets) :
    Permitted q n pre := by
  have hmem : .dispatched q m ∈ pre :=
    (mem_ofRequest.mp (hasked.subset (by simp [askedObs]))).1
  obtain ⟨before, after, rfl⟩ := List.append_of_mem hmem
  have hdispatch : before ++ [.dispatched q m] <+: tr :=
    List.IsPrefix.trans (by simp) hpre
  have hlife := hreq.life q _ hdispatch
  have hself : ofRequest q [.dispatched q m] = [.dispatched q m] := by simp [ofRequest, Obs.request]
  rw [ofRequest_append, hself] at hlife
  obtain ⟨line, hline⟩ := hlife.dispatched_inv
  have hreceived : .received q (.ok (.get n)) ∈ before := by
    obtain ⟨rest, hrest⟩ := hasked
    rw [ofRequest_append, hline] at hrest
    have : line = .ok (.get n) := by simpa [askedObs, eq_comm] using (List.cons.inj hrest).1
    subst this
    exact (mem_ofRequest.mp (hline ▸ List.mem_singleton_self _)).1
  have hcurrent := hman.loaded _ _ _ hdispatch
  have hbefore : before <+: tr := List.IsPrefix.trans (List.prefix_append _ _) hdispatch
  exact ⟨before, m, List.prefix_append _ _, hreceived, hcurrent,
    hman.validated _ _ (hbefore.subset (stored_mem_of_current hcurrent)), allowed⟩

theorem permitted_of_called {session : Session} (hreq : Requests env tr s) (hman : Manifests tr s)
    (hpre : pre ++ [.called q session n] <+: tr) : Permitted q n pre := by
  have hlife := hreq.life q _ hpre
  have hself : ofRequest q [.called q session n] = [.called q session n] := by
    simp [ofRequest, Obs.request]
  rw [ofRequest_append, hself] at hlife
  obtain ⟨m, now, hist, allowed⟩ := hlife.called_inv
  exact permitted_of_asked hreq hman (List.IsPrefix.trans (List.prefix_append _ _) hpre)
    (hist ▸ List.prefix_append _ _) allowed

theorem permitted_of_value {x : Obs} {g : GetResponse} (hreq : Requests env tr s)
    (hman : Manifests tr s) (hpre : pre ++ [x] <+: tr) (hx : x.request = some q)
    (hg : x.response = some (.get g)) :
    ∃ n, Permitted q n pre ∧ ∀ line, .received q line ∈ tr → line = .ok (.get n) := by
  have hlife := hreq.life q _ hpre
  have hself : ofRequest q [x] = [x] := by simp [ofRequest, hx]
  rw [ofRequest_append, hself] at hlife
  obtain ⟨h', hinit, stage⟩ := hlife.response_inv hg
  obtain ⟨n, m, hasked, allowed⟩ := stage.responding_value
  have hpermitted := permitted_of_asked hreq hman
    (List.IsPrefix.trans (List.prefix_append _ _) hpre) (hasked.trans hinit) allowed
  refine ⟨n, hpermitted, fun line hline => ?_⟩
  obtain ⟨before, -, hbefore, hreceived, -⟩ := hpermitted
  have hold : .received q (.ok (.get n)) ∈ tr :=
    hpre.subset (List.mem_append_left _ (hbefore.subset hreceived))
  exact (hreq.life q tr List.prefix_rfl).received_unique (mem_ofRequest.mpr ⟨hline, rfl⟩)
    (mem_ofRequest.mpr ⟨hold, rfl⟩)

theorem decided_of_dispatched {m' : Manifest} (hrec : Records env s) (hreq : Requests env tr s)
    (hman : Manifests tr s) (hpre : pre ++ [.dispatched q m'] <+: tr)
    (hreceived : .received q (.ok (.get n)) ∈ pre) (hcurrent : current q.conn.reg pre = some m) :
    Decided env s tr q n m := by
  obtain rfl : m' = m := Option.some.inj ((hman.loaded _ _ _ hpre).symm.trans hcurrent)
  have hlife := hreq.life q tr List.prefix_rfl
  have hr : .received q (.ok (.get n)) ∈ ofRequest q tr :=
    mem_ofRequest.mpr ⟨hpre.subset (List.mem_append_left _ hreceived), rfl⟩
  have hd : .dispatched q m' ∈ ofRequest q tr :=
    mem_ofRequest.mpr ⟨hpre.subset (by simp), rfl⟩
  constructor
  · intro absent x hx hxq
    exact hlife.denied_of_absent hr hd absent x (mem_ofRequest.mpr ⟨hx, hxq⟩)
  · intro absent conn hconn hserved hopen
    have stage := hreq.serving q.conn conn hconn hopen
    obtain ⟨c, seq⟩ := q
    subst hserved
    obtain ⟨p, hp⟩ := Option.isSome_iff_exists.mp (hrec.conn c (by simp [hconn]))
    exact answer_response hconn hp ((stage.response_of_asked hr hd).1 absent).1
  · intro allowed x hx hxq
    exact hlife.not_denied_of_allowed hr hd allowed x (mem_ofRequest.mpr ⟨hx, hxq⟩)

/-- In every run, whatever the schedule: the trace tells the manifest that each registration has;
the backend is called for a name, and a value is written or answered, only for a `get` of a name
that the registration's manifest allowed at some moment since the request was received; and every
`get` is decided by the manifest that is current when it is dispatched. -/
theorem run_allowlist_safe {backend : Option Session} {stale : Daemon.Stale} {as : List Action}
    (hrun : run env backend stale as = some (s, tr)) :
    (∀ reg, current reg tr = (s.projects reg).map Project.manifest) ∧
    (∀ pre q session n, pre ++ [.called q session n] <+: tr → Permitted q n pre) ∧
    (∀ pre q x g, pre ++ [x] <+: tr → x.request = some q → x.response = some (.get g) →
      ∃ n, Permitted q n pre ∧ ∀ line, .received q line ∈ tr → line = .ok (.get n)) ∧
    (∀ pre q n m m', pre ++ [.dispatched q m'] <+: tr → .received q (.ok (.get n)) ∈ pre →
      current q.conn.reg pre = some m → Decided env s tr q n m) := by
  have hrec := run_records hrun
  have hreq := run_requests hrun
  have hman := run_manifests hrun
  refine ⟨hman.current_eq, ?_, ?_, ?_⟩
  · intro pre q session n hpre
    exact permitted_of_called hreq hman hpre
  · intro pre q x g hpre hx hg
    exact permitted_of_value hreq hman hpre hx hg
  · intro pre q n m m' hpre hreceived hcurrent
    exact decided_of_dispatched hrec hreq hman hpre hreceived hcurrent

end

/-- A project that is registered with `A` allowed and `A` cached, and reloaded without it. -/
def revokedRun : List Action :=
  Action.register ⟨"web", 0⟩ "/srv/web" "old" 0 ++ Action.connect ⟨⟨"web", 0⟩, 0⟩ ++
  Action.fetch ⟨⟨"web", 0⟩, 0⟩ "A" 5 ++ Action.reload ⟨"web", 1⟩ "new" ++
  Action.denied ⟨⟨"web", 0⟩, 0⟩ "A" 6

def revokedEnv : Env :=
  sampleEnv [("old", sampleManifest "web" ["A"]), ("new", sampleManifest "web" ["B"])]

theorem run_allowlist_safe_revoked : ∃ s tr,
    run revokedEnv (some 0) (fun _ => none) revokedRun = some (s, tr) ∧
    tr.filterMap Obs.response = [
      .get ⟨some "value", none, 900⟩, .get ⟨some "value", none, 900⟩,
      deniedResponse revokedEnv.debug "A", deniedResponse revokedEnv.debug "A"] ∧
    ∀ reg, current reg tr = (s.projects reg).map Project.manifest := by
  have hresponses : (run revokedEnv (some 0) (fun _ => none) revokedRun).map
      (·.2.filterMap Obs.response) = some [
      .get ⟨some "value", none, 900⟩, .get ⟨some "value", none, 900⟩,
      deniedResponse revokedEnv.debug "A", deniedResponse revokedEnv.debug "A"] := by
    decide +kernel
  obtain ⟨⟨s, tr⟩, hrun, htr⟩ := Option.map_eq_some_iff.mp hresponses
  exact ⟨s, tr, hrun, htr, (run_allowlist_safe hrun).1⟩

end RemoBroker
