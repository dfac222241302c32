import RemoBroker.Isolation

/-! Where the values come from that the daemon gives out.  A value that answers a `get` was returned
by the backend for the same name, to a call that was made on the same registration with the session
that was current at that moment: the one that the last successful `rotate-bootstrap` had installed.
The value is what that session answers at the moment at which the call returned.  A daemon without a
session gives out nothing. -/

namespace RemoBroker

/-- The session after an action. -/
def Action.install (backend : Option Session) : Action → Option Session
  | .rotate token rebuilt => (rotateBootstrap backend token rebuilt).1
  | _ => backend

/-- A call for `name` in the run `as`, with the session that was current then. -/
def CalledIn (env : Env) (backend : Option Session) (stale : Daemon.Stale) (as : List Action)
    (q : RequestId) (session : Session) (name : String) : Prop :=
  ∃ as₁ as₂ s tr t o, as = as₁ ++ .conn q.conn .call :: as₂ ∧
    run env backend stale as₁ = some (s, tr) ∧ step env s (.conn q.conn .call) = some (t, o) ∧
    .called q session name ∈ o ∧ as₁.foldl Action.install backend = some session

/-- The call of a request for `name` with `session` returns in the run `as`, at `at_`.  What was
observed until then is at the start of `pre`. -/
def ReturnedIn (env : Env) (backend : Option Session) (stale : Daemon.Stale) (as : List Action)
    (pre : List Obs) (q : RequestId) (session : Session) (name : String) (at_ : Instant) : Prop :=
  ∃ as₁ as₂ s tr conn start, as = as₁ ++ .conn q.conn (.return at_) :: as₂ ∧
    run env backend stale as₁ = some (s, tr) ∧ tr <+: pre ∧ s.conns q.conn = some conn ∧
    conn.served = q.seq ∧ conn.pc = .awaiting name start session

section
variable {env : Env} {backend : Option Session} {stale : Daemon.Stale} {as : List Action}
  {s t : Daemon} {tr o hist pre : List Obs} {q : RequestId} {session : Session}
  {name value : String} {pc : ConnPc} {at_ : Instant}

theorem DaemonStep.backend_eq {a : Action} (step : DaemonStep env s a t o) :
    t.backend = a.install s.backend := by
  cases step with
  | admin step => cases step <;> rfl
  | loop step => cases step <;> rfl
  | conn | rotate | status | writer => rfl

theorem run_backend (hrun : run env backend stale as = some (s, tr)) :
    s.backend = as.foldl Action.install backend :=
  Machine.exec_foldl (I := fun n s => s.backend = n) (n := backend) rfl
    (fun _ _ _ _ _ hs hstep => hs ▸ (step_cases hstep).backend_eq) hrun

theorem DaemonStep.called {a : Action} (step : DaemonStep env s a t o)
    (h : .called q session name ∈ o) : a = .conn q.conn .call ∧ s.backend = some session := by
  cases step with
  | admin step => cases step <;> simp [fileObs] at h
  | conn task project step =>
    cases step with
    | called pc configured =>
      cases List.mem_singleton.mp h
      exact ⟨rfl, configured⟩
    | _ => simp at h
  | loop => cases h
  | rotate | status => simp at h
  | writer => cases h

theorem run_called (hrun : run env backend stale as = some (s, tr))
    (h : .called q session name ∈ tr) : CalledIn env backend stale as q session name := by
  obtain ⟨pre, rest, htr⟩ := List.append_of_mem h
  have hpre : pre ++ [.called q session name] <+: tr := ⟨rest, by simp [htr]⟩
  obtain ⟨as₁, a, as₂, s₁, tr₁, t, o, rfl, hbefore, hstep, hmem, -⟩ := Machine.exec_shows hrun hpre
  obtain ⟨rfl, hsession⟩ := (step_cases hstep).called hmem
  exact ⟨as₁, as₂, s₁, tr₁, t, o, rfl, hbefore, hstep, hmem, run_backend hbefore ▸ hsession⟩

theorem ReturnedIn.mono {more : List Action} {pre' : List Obs}
    (h : ReturnedIn env backend stale as pre q session name at_) (hpre : pre <+: pre') :
    ReturnedIn env backend stale (as ++ more) pre' q session name at_ := by
  obtain ⟨as₁, as₂, s, tr, conn, start, rfl, hrun, htr, hrest⟩ := h
  exact ⟨as₁, as₂ ++ more, s, tr, conn, start, by simp, hrun, htr.trans hpre, hrest⟩

/-- A call that returned has been made. -/
theorem ReturnedIn.called (h : ReturnedIn env backend stale as pre q session name at_) :
    .called q session name ∈ pre := by
  obtain ⟨as₁, as₂, s, tr, conn, start, rfl, hrun, htr, hconn, hserved, hpc⟩ := h
  have hstage := (run_requests hrun).serving q.conn conn hconn (by simp [Conn.isClosed, hpc])
  rw [hpc, hserved] at hstage
  refine htr.subset (mem_ofRequest (q := q).mp ?_).1
  generalize ofRequest q tr = hist at hstage
  cases hstage with
  | awaiting allowed => simp [calledObs]

/-- Only the return of a call brings a connection to the insertion of a value. -/
theorem ConnStep.returned_of_inserting {backend : Option Session} {p p' : Project}
    {conn conn' : Conn} {a : ConnAction} {start : Instant}
    (step : ConnStep env backend q p conn a p' conn' o)
    (hpc : conn'.pc = .inserting name start value) :
    conn'.served = conn.served ∧ ∃ session at_, a = .return at_ ∧
      conn.pc = .awaiting name start session ∧ env.fnox session name at_ = .ok (some value) := by
  cases step with
  | @dispatched line start pc =>
    rcases dispatchProject_cases env p line start with ⟨r, heq⟩ | ⟨event, r, heq⟩ | ⟨n, heq⟩
    all_goals cases heq.symm.trans hpc
  | @lookedUp n start' now pc =>
    exfalso
    change afterLookup n start' _ = _ at hpc
    generalize (p.cache.get n now).2 = hit at hpc
    cases hit <;> cases hpc
  | @returned n start' session at_ pc =>
    change afterReturn env n start' _ = _ at hpc
    cases hanswer : env.fnox session n at_ with
    | error msg => simp [afterReturn, hanswer] at hpc
    | ok found =>
      cases found with
      | none => simp [afterReturn, hanswer] at hpc
      | some v =>
        simp only [afterReturn, hanswer, ConnPc.inserting.injEq] at hpc
        obtain ⟨rfl, rfl, rfl⟩ := hpc
        exact ⟨rfl, session, at_, rfl, pc, hanswer⟩
  | _ => cases hpc

/-- A step of another task, or of another connection, leaves a connection in the middle of a request
where it was. -/
theorem DaemonStep.conn_elsewhere {a : Action} {c : ConnId} {conn : Conn}
    (step : DaemonStep env s a t o) (ha : ∀ b, a ≠ .conn c b) (hconn : t.conns c = some conn)
    (hopen : conn.pc ≠ .closed) (hbusy : conn.pc ≠ .reading) :
    ∃ cancelled, s.conns c = some { conn with cancelled } := by
  by_cases hother : ∃ c' b, a = .conn c' b
  · obtain ⟨c', b, rfl⟩ := hother
    cases step with
    | conn task project step =>
      have hne : c ≠ c' := fun heq => ha b (heq ▸ rfl)
      change Function.update s.conns c' _ c = _ at hconn
      rw [Function.update_of_ne hne] at hconn
      exact ⟨conn.cancelled, hconn⟩
  · rcases step.conn_before (fun c' b hb => hother ⟨c', b, hb⟩) hconn with hold | hpc | hpc
    · exact hold
    · exact absurd hpc hopen
    · exact absurd hpc hbusy

/-- A value that a connection is about to insert was returned to its call. -/
theorem run_inserting {c : ConnId} {conn : Conn} {start : Instant}
    (hrun : run env backend stale as = some (s, tr)) (hconn : s.conns c = some conn)
    (hpc : conn.pc = .inserting name start value) :
    ∃ session at_, ReturnedIn env backend stale as tr ⟨c, conn.served⟩ session name at_ ∧
      env.fnox session name at_ = .ok (some value) := by
  induction as using List.reverseRecOn generalizing s tr conn with
  | nil =>
    cases hrun
    cases hconn
  | append_singleton as a ih =>
    obtain ⟨s', tr', o, hbefore, hstep, rfl⟩ := Machine.exec_concat hrun
    have hstep := step_cases hstep
    by_cases hown : ∃ b, a = .conn c b
    · obtain ⟨b, rfl⟩ := hown
      cases hstep with
      | conn task project step =>
        change Function.update s'.conns c _ c = _ at hconn
        rw [Function.update_self] at hconn
        cases hconn
        obtain ⟨hserved, session, at_, rfl, hawaiting, hanswer⟩ := step.returned_of_inserting hpc
        exact ⟨session, at_, ⟨as, [], s', tr', _, start, rfl, hbefore, List.prefix_append tr' o,
          task, hserved.symm, hawaiting⟩, hanswer⟩
    · obtain ⟨cancelled, hold⟩ := hstep.conn_elsewhere (fun b hb => hown ⟨b, hb⟩) hconn
        (by simp [hpc]) (by simp [hpc])
      obtain ⟨session, at_, hreturned, hanswer⟩ := ih hbefore hold hpc
      exact ⟨session, at_, hreturned.mono (List.prefix_append tr' o), hanswer⟩

theorem DaemonStep.inserted {a : Action} (step : DaemonStep env s a t o)
    (h : .inserted q name value ∈ o) :
    ∃ conn start, s.conns q.conn = some conn ∧ conn.served = q.seq ∧
      conn.pc = .inserting name start value := by
  cases step with
  | admin step => cases step <;> simp [fileObs] at h
  | conn task project step =>
    cases step with
    | inserted pc =>
      cases List.mem_singleton.mp h
      exact ⟨_, _, task, rfl, pc⟩
    | _ => simp at h
  | loop => cases h
  | rotate | status => simp at h
  | writer => cases h

/-- A value that was inserted was returned by the backend before. -/
theorem run_inserted (hrun : run env backend stale as = some (s, tr)) (hpre : pre <+: tr)
    (h : .inserted q name value ∈ pre) :
    ∃ session at_, ReturnedIn env backend stale as pre q session name at_ ∧
      env.fnox session name at_ = .ok (some value) := by
  obtain ⟨before, rest, rfl⟩ := List.append_of_mem h
  have hbefore : before ++ [.inserted q name value] <+: tr :=
    List.IsPrefix.trans ⟨rest, by simp⟩ hpre
  obtain ⟨as₁, a, as₂, s₁, tr₁, t, o, rfl, hrun₁, hstep, hmem, htr₁⟩ :=
    Machine.exec_shows hrun hbefore
  obtain ⟨conn, start, hconn, hserved, hpc⟩ := (step_cases hstep).inserted hmem
  obtain ⟨session, at_, hreturned, hanswer⟩ := run_inserting hrun₁ hconn hpc
  rw [hserved] at hreturned
  exact ⟨session, at_, hreturned.mono (htr₁.trans (List.prefix_append before _)), hanswer⟩

/-- A value that is given out was inserted, by the request itself or by one that it has a hit of. -/
theorem Stage.source_of_value {g : GetResponse} (stage : Stage env q (.responding (.get g)) hist) :
    ∃ name value ttl, g = .utf8 value ttl ∧ .received q (.ok (.get name)) ∈ hist ∧
      (.inserted q name value ∈ hist ∨
        ∃ now e, .lookedUp q name now (some e) ∈ hist ∧ e.value = value) := by
  generalize hr : ProjectResponse.get g = r at stage
  cases stage with
  | direct direct => cases direct <;> cases hr
  | @recorded _ name _ _ _ _ _ fetch =>
    cases fetch with
    | @hit _ m start now e ttl allowed =>
      cases hr
      exact ⟨name, e.value, ttl, rfl, by simp [askedObs], .inr ⟨now, e, by simp, rfl⟩⟩
    | @fetched _ m start now session at_ value ttl allowed answer =>
      cases hr
      exact ⟨name, value, ttl, rfl, by simp [askedObs, calledObs], .inl (by simp)⟩
    | _ => cases hr

/-- A value that is given out was inserted before, on the same registration, for the name that was
asked for. -/
theorem run_given (hrun : run env backend stale as = some (s, tr)) {g : GetResponse}
    (hpre : pre ++ [.writing q (.get g)] <+: tr) :
    ∃ name value ttl q', g = .utf8 value ttl ∧ .received q (.ok (.get name)) ∈ pre ∧
      q'.conn.reg = q.conn.reg ∧ .inserted q' name value ∈ pre := by
  have hreq := run_requests hrun
  obtain ⟨name, value, ttl, hg, hreceived, hsource⟩ := (hreq.responding hpre).source_of_value
  have hget := (mem_ofRequest.mp hreceived).1
  rcases hsource with hinserted | ⟨now, e, hhit, rfl⟩
  · exact ⟨name, value, ttl, q, hg, hget, rfl, (mem_ofRequest.mp hinserted).1⟩
  · -- the entry of a hit was inserted by an earlier request
    obtain ⟨before, rest, rfl⟩ := List.append_of_mem (mem_ofRequest.mp hhit).1
    have hbefore : before ++ [.lookedUp q name now (some e)] <+: tr := by
      refine List.IsPrefix.trans ⟨rest ++ [.writing q (.get g)], ?_⟩ hpre
      simp
    obtain ⟨q', hreg, hinserted⟩ := (run_cachesOwn hrun).hit q name now e before hbefore
    exact ⟨name, e.value, ttl, q', hg, hget, hreg, List.mem_append_left _ hinserted⟩

/-- Every value that the daemon gives out was returned by the backend for the name that was asked
for, to an earlier call on the same registration, and that call was made with the session that was
current at that moment.  Without a session at the start nothing is ever given out. -/
theorem run_values_genuine (hrun : run env backend stale as = some (s, tr)) {g : GetResponse}
    (hpre : pre ++ [.writing q (.get g)] <+: tr) :
    backend ≠ none ∧ ∃ name value ttl q' session at_, g = .utf8 value ttl ∧
      .received q (.ok (.get name)) ∈ pre ∧ q'.conn.reg = q.conn.reg ∧
      .called q' session name ∈ pre ∧ CalledIn env backend stale as q' session name ∧
      ReturnedIn env backend stale as pre q' session name at_ ∧
      env.fnox session name at_ = .ok (some value) := by
  obtain ⟨name, value, ttl, q', hg, hget, hreg, hinserted⟩ := run_given hrun hpre
  obtain ⟨session, at_, hreturned, hanswer⟩ :=
    run_inserted hrun ((List.prefix_append pre _).trans hpre) hinserted
  have hin := run_called hrun (hpre.subset (List.mem_append_left _ hreturned.called))
  refine ⟨?_, name, value, ttl, q', session, at_, hg, hget, hreg, hreturned.called, hin, hreturned,
    hanswer⟩
  rintro rfl
  obtain ⟨as₁, as₂, -, -, -, -, -, -, -, -, hsession⟩ := hin
  have hnone : ∀ l : List Action, l.foldl Action.install none = none := by
    intro l
    induction l with
    | nil => rfl
    | cons a l ih => cases a <;> exact ih
  cases (hnone as₁).symm.trans hsession

end

/-- The session is rotated between a fetch of a value and a hit on it. -/
def rotatedHitRun : List Action :=
  Action.register ⟨"web", 0⟩ "/srv/web" "web" 0 ++ Action.connect ⟨⟨"web", 0⟩, 0⟩ ++
    Action.fetch ⟨⟨"web", 0⟩, 0⟩ "A" 0 ++ [.rotate (.ok ()) (.ok 1)] ++
    Action.hit ⟨⟨"web", 0⟩, 0⟩ "A" 1

/-- The requests that are answered with a value. -/
def Obs.given : Obs → Option RequestId
  | .writing q (.get _) => some q
  | _ => none

theorem mem_of_given {tr : List Obs} {q : RequestId} (h : q ∈ tr.filterMap Obs.given) :
    ∃ pre g, pre ++ [.writing q (.get g)] <+: tr := by
  obtain ⟨x, hx, hq⟩ := List.mem_filterMap.mp h
  obtain ⟨g, rfl⟩ : ∃ g, x = .writing q (.get g) := by
    unfold Obs.given at hq
    split at hq
    · cases hq
      exact ⟨_, rfl⟩
    · cases hq
  obtain ⟨pre, rest, rfl⟩ := List.append_of_mem hx
  exact ⟨pre, g, rest, by simp⟩

theorem run_values_genuine_rotated : ∃ s tr pre g,
    run webEnv (some 0) (fun _ => none) rotatedHitRun = some (s, tr) ∧ s.backend = some 1 ∧
    pre ++ [.writing ⟨⟨⟨"web", 0⟩, 0⟩, 1⟩ (.get g)] <+: tr ∧
    ∃ name value ttl q' session at_, g = .utf8 value ttl ∧
      .received ⟨⟨⟨"web", 0⟩, 0⟩, 1⟩ (.ok (.get name)) ∈ pre ∧ q'.conn.reg = ⟨"web", 0⟩ ∧
      .called q' session name ∈ pre ∧
      CalledIn webEnv (some 0) (fun _ => none) rotatedHitRun q' session name ∧
      ReturnedIn webEnv (some 0) (fun _ => none) rotatedHitRun pre q' session name at_ ∧
      webEnv.fnox session name at_ = .ok (some value) := by
  have hfacts : (run webEnv (some 0) (fun _ => none) rotatedHitRun).map
      (fun r => (r.1.backend, r.2.filterMap Obs.given)) =
      some (some 1, [⟨⟨⟨"web", 0⟩, 0⟩, 0⟩, ⟨⟨⟨"web", 0⟩, 0⟩, 1⟩]) := by
    decide +kernel
  obtain ⟨⟨s, tr⟩, hrun, hs⟩ := Option.map_eq_some_iff.mp hfacts
  obtain ⟨hbackend, hgiven⟩ := Prod.mk.inj hs
  have hmem : ⟨⟨⟨"web", 0⟩, 0⟩, 1⟩ ∈ tr.filterMap Obs.given := by
    rw [hgiven]
    decide
  obtain ⟨pre, g, hpre⟩ := mem_of_given hmem
  exact ⟨s, tr, pre, g, hrun, hbackend, hpre, (run_values_genuine hrun hpre).2⟩

end RemoBroker
