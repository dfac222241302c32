import RemoBroker.Shutdown.Whole

/-! An admin request that is answered with an error has changed nothing that the daemon holds in
memory: a request gets past its last fallible step before it changes anything. -/

namespace RemoBroker

/-- The registry, the projects with their manifests and caches, the handles of the accept loops and
the backend session are the same. -/
structure Daemon.SameMemory (s t : Daemon) : Prop where
  inner : t.inner = s.inner
  projects : t.projects = s.projects
  tasks : t.projectTasks = s.projectTasks
  backend : t.backend = s.backend

/-- The request has not yet come past its last fallible step. -/
def AdminTask.mayFail : AdminTask → Bool
  | .register _ | .locking _ _ _ | .unregister | .reload | .loading _ => true
  | _ => false

/-- The request is past its last fallible step. -/
def Daemon.Committed (s : Daemon) (id : AdminId) : Prop :=
  ∃ task, s.requests id = some task ∧ task.mayFail = false

def Daemon.Answered (s : Daemon) (id : AdminId) : Prop :=
  ∃ task, s.requests id = some task ∧ task.finished = true

section
variable {env : Env} {s t u : Daemon} {o tr : List Obs} {id id' : AdminId}
  {backend : Option Session} {stale : Daemon.Stale}

theorem AdminStep.memory_or_committed {a : AdminAction} (step : AdminStep env s id a t o) :
    s.SameMemory t ∨ t.Committed id ∧ ∀ e, .replied id (.error e) ∉ o := by
  cases step with
  | bound | spawned | inserted | removed | notified | taken | noTask | joined | timedOut | unlinked
  | configured | stored =>
    exact .inr ⟨⟨_, Function.update_self .., rfl⟩, by simp [fileObs]⟩
  | submit | registerFailed | registerLoaded | projectExists | bindFailed | unregisterUnknown
  | reloadUnknown | lookedUp | reloadFailed | reloadLoaded => exact .inl ⟨rfl, rfl, rfl, rfl⟩

theorem AdminStep.committed {a : AdminAction} (step : AdminStep env s id a t o)
    (h : s.Committed id) : t.Committed id ∧ ∀ e, .replied id (.error e) ∉ o := by
  obtain ⟨old, hold, hcommitted⟩ := h
  cases step with
  | spawned | inserted | notified | taken | noTask | joined | timedOut | unlinked | configured
  | stored => exact ⟨⟨_, Function.update_self .., rfl⟩, by simp⟩
  | submit task =>
    rw [task] at hold
    cases hold
  | registerFailed task | registerLoaded task | projectExists task | bindFailed task
  | bound task | unregisterUnknown task | removed task | reloadUnknown task | lookedUp task
  | reloadFailed task | reloadLoaded task =>
    rw [task] at hold
    cases hold
    cases hcommitted

theorem AdminStep.not_answered {a : AdminAction} (step : AdminStep env s id a t o) :
    ¬ s.Answered id := by
  rintro ⟨old, hold, hfinished⟩
  cases step with
  | submit task =>
    rw [task] at hold
    cases hold
  | _ task =>
    rw [task] at hold
    cases hold
    cases hfinished

theorem AdminStep.replied_id {a : AdminAction} {r : AdminResponse}
    (step : AdminStep env s id a t o) (h : .replied id' r ∈ o) : id' = id ∧ t.Answered id := by
  cases step with
  | registerFailed | projectExists | bindFailed | inserted | unregisterUnknown | unlinked
  | reloadUnknown | reloadFailed | stored =>
    have hid : id' = id := by
      simp [fileObs] at h
      exact h.1
    exact ⟨hid, _, Function.update_self .., rfl⟩
  | _ => simp [fileObs] at h

theorem Daemon.Committed.congr (h : s.Committed id) (heq : t.requests id = s.requests id) :
    t.Committed id := by
  obtain ⟨task, htask, hfail⟩ := h
  exact ⟨task, heq.trans htask, hfail⟩

theorem Daemon.Answered.congr (h : s.Answered id) (heq : t.requests id = s.requests id) :
    t.Answered id := by
  obtain ⟨task, htask, hfinished⟩ := h
  exact ⟨task, heq.trans htask, hfinished⟩

/-- A step other than one of the request or its drop leaves the request as it is, and no answer to
it is seen. -/
theorem WholeStep.request_cases {a : WholeAction} (step : WholeStep env s a t o) (id : AdminId) :
    (∃ b, AdminStep env s id b t o) ∨
    (t.requests id = some .aborted ∧ ∀ r, .replied id r ∉ o) ∨
      (t.requests id = s.requests id ∧ ∀ r, .replied id r ∉ o) := by
  cases step with
  | act step =>
    cases step with
    | @admin id' b _ _ step =>
      by_cases hid : id = id'
      · subst hid
        exact .inl ⟨b, step⟩
      · exact .inr (.inr ⟨step.request_other hid, fun r hr => hid (step.replied_id hr).1⟩)
    | conn _ _ step => exact .inr (.inr ⟨rfl, fun r => by cases step <;> simp⟩)
    | loop step => exact .inr (.inr ⟨by rw [step.frame.2.2.1], by simp⟩)
    | rotate | status | writer => exact .inr (.inr ⟨rfl, by simp⟩)
  | stilled still => exact .inr (.inr ⟨by rw [still.requests], by simp⟩)
  | taken => exact .inr (.inr ⟨rfl, by simp⟩)
  | unlinked _ still => exact .inr (.inr ⟨by rw [still.requests], by simp⟩)
  | @dropped id' =>
    by_cases hid : id = id'
    · subst hid
      exact .inr (.inl ⟨Function.update_self .., by simp⟩)
    · exact .inr (.inr ⟨Function.update_of_ne hid .., by simp⟩)

theorem WholeStep.committed {a : WholeAction} (step : WholeStep env s a t o)
    (h : s.Committed id) : t.Committed id ∧ ∀ e, .replied id (.error e) ∉ o := by
  rcases step.request_cases id with ⟨b, step⟩ | ⟨haborted, hr⟩ | ⟨heq, hr⟩
  · exact step.committed h
  · exact ⟨⟨.aborted, haborted, rfl⟩, fun e => hr (.error e)⟩
  · exact ⟨h.congr heq, fun e => hr (.error e)⟩

theorem WholeStep.answered {a : WholeAction} (step : WholeStep env s a t o)
    (h : s.Answered id ∨ ∃ r, .replied id r ∈ o) : t.Answered id := by
  rcases step.request_cases id with ⟨b, step⟩ | ⟨haborted, hr⟩ | ⟨heq, hr⟩
  · rcases h with h | ⟨r, hr⟩
    · exact absurd h step.not_answered
    · exact (step.replied_id hr).2
  · exact ⟨.aborted, haborted, rfl⟩
  · rcases h with h | ⟨r, hmem⟩
    · exact h.congr heq
    · exact absurd hmem (hr r)

/-- No error comes after a request is past its last fallible step. -/
theorem committed_run {as : List WholeAction} (h : s.Committed id)
    (hrun : Machine.exec (wholeStep env) s as = some (u, tr)) :
    ∀ e, .replied id (.error e) ∉ tr := by
  have hall : u.Committed id ∧ ∀ e, .replied id (.error e) ∉ tr := by
    refine Machine.exec_induction
      (I := fun tr s => s.Committed id ∧ ∀ e, .replied id (.error e) ∉ tr) ⟨h, by simp⟩ ?_ hrun
    rintro tr s a t o ⟨hcommitted, hno⟩ hstep
    obtain ⟨hcommitted', hno'⟩ := (wholeStep_cases hstep).committed hcommitted
    refine ⟨hcommitted', fun e hmem => ?_⟩
    rcases List.mem_append.mp hmem with hold | hnew
    · exact hno e hold
    · exact hno' e hnew
  exact hall.2

theorem wholeRun_answered {as : List WholeAction}
    (hrun : wholeRun env backend stale as = some (s, tr)) {r : AdminResponse}
    (h : .replied id r ∈ tr) : s.Answered id := by
  have hall : ∀ r, .replied id r ∈ tr → s.Answered id := by
    refine Machine.exec_induction (I := fun tr s => ∀ r, .replied id r ∈ tr → s.Answered id)
      (by simp) ?_ hrun
    intro tr s a t o hs hstep r hmem
    refine (wholeStep_cases hstep).answered ?_
    rcases List.mem_append.mp hmem with hold | hnew
    · exact .inl (hs r hold)
    · exact .inr ⟨r, hnew⟩
  exact hall r h

theorem rotateBootstrap_error {session : Option Session} {token : Except String Unit}
    {rebuilt : Except String Session} {e : AdminError}
    (h : (rotateBootstrap session token rebuilt).2 = .error e) :
    (rotateBootstrap session token rebuilt).1 = session := by
  cases session with
  | none => rfl
  | some session =>
    cases token with
    | error => rfl
    | ok =>
      cases rebuilt with
      | error => rfl
      | ok => cases h

/-- From every state that is reached: a step of a `register`, `unregister` or `reload` that is
answered with an error at any time changes nothing in memory, and so does a `rotate-bootstrap` that
fails; one that succeeds changes the backend session only. -/
theorem failed_request_keeps_memory {as : List WholeAction}
    (hrun : wholeRun env backend stale as = some (s, tr)) :
    (∀ id a t o bs u tr' e, wholeStep env s (.act (.admin id a)) = some (t, o) →
      Machine.exec (wholeStep env) t bs = some (u, tr') →
      .replied id (.error e) ∈ tr ++ o ++ tr' → s.SameMemory t) ∧
    (∀ token rebuilt t o, wholeStep env s (.act (.rotate token rebuilt)) = some (t, o) →
      (∀ e, .served (.error e) ∈ o → s.SameMemory t) ∧
      (.served .rotated ∈ o → t = { s with backend := t.backend })) := by
  constructor
  · intro id a t o bs u tr' e hstep hrest hfail
    have step : AdminStep env s id a t o := adminStep_cases hstep
    rcases step.memory_or_committed with hsame | ⟨hcommitted, hno⟩
    · exact hsame
    · exfalso
      rw [List.mem_append, List.mem_append] at hfail
      rcases hfail with (hbefore | hnow) | hafter
      · exact step.not_answered (wholeRun_answered hrun hbefore)
      · exact hno e hnow
      · exact committed_run hcommitted hrest e hafter
  · intro token rebuilt t o hstep
    have step : DaemonStep env s (.rotate token rebuilt) t o := step_cases hstep
    cases step with
    | rotate =>
      refine ⟨fun e hmem => ⟨rfl, rfl, rfl, rotateBootstrap_error (e := e) ?_⟩, fun _ => rfl⟩
      simpa [eq_comm] using hmem

end

/-- A `register` of the project `web` up to its lock. -/
def lockingRun : List WholeAction :=
  [.submit (.register "/srv/web"), .loadManifest (sampleDisk "web")].map fun a =>
    .act (.admin ⟨"web", 0⟩ a)

def failingBind : WholeAction :=
  .act (.admin ⟨"web", 0⟩ (.registerLocked 0 ⟨none, some "denied", none, 0o755⟩))

theorem failed_request_keeps_memory_bind : ∃ s tr t o,
    wholeRun webEnv none (fun _ => none) lockingRun = some (s, tr) ∧
    wholeStep webEnv s failingBind = some (t, o) ∧ s.SameMemory t := by
  have hfacts : ((wholeRun webEnv none (fun _ => none) lockingRun).bind fun r =>
      (wholeStep webEnv r.1 failingBind).map fun q => q.2.any fun x =>
        match x with
        | .replied id (.error _) => id = ⟨"web", 0⟩
        | _ => false) = some true := by decide +kernel
  obtain ⟨⟨s, tr⟩, hrun, hs⟩ := Option.bind_eq_some_iff.mp hfacts
  obtain ⟨⟨t, o⟩, hstep, ho⟩ := Option.map_eq_some_iff.mp hs
  obtain ⟨x, hx, hfail⟩ := List.any_eq_true.mp ho
  split at hfail
  · rename_i id e
    obtain rfl : id = ⟨"web", 0⟩ := by simpa using hfail
    exact ⟨s, tr, t, o, hrun, hstep, (failed_request_keeps_memory hrun).1 _ _ t o [] t [] e hstep
      rfl (by simp [hx])⟩
  · cases hfail

end RemoBroker
