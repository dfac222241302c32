import RemoBroker.Lifecycle.Slot

/-! The registry map, the socket files and the accept loops agree whenever no `register` or
`unregister` is in progress, provided that the registrations of one name do not overlap.  Without
the proviso they do not. -/

namespace RemoBroker

def AdminTask.inProgress : AdminTask → Bool
  | .register _ | .locking _ _ _ | .unregister => true
  | task => task.arriving || task.leaving

def Daemon.Quiescent (s : Daemon) : Prop :=
  ∀ id task, s.requests id = some task → task.inProgress = false

/-- The registry map, the socket files and the accept loops tell the same registrations. -/
structure Agreement (env : Env) (s : Daemon) : Prop where
  keyed : ∀ name reg, s.inner.lookup name = some reg → reg.name = name
  file : ∀ reg, s.inner.lookup reg.name = some reg ↔ s.Bound env reg
  task : ∀ reg, s.inner.lookup reg.name = some reg ↔
    s.projectTasks.lookup reg.name = some reg ∧ s.loopRunning reg = true
  loop : ∀ reg, s.loopAlive reg = true → s.inner.lookup reg.name = some reg

section
variable {env : Env} {s t : Daemon} {o : List Obs} {name : String} {reg : RegId}

/-- Every name that a project may have is at a slot. -/
def Slots (env : Env) (s : Daemon) : Prop :=
  ∀ name, isValidProjectName name = true → ∃ σ, Slot.Holds env s name σ

theorem Slots.initial {backend : Option Session} {stale : Daemon.Stale} :
    Slots env (Daemon.init env backend stale) := by
  intro name _
  refine ⟨none, rfl, rfl, ?_, fun _ _ _ => rfl, ?_, ?_, ?_, ?_⟩
  · intro reg hreg
    constructor
    · rintro ⟨mode, hfile⟩
      have hrec : Records env (Daemon.init env backend stale) := Records.initial
      cases (hrec.file _ _ _ hfile).2
    · rintro ⟨x, hx, -⟩
      cases hx
  · rintro x ⟨⟩
  · rintro x ⟨⟩
  · rintro x id ⟨⟩
  · intro id task _ _
    constructor
    · intro h
      cases h
    · rintro ⟨x, hx, -⟩
      cases hx

theorem Slots.step {a : Action} (h : Slots env s) (hrec : Records env s)
    (step : DaemonStep env s a t o) (hclean : NoOverlap s a) : Slots env t := by
  intro name hvalid
  obtain ⟨σ, hσ⟩ := h name hvalid
  cases step with
  | @admin id a _ _ step =>
    by_cases hname : name = id.name
    · subst hname
      exact hσ.admin hrec step hclean
    · exact ⟨σ, hσ.congr (step.sameName hrec hname hvalid)⟩
  | loop step => exact ⟨σ, hσ.loopStep step⟩
  | conn | rotate | status | writer =>
    exact ⟨σ, hσ.congr ⟨rfl, rfl, rfl, fun _ _ => rfl, fun _ _ _ _ => Iff.rfl⟩⟩

theorem AdminTask.window_of_quiet {task : AdminTask} (h : task.inProgress = false) :
    (task.arriving || task.leaving) = false := by
  cases task <;> first | rfl | cases h

/-- A name at rest is registered with everything in place, or not at all. -/
theorem Slot.Holds.rest {σ : Option Slot} (h : Slot.Holds env s name σ) (hquiet : s.Quiescent) :
    σ = none ∨ ∃ reg, σ = some ⟨reg, .done, .staying⟩ := by
  cases σ with
  | none => exact .inl rfl
  | some x =>
    have hno : ∀ id task, (id, task) ∉ x.pending := by
      intro id task hmem
      have hidle := AdminTask.window_of_quiet (hquiet id task (h.request_of_mem hmem))
      rcases List.mem_append.mp hmem with hboot | hleave
      · simp [(arriving_of_mem hboot).1] at hidle
      · simp [leaving_of_mem hleave] at hidle
    obtain ⟨reg, boot, leave⟩ := x
    right
    refine ⟨reg, ?_⟩
    cases boot with
    | spawning id => exact absurd (List.mem_append_left _ (List.mem_singleton_self _)) (hno id _)
    | inserting id => exact absurd (List.mem_append_left _ (List.mem_singleton_self _)) (hno id _)
    | done =>
      cases leave with
      | staying => rfl
      | notifying id | taking id | joining id | unlinking id =>
        exact absurd (List.mem_append_right _ (List.mem_singleton_self _)) (hno id _)

theorem Daemon.Untouched.running (h : s.Untouched reg) : s.loopRunning reg = true := by
  obtain ⟨t, l, hloop, hstate, -, hrunning⟩ := h
  simp [Daemon.loopRunning, hloop, LoopTask.running, hstate, hrunning]

theorem Records.valid_of_shown (hrec : Records env s)
    (h : s.inner.lookup reg.name = some reg ∨ s.Bound env reg ∨
      s.projectTasks.lookup reg.name = some reg ∨ s.loopAlive reg = true) :
    isValidProjectName reg.name = true := by
  apply hrec.valid_name
  rcases h with hinner | ⟨mode, hfile⟩ | htask | hloop
  · exact (hrec.inner _ _ hinner).2
  · exact (hrec.file _ _ _ hfile).2
  · exact (hrec.tasks _ _ htask).2
  · apply hrec.loop
    unfold Daemon.loopAlive at hloop
    cases hl : s.loops reg with
    | none => simp [hl] at hloop
    | some t => rfl

/-- At rest, each registration is in the map, has its file, its handle and its running loop, or has
none of them. -/
theorem Slots.at_rest (h : Slots env s) (hquiet : s.Quiescent)
    (hvalid : isValidProjectName reg.name = true) :
    (s.inner.lookup reg.name = some reg ∧ s.Bound env reg ∧
      s.projectTasks.lookup reg.name = some reg ∧ s.loopRunning reg = true) ∨
    (s.inner.lookup reg.name ≠ some reg ∧ ¬ s.Bound env reg ∧
      s.projectTasks.lookup reg.name ≠ some reg ∧ s.loopAlive reg = false) := by
  obtain ⟨σ, hσ⟩ := h reg.name hvalid
  rcases hσ.rest hquiet with rfl | ⟨reg', rfl⟩
  · refine .inr ⟨by simp [hσ.inner, Slot.mapped], ?_, by simp [hσ.tasks, Slot.handle],
      hσ.others reg rfl (by simp)⟩
    rw [hσ.file reg rfl]
    simp
  · by_cases hreg : reg' = reg
    · subst hreg
      refine .inl ⟨hσ.inner, ?_, hσ.tasks, (hσ.own _ rfl).2.running⟩
      rw [hσ.file reg' rfl]
      exact ⟨_, rfl, rfl⟩
    · refine .inr ⟨by simpa [hσ.inner, Slot.mapped] using hreg, ?_,
        by simpa [hσ.tasks, Slot.handle] using hreg, hσ.others reg rfl (by simpa using hreg)⟩
      rw [hσ.file reg rfl]
      simpa using hreg

theorem Slots.agreement (h : Slots env s) (hrec : Records env s) (hquiet : s.Quiescent) :
    Agreement env s := by
  constructor
  · exact fun name reg found => (hrec.inner name reg found).1
  · intro reg
    constructor
    · intro hinner
      rcases h.at_rest hquiet (hrec.valid_of_shown (.inl hinner)) with up | down
      · exact up.2.1
      · exact absurd hinner down.1
    · intro hbound
      rcases h.at_rest hquiet (hrec.valid_of_shown (.inr (.inl hbound))) with up | down
      · exact up.1
      · exact absurd hbound down.2.1
  · intro reg
    constructor
    · intro hinner
      rcases h.at_rest hquiet (hrec.valid_of_shown (.inl hinner)) with up | down
      · exact up.2.2
      · exact absurd hinner down.1
    · rintro ⟨htask, -⟩
      rcases h.at_rest hquiet (hrec.valid_of_shown (.inr (.inr (.inl htask)))) with up | down
      · exact up.1
      · exact absurd htask down.2.2.1
  · intro reg halive
    rcases h.at_rest hquiet (hrec.valid_of_shown (.inr (.inr (.inr halive)))) with up | down
    · exact up.1
    · cases halive.symm.trans down.2.2.2

/-- When registrations of one name do not overlap, the registry map, the socket files and the accept
loops agree in every state in which no `register` or `unregister` is in progress. -/
theorem run_registry_agrees {backend : Option Session} {stale : Daemon.Stale} {as : List Action}
    {tr : List Obs} (hrun : run env backend stale as = some (s, tr))
    (hclean : Machine.Along (step env) NoOverlap (Daemon.init env backend stale) as)
    (hquiet : s.Quiescent) : Agreement env s := by
  have h : Records env s ∧ Slots env s := by
    refine Machine.exec_invariant_along (I := fun s => Records env s ∧ Slots env s)
      ⟨Records.initial, Slots.initial⟩ ?_ hclean hrun
    intro s a t o h hguard hstep
    exact ⟨h.1.step (step_cases hstep), h.2.step h.1 (step_cases hstep) hguard⟩
  exact h.2.agreement h.1 hquiet

/-- `NoOverlap`, decided for a daemon whose admin requests are among `ids`. -/
def noOverlap (ids : List AdminId) (s : Daemon) (a : Action) : Bool :=
  a.adminId.all (· ∈ ids) && match a with
  | .admin id (.registerLocked _ _) =>
    ids.all fun id' => id'.name != id.name || (s.requests id').all fun task => !task.leaving
  | .admin id .takeTask =>
    ids.all fun id' => id'.name != id.name || (s.requests id').all fun task => !task.arriving
  | .admin _ (.unlinkSocket error) => error.isNone
  | _ => true

theorem noOverlap_iff {a : Action} {ids : List AdminId} (hs : s.RequestsIn ids)
    (h : noOverlap ids s a = true) : NoOverlap s a := by
  obtain ⟨-, h⟩ := Bool.and_eq_true_iff.mp h
  unfold NoOverlap
  split
  · intro id' task hid htask
    simpa [hid, htask] using List.all_eq_true.mp h id' (hs id' task htask)
  · intro id' task hid htask
    simpa [hid, htask] using List.all_eq_true.mp h id' (hs id' task htask)
  · simpa using h
  · trivial

theorem along_noOverlap {backend : Option Session} {stale : Daemon.Stale} {as : List Action}
    (ids : List AdminId)
    (h : Machine.checkAlong (step env) (noOverlap ids) (Daemon.init env backend stale) as = true) :
    Machine.Along (step env) NoOverlap (Daemon.init env backend stale) as := by
  refine Machine.along_of_check (I := Daemon.RequestsIn ids) ?_ ?_
    (fun s a hs => noOverlap_iff hs) h
  · intro id task htask
    cases htask
  · intro s a t o hs hg hstep
    refine hs.step (fun id hid => ?_) (step_cases hstep)
    obtain ⟨hin, -⟩ := Bool.and_eq_true_iff.mp hg
    simpa [hid] using hin

/-- `Quiescent`, decided for a daemon whose admin requests are among `ids`. -/
def quiescent (ids : List AdminId) (s : Daemon) : Bool :=
  ids.all fun id => (s.requests id).all fun task => !task.inProgress

theorem quiescent_iff {ids : List AdminId} (hs : s.RequestsIn ids) (h : quiescent ids s = true) :
    s.Quiescent := by
  intro id task htask
  simpa [htask] using List.all_eq_true.mp h id (hs id task htask)

end

def webIds : List AdminId := [⟨"web", 0⟩, ⟨"web", 1⟩, ⟨"web", 2⟩]

def successiveRun : List Action :=
  Action.register ⟨"web", 0⟩ "/srv/web" "web" 0 ++ Action.park ⟨"web", 0⟩ ++
  Action.unregister ⟨"web", 1⟩ ++ Action.stop ⟨"web", 0⟩ ++
  [.joinTask, .unlinkSocket none].map (.admin ⟨"web", 1⟩) ++
  Action.register ⟨"web", 2⟩ "/srv/web" "web" 1

/-- The second `register` comes while the `unregister` awaits the first accept loop. -/
def overlappingRun : List Action :=
  Action.register ⟨"web", 0⟩ "/srv/web" "web" 0 ++ Action.park ⟨"web", 0⟩ ++
  Action.unregister ⟨"web", 1⟩ ++ Action.register ⟨"web", 2⟩ "/srv/web" "web" 1 ++
  Action.stop ⟨"web", 0⟩ ++ [.joinTask, .unlinkSocket none].map (.admin ⟨"web", 1⟩)

theorem run_registry_agrees_successive : ∃ s tr,
    run webEnv none (fun _ => none) successiveRun = some (s, tr) ∧
    s.inner.lookup "web" = some ⟨"web", 1⟩ ∧ Agreement webEnv s := by
  have hfacts : (run webEnv none (fun _ => none) successiveRun).map
      (fun r => (r.1.inner.lookup "web", quiescent webIds r.1)) = some (some ⟨"web", 1⟩, true) := by
    decide +kernel
  obtain ⟨⟨s, tr⟩, hrun, hs⟩ := Option.map_eq_some_iff.mp hfacts
  obtain ⟨hinner, hquiet⟩ := Prod.mk.inj hs
  refine ⟨s, tr, hrun, hinner, run_registry_agrees hrun (along_noOverlap webIds (by decide +kernel))
    (quiescent_iff (run_requestsIn webIds (by decide) hrun) hquiet)⟩

/-- The unlink at the end of the `unregister` removes the socket of the new registration. -/
theorem registry_disagrees_overlapping : ∃ s tr,
    run webEnv none (fun _ => none) overlappingRun = some (s, tr) ∧
    s.Quiescent ∧ ¬ Agreement webEnv s := by
  have hfacts : (run webEnv none (fun _ => none) overlappingRun).map
      (fun r => (r.1.inner.lookup "web", r.1.files (socketPathFor webEnv.config.socketDir "web"),
        quiescent webIds r.1)) = some (some ⟨"web", 1⟩, none, true) := by
    decide +kernel
  obtain ⟨⟨s, tr⟩, hrun, hs⟩ := Option.map_eq_some_iff.mp hfacts
  simp only [Prod.mk.injEq] at hs
  obtain ⟨hinner, hfile, hquiet⟩ := hs
  refine ⟨s, tr, hrun, quiescent_iff (run_requestsIn webIds (by decide) hrun) hquiet, ?_⟩
  intro hagree
  obtain ⟨mode, hbound⟩ := (hagree.file ⟨"web", 1⟩).mp hinner
  rw [hfile] at hbound
  cases hbound

end RemoBroker
