import RemoBroker.Shutdown.Clean

/-! The daemon with the effects that a shutdown has on it, each of them possible at any time and
with any outcome.  The runs of the server are among its runs, so what holds in all of them also
holds while a shutdown is under way. -/

namespace RemoBroker

inductive WholeAction where
  | act (a : Action)
  | notify (reg : RegId)
  /-- `mem::take` of `project_tasks`. -/
  | take
  | abort (reg : RegId)
  /-- `remove_file` of the socket of a project, with the error it may end in. -/
  | unlink (reg : RegId) (error : Option String)
  /-- A request is dropped at an await. -/
  | dropRequest (id : AdminId)
  | unlinkAdmin

def wholeStep (env : Env) : Machine.Step Daemon WholeAction Obs := fun s a =>
  match a with
  | .act a => step env s a
  | .notify reg => some (s.notifyStop reg, [])
  | .take => some ({ s with projectTasks := ∅ }, [])
  | .abort reg => some (s.abortLoop reg, [])
  | .unlink reg error =>
    (s.projects reg).map fun p => (s.removeFile p.socketPath error, [.file .unlink p.socketPath])
  | .dropRequest id =>
    if (s.requests id).any AdminTask.awaits then some (s.setRequest id .aborted, []) else none
  | .unlinkAdmin => some (s.removeFile (adminPath env.config.socketDir) none, [])

/-- The runs of the daemon from its start, shutdown included. -/
def wholeRun (env : Env) (backend : Option Session) (stale : Daemon.Stale)
    (as : List WholeAction) : Option (Daemon × List Obs) :=
  Machine.exec (wholeStep env) (Daemon.init env backend stale) as

/-- An effect of the shutdown on what the registry holds: nothing, or the handles and one request
are dropped. -/
inductive WholeStep (env : Env) (s : Daemon) : WholeAction → Daemon → List Obs → Prop where
  | act {a t o} (step : DaemonStep env s a t o) : WholeStep env s (.act a) t o
  | stilled {a t} (still : Daemon.Stilled s t) (backend : t.backend = s.backend)
      (files : ∀ path, path ≠ adminPath env.config.socketDir → t.files path = s.files path) :
      WholeStep env s a t []
  | taken : WholeStep env s .take { s with projectTasks := ∅ } []
  | unlinked {reg p error} (project : s.projects reg = some p)
      (still : Daemon.Stilled s (s.removeFile p.socketPath error)) :
      WholeStep env s (.unlink reg error) (s.removeFile p.socketPath error)
        [.file .unlink p.socketPath]
  | dropped {id} (awaits : (s.requests id).any AdminTask.awaits = true) :
      WholeStep env s (.dropRequest id) (s.setRequest id .aborted) []

section
variable {env : Env} {s t u : Daemon} {o tr : List Obs} {backend : Option Session}
  {stale : Daemon.Stale}

theorem Daemon.Stilled.removeFile_any {path : String} (error : Option String) :
    Daemon.Stilled s (s.removeFile path error) := by
  cases error with
  | none => exact .removeFile
  | some e => exact ⟨rfl, rfl, rfl, rfl, fun _ h => h, fun _ h => h, fun _ h => h, fun _ _ h => h⟩

theorem wholeStep_cases {a : WholeAction} (h : wholeStep env s a = some (t, o)) :
    WholeStep env s a t o := by
  cases a with
  | act a => exact .act (step_cases h)
  | notify reg =>
    cases h
    exact .stilled .notifyStop rfl fun _ _ => rfl
  | take =>
    cases h
    exact .taken
  | abort reg =>
    cases h
    exact .stilled .abortLoop rfl fun _ _ => rfl
  | unlink reg error =>
    obtain ⟨p, hp, heq⟩ := Option.map_eq_some_iff.mp h
    cases heq
    exact .unlinked hp (.removeFile_any error)
  | dropRequest id =>
    simp only [wholeStep] at h
    split at h
    · cases h
      exact .dropped ‹_›
    · cases h
  | unlinkAdmin =>
    cases h
    exact .stilled .removeFile rfl fun path hpath => by simp [hpath]

theorem Records.whole {a : WholeAction} (h : Records env s) (step : WholeStep env s a t o) :
    Records env t := by
  cases step with
  | act step => exact h.step step
  | stilled still => exact still.records h
  | taken => exact h.take
  | unlinked _ still => exact still.records h
  | dropped => exact h.drop

theorem wholeRun_records {as : List WholeAction}
    (hrun : wholeRun env backend stale as = some (s, tr)) : Records env s :=
  Machine.exec_invariant Records.initial (fun _ _ _ _ h hs => h.whole (wholeStep_cases hs)) hrun

end

theorem Server.step_act {env : Env} {x y : Server} {a : Action} {o : List Obs}
    (h : Server.step env x (.act a) = some (y, o)) :
    RemoBroker.step env x.daemon a = some (y.daemon, o) := by
  simp only [Server.step] at h
  split at h
  · obtain ⟨⟨t, o⟩, hstep, heq⟩ := Option.map_eq_some_iff.mp h
    cases heq
    exact hstep
  · cases h

/-- Each step of the server is at most one step of the whole daemon, which shows as much. -/
theorem Server.step_whole {env : Env} {x y : Server} {a : ShutdownAction} {o : List Obs}
    (h : Server.step env x a = some (y, o)) :
    (y.daemon = x.daemon ∧ o = []) ∨
      ∃ b o', wholeStep env x.daemon b = some (y.daemon, o') ∧ o ⊆ o' := by
  cases Server.step_cases h with
  | @act a => exact .inr ⟨.act a, o, Server.step_act h, List.Subset.refl o⟩
  | sigterm | begin | joined | listed | drain | drained => exact .inl ⟨rfl, rfl⟩
  | @notified reg => exact .inr ⟨.notify reg, [], rfl, List.Subset.refl []⟩
  | taken => exact .inr ⟨.take, [], rfl, List.Subset.refl []⟩
  | @aborted reg => exact .inr ⟨.abort reg, [], rfl, List.Subset.refl []⟩
  | @unlinked reg =>
    cases hp : x.daemon.projects reg with
    | none => exact .inl ⟨by simp [Server.removeSocket, hp], rfl⟩
    | some p =>
      refine .inr ⟨.unlink reg none, [.file .unlink p.socketPath], ?_, List.nil_subset _⟩
      simp [wholeStep, Server.removeSocket, hp]
  | @dropped id _ awaits =>
    refine .inr ⟨.dropRequest id, [], ?_, List.Subset.refl []⟩
    simp [wholeStep, awaits]
  | adminUnlinked => exact .inr ⟨.unlinkAdmin, [], rfl, List.Subset.refl []⟩

/-- The runs of the server are among the runs of the whole daemon. -/
theorem Server.run_whole {env : Env} {backend : Option Session} {stale : Daemon.Stale}
    {as : List ShutdownAction} {x : Server} {tr : List Obs}
    (hrun : Machine.exec (Server.step env) (Server.start env backend stale) as = some (x, tr)) :
    ∃ bs tr', wholeRun env backend stale bs = some (x.daemon, tr') ∧ tr ⊆ tr' := by
  refine Machine.exec_induction (I := fun tr x =>
    ∃ bs tr', wholeRun env backend stale bs = some (x.daemon, tr') ∧ tr ⊆ tr') ?_ ?_ hrun
  · exact ⟨[], [], rfl, by simp⟩
  · rintro tr x a y o ⟨bs, tr', hbs, hsub⟩ hstep
    rcases Server.step_whole hstep with ⟨heq, rfl⟩ | ⟨b, o', hb, ho⟩
    · exact ⟨bs, tr', by rw [hbs, heq], by simpa using hsub⟩
    · have hone : Machine.exec (wholeStep env) x.daemon [b] = some (y.daemon, o') :=
        Machine.exec_cons_iff.mpr ⟨y.daemon, o', [], hb, rfl, (List.append_nil o').symm⟩
      refine ⟨bs ++ [b], tr' ++ o', Machine.exec_append hbs hone, ?_⟩
      exact List.append_subset.mpr ⟨List.subset_append_of_subset_left _ hsub,
        List.subset_append_of_subset_right _ ho⟩

end RemoBroker
