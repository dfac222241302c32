import RemoBroker.Daemon.Records

/-! The admin socket.  The sockets of projects lie beside it, and the validator admits a project of
its name: as long as no such project is registered, nothing that is done for a project touches the
admin socket. -/

namespace RemoBroker

/-- The admin socket is as `bind_admin_socket` left it, no request has touched it, and the sockets
of the registered projects are distinct from each other and from it. -/
structure AdminIntact (env : Env) (tr : List Obs) (s : Daemon) : Prop where
  file : s.files (adminPath env.config.socketDir) = some ⟨.admin, adminSocketMode⟩
  untouched : ∀ op, .file op (adminPath env.config.socketDir) ∉ tr
  distinct : ∀ name name' reg reg' p p', s.inner.lookup name = some reg →
    s.inner.lookup name' = some reg' → s.projects reg = some p → s.projects reg' = some p' →
    name ≠ name' → p.socketPath ≠ p'.socketPath
  apart : ∀ name reg p, s.inner.lookup name = some reg → s.projects reg = some p →
    p.socketPath ≠ adminPath env.config.socketDir

/-- The step is not a `register` of the name `admin` in its locked section. -/
def avoidsAdmin : Action → Bool
  | .admin id (.registerLocked _ _) => id.name != "admin"
  | _ => true

theorem adminPath_eq (dir : String) : adminPath dir = socketPathFor dir "admin" := rfl

theorem admin_valid : isValidProjectName "admin" = true := by decide

section
variable {env : Env} {s t : Daemon} {tr o : List Obs} {id : AdminId} {reg : RegId}

theorem Records.distinct (h : Records env s) {name name' : String} {reg' : RegId} {p p' : Project}
    (found : s.inner.lookup name = some reg) (found' : s.inner.lookup name' = some reg')
    (hp : s.projects reg = some p) (hp' : s.projects reg' = some p') (hne : name ≠ name') :
    p.socketPath ≠ p'.socketPath := by
  obtain ⟨rfl, hsome⟩ := h.inner name reg found
  obtain ⟨rfl, hsome'⟩ := h.inner name' reg' found'
  rw [(h.project reg p hp).2.1, (h.project reg' p' hp').2.1]
  exact fun heq => hne (socketPathFor_injective (h.valid_name hsome) (h.valid_name hsome') heq)

theorem mem_fileObs {op : FileOp} {path p : String} {ops : List FileOp} :
    .file op path ∈ fileObs p ops ↔ op ∈ ops ∧ path = p := by
  simp [fileObs, eq_comm]

theorem AdminStep.file_mem {a : AdminAction} {op : FileOp} {path : String} (hrec : Records env s)
    (step : AdminStep env s id a t o) (h : .file op path ∈ o) :
    path = socketPathFor env.config.socketDir id.name ∧ isValidProjectName id.name = true ∧
      ((∃ gen out, a = .registerLocked gen out) ∨
        ∃ reg, s.requests id = some (.unlinking reg)) := by
  cases step with
  | bindFailed task | bound task =>
    have hpath : path = socketPathFor env.config.socketDir id.name := by
      rcases List.mem_append.mp h with hfile | hrest
      · exact (mem_fileObs.mp hfile).2
      · simp at hrest
    exact ⟨hpath, hrec.valid_locking task, .inl ⟨_, _, rfl⟩⟩
  | @unlinked reg p error task project =>
    obtain ⟨hreg, hsome⟩ := hrec.request id _ task reg (by simp [AdminTask.regs])
    have hmem : op = .unlink ∧ path = p.socketPath := by simpa using h
    rw [hmem.2, (hrec.project reg p project).2.1, hreg]
    exact ⟨rfl, hreg ▸ hrec.valid_name hsome, .inr ⟨reg, task⟩⟩
  | submit | registerFailed | registerLoaded | projectExists | spawned | inserted
  | unregisterUnknown | removed | notified | taken | noTask | joined | timedOut | reloadUnknown
  | lookedUp | reloadFailed | reloadLoaded | configured | stored => simp at h

/-- No registration has the name `admin`, and the socket is untouched. -/
structure AdminApart (env : Env) (tr : List Obs) (s : Daemon) : Prop where
  file : s.files (adminPath env.config.socketDir) = some ⟨.admin, adminSocketMode⟩
  untouched : ∀ op, .file op (adminPath env.config.socketDir) ∉ tr
  named : ∀ reg, (s.projects reg).isSome → reg.name ≠ "admin"

theorem AdminStep.projects_new {a : AdminAction} (step : AdminStep env s id a t o)
    (h : (t.projects reg).isSome) : (s.projects reg).isSome ∨
      reg.name = id.name ∧ ∃ gen out, a = .registerLocked gen out := by
  cases step with
  | @bound path m mp gen out files ops task absent fresh bind =>
    by_cases hreg : reg = ⟨id.name, gen⟩
    · exact .inr ⟨hreg ▸ rfl, gen, out, rfl⟩
    · exact .inl (by simpa [hreg] using h)
  | @configured reg' p m task project | @stored reg' p m task project =>
    by_cases hreg : reg = reg'
    · subst hreg
      exact .inl (by simp [project])
    · exact .inl (by simpa [hreg] using h)
  | _ => exact .inl h

theorem AdminApart.admin {a : AdminAction} (h : AdminApart env tr s) (hrec : Records env s)
    (havoid : avoidsAdmin (.admin id a) = true) (step : AdminStep env s id a t o) :
    AdminApart env (tr ++ o) t := by
  have hlocked : ∀ gen out, a = .registerLocked gen out → id.name ≠ "admin" := by
    rintro gen out rfl
    simpa [avoidsAdmin] using havoid
  have hunlink : ∀ reg, s.requests id = some (.unlinking reg) → id.name ≠ "admin" := by
    intro reg task
    obtain ⟨hreg, hsome⟩ := hrec.request id _ task reg (by simp [AdminTask.regs])
    exact hreg ▸ h.named reg hsome
  constructor
  · by_cases hid : id.name = "admin"
    · have hsame : t.files = s.files := by
        cases step with
        | bindFailed | bound => exact absurd hid (hlocked _ _ rfl)
        | unlinked task => exact absurd hid (hunlink _ task)
        | _ => rfl
      rw [hsame]
      exact h.file
    · rw [adminPath_eq, step.file_other hrec (Ne.symm hid) admin_valid]
      exact h.file
  · intro op hmem
    rcases List.mem_append.mp hmem with hold | hnew
    · exact h.untouched op hold
    · obtain ⟨hpath, hvalid, hwhy⟩ := step.file_mem hrec hnew
      have hid : id.name ≠ "admin" := by
        rcases hwhy with ⟨gen, out, ha⟩ | ⟨reg, task⟩
        · exact hlocked gen out ha
        · exact hunlink reg task
      exact hid (socketPathFor_injective admin_valid hvalid hpath).symm
  · intro reg hsome
    rcases step.projects_new hsome with hold | ⟨hreg, gen, out, ha⟩
    · exact h.named reg hold
    · exact hreg ▸ hlocked gen out ha

theorem AdminApart.step {a : Action} (h : AdminApart env tr s) (hrec : Records env s)
    (havoid : avoidsAdmin a = true) (step : DaemonStep env s a t o) :
    AdminApart env (tr ++ o) t := by
  cases step with
  | admin step => exact h.admin hrec havoid step
  | @conn c a conn p p' conn' o task project step =>
    refine ⟨h.file, ?_, ?_⟩
    · intro op hmem
      rcases List.mem_append.mp hmem with hold | hnew
      · exact h.untouched op hold
      · cases step <;> simp at hnew
    · intro reg hsome
      by_cases hreg : reg = c.reg
      · subst hreg
        exact h.named c.reg (by simp [project])
      · exact h.named reg (by simpa [hreg] using hsome)
  | loop step =>
    rw [List.append_nil]
    exact ⟨step.frame.2.2.2 ▸ h.file, h.untouched, step.projects_eq ▸ h.named⟩
  | rotate | status =>
    refine ⟨h.file, ?_, h.named⟩
    intro op hmem
    simp only [List.mem_append, List.mem_cons, reduceCtorEq, List.not_mem_nil, or_false] at hmem
    exact h.untouched op hmem
  | writer =>
    rw [List.append_nil]
    exact ⟨h.file, h.untouched, h.named⟩

/-- In every run in which no `register` of the name `admin` gets into its locked section, whatever
is asked for under other names, the admin socket is intact in every state. -/
theorem run_admin_intact {backend : Option Session} {stale : Daemon.Stale} {as : List Action}
    (hrun : run env backend stale as = some (s, tr)) (havoid : ∀ a ∈ as, avoidsAdmin a = true) :
    AdminIntact env tr s := by
  have h : Records env s ∧ AdminApart env tr s := by
    refine Machine.exec_induction_along (G := fun _ a => avoidsAdmin a = true)
      (I := fun tr s => Records env s ∧ AdminApart env tr s)
      ⟨Records.initial, ?_, by simp, by simp [Daemon.init]⟩ ?_ (Machine.along_of_forall havoid) hrun
    · simp [Daemon.init, bindAdminSocket, bindSocket, BindOutcome.success]
    · intro tr s a t o h hguard hstep
      exact ⟨h.1.step (step_cases hstep), h.2.step h.1 hguard (step_cases hstep)⟩
  obtain ⟨hrec, hapart⟩ := h
  refine ⟨hapart.file, hapart.untouched, ?_, ?_⟩
  · intro name name' reg reg' p p' found found' hp hp' hne
    exact hrec.distinct found found' hp hp' hne
  · intro name reg p found hp
    have hsome : (s.projects reg).isSome := by simp [hp]
    rw [(hrec.project reg p hp).2.1, adminPath_eq]
    exact fun heq => hapart.named reg hsome
      (socketPathFor_injective (hrec.valid_name hsome) admin_valid heq)

end

def reservedEnv : Env :=
  sampleEnv [("web", sampleManifest "web" ["A"]), ("admin", sampleManifest "admin" ["A"])]

theorem run_admin_intact_web : ∃ s tr,
    run reservedEnv none (fun _ => none) (Action.register ⟨"web", 0⟩ "/srv/web" "web" 0)
      = some (s, tr) ∧ AdminIntact reservedEnv tr s := by
  obtain ⟨⟨s, tr⟩, hrun⟩ := Option.isSome_iff_exists.mp
    (show (run reservedEnv none (fun _ => none)
      (Action.register ⟨"web", 0⟩ "/srv/web" "web" 0)).isSome = true by decide +kernel)
  exact ⟨s, tr, hrun, run_admin_intact hrun (by decide)⟩

/-- A project named `admin` is registered, and its socket takes the place of the admin socket. -/
theorem admin_socket_taken : ∃ s tr,
    run reservedEnv none (fun _ => none) (Action.register ⟨"admin", 0⟩ "/srv/admin" "admin" 0)
      = some (s, tr) ∧
    s.files (adminPath reservedEnv.config.socketDir) =
      some ⟨.project ⟨"admin", 0⟩, projectSocketMode⟩ ∧ ¬ AdminIntact reservedEnv tr s := by
  have hfile : (run reservedEnv none (fun _ => none)
      (Action.register ⟨"admin", 0⟩ "/srv/admin" "admin" 0)).map
      (fun r => r.1.files (adminPath reservedEnv.config.socketDir)) =
      some (some ⟨.project ⟨"admin", 0⟩, projectSocketMode⟩) := by decide +kernel
  obtain ⟨⟨s, tr⟩, hrun, hs⟩ := Option.map_eq_some_iff.mp hfile
  refine ⟨s, tr, hrun, hs, fun hintact => ?_⟩
  cases hs.symm.trans hintact.file

end RemoBroker
