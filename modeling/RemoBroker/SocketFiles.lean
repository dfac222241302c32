import RemoBroker.AdminSocket
import RemoBroker.Failure

/-! The socket files that a `register` leaves.  When the mode of a socket cannot be set after the
bind, the request fails and the file stays. -/

namespace RemoBroker

/-- What a step of a `register` is to leave in the socket directory: after an error no file at a
path that it bound and the sockets of registered projects as they were, and after a success the
socket of the new registration, with its mode. -/
structure LeavesNoSocket (s t : Daemon) (id : AdminId) (o : List Obs) : Prop where
  unbound : ∀ e, .replied id (.error e) ∈ o → ∀ path, .file .bind path ∈ o → t.files path = none
  untouched : ∀ e, .replied id (.error e) ∈ o → ∀ name reg p, s.inner.lookup name = some reg →
    s.projects reg = some p → t.files p.socketPath = s.files p.socketPath
  bound : ∀ reg m, .stored reg m ∈ o → ∃ p, t.projects reg = some p ∧
    t.files p.socketPath = some ⟨.project reg, 0o660⟩

/-- The request binds its socket and then fails to set the mode. -/
def StrandsSocket (s : Daemon) (id : AdminId) (out : BindOutcome) : Prop :=
  s.inner.lookup id.name = none ∧ out.unlink = none ∧ out.bind = none ∧ out.chmod ≠ none

section
variable {env : Env} {s t : Daemon} {o tr : List Obs} {id : AdminId} {files files' : Files}
  {path : String} {reg : RegId} {out : BindOutcome} {e : RegistryError} {ops : List FileOp}

/-- A bind that fails leaves its path empty, or leaves the file where the mode could not be set. -/
theorem bindProjectSocket_left
    (h : bindProjectSocket files path reg out = (files', .error e, ops)) (hbind : .bind ∈ ops) :
    files' path = none ↔ ¬ (out.unlink = none ∧ out.bind = none ∧ out.chmod ≠ none) := by
  have hfiles : (bindProjectSocket files path reg out).1 = files' := congrArg Prod.fst h
  have hops : (bindProjectSocket files path reg out).2.2 = ops := congrArg (fun r => r.2.2) h
  have herror : (bindProjectSocket files path reg out).2.1 = .error e :=
    congrArg (fun r => r.2.1) h
  rw [← hops] at hbind
  rw [← hfiles]
  rcases out with ⟨_ | _, _ | _, _ | _, _⟩ <;>
    simp [bindProjectSocket, bindSocket, Except.mapError] at hbind herror ⊢

theorem bindProjectSocket_bound (h : bindProjectSocket files path reg out = (files', .ok (), ops)) :
    out.chmod = none := by
  have hok : (bindProjectSocket files path reg out).2.1 = .ok () := congrArg (fun r => r.2.1) h
  rcases out with ⟨_ | _, _ | _, _ | _, _⟩ <;>
    simp [bindProjectSocket, bindSocket, Except.mapError] at hok ⊢

theorem bindProjectSocket_bind_mem
    (h : bindProjectSocket files path reg out = (files', .error e, ops))
    (hunlink : out.unlink = none) : .bind ∈ ops := by
  have hops : (bindProjectSocket files path reg out).2.2 = ops := congrArg (fun r => r.2.2) h
  rw [← hops]
  rcases out with ⟨_ | _, _ | _, _ | _, _⟩ <;> simp [bindProjectSocket, bindSocket] at hunlink ⊢

/-- The socket of a registered project is not the one of a name that is free. -/
theorem Records.socket_apart (h : Records env s) {name : String} {p : Project}
    (hvalid : isValidProjectName id.name = true) (absent : s.inner.lookup id.name = none)
    (found : s.inner.lookup name = some reg) (hp : s.projects reg = some p) :
    p.socketPath ≠ socketPathFor env.config.socketDir id.name := by
  obtain ⟨rfl, hsome⟩ := h.inner name reg found
  rw [(h.project reg p hp).2.1]
  intro heq
  rw [socketPathFor_injective (h.valid_name hsome) hvalid heq, absent] at found
  cases found

theorem AdminStep.leavesNoSocket_load {disk : Disk}
    (step : AdminStep env s id (.loadManifest disk) t o) : LeavesNoSocket s t id o := by
  cases step with
  | registerFailed | registerLoaded | reloadFailed | reloadLoaded =>
    exact ⟨by simp, fun _ _ _ _ _ _ _ => rfl, by simp⟩

theorem AdminStep.leavesNoSocket_iff {gen : Nat} (hrec : Records env s)
    (step : AdminStep env s id (.registerLocked gen out) t o) :
    LeavesNoSocket s t id o ↔ ¬ StrandsSocket s id out := by
  cases step with
  | projectExists task found =>
    refine ⟨fun _ hstrands => ?_, fun _ => ⟨by simp, fun _ _ _ _ _ _ _ => rfl, by simp⟩⟩
    rw [StrandsSocket, found] at hstrands
    cases hstrands.1
  | @bindFailed path m mp _ _ files e ops task absent fresh bind =>
    have hmem : ∀ path', .file .bind path' ∈
        fileObs (socketPathFor env.config.socketDir id.name) ops ++
        [.replied id (adminErrorFor env.debug e)] ↔
        .bind ∈ ops ∧ path' = socketPathFor env.config.socketDir id.name := by
      intro path'
      rw [List.mem_append, mem_fileObs]
      simp
    constructor
    · rintro hleaves ⟨-, hunlink, hbind, hchmod⟩
      have hops := bindProjectSocket_bind_mem bind hunlink
      have hnone := hleaves.unbound _ (List.mem_append_right _ List.mem_cons_self) _
        ((hmem _).mpr ⟨hops, rfl⟩)
      exact (bindProjectSocket_left bind hops).mp hnone ⟨hunlink, hbind, hchmod⟩
    · intro hstrands
      refine ⟨?_, ?_, ?_⟩
      · intro _ _ path' hpath
        obtain ⟨hops, rfl⟩ := (hmem path').mp hpath
        exact (bindProjectSocket_left bind hops).mpr fun h => hstrands ⟨absent, h⟩
      · intro _ _ name reg p found hp
        have hne := hrec.socket_apart (hrec.valid_locking task) absent found hp
        exact (bindProjectSocket_error bind).1 p.socketPath hne
      · intro reg m hstored
        simp [fileObs, adminErrorFor] at hstored
  | @bound path m mp _ _ files ops task absent fresh bind =>
    refine ⟨fun _ hstrands => hstrands.2.2.2 (bindProjectSocket_bound bind), fun _ => ⟨?_, ?_, ?_⟩⟩
    · intro e herror
      simp [fileObs] at herror
    · intro e herror
      simp [fileObs] at herror
    · intro reg m' hstored
      obtain ⟨rfl, rfl⟩ : reg = ⟨id.name, gen⟩ ∧ m' = m := by simpa [fileObs] using hstored
      refine ⟨Project.create env id.name path m' mp, by simp, ?_⟩
      simp only [Daemon.setRequest_files, Daemon.setProject_files]
      rw [bindProjectSocket_ok bind]
      simp [Project.create, projectSocketMode]

/-- From every state that is reached, with every outcome of the unlink, the bind and the change of
mode: a `register` leaves the sockets as it is to leave them, unless it binds its socket and then
fails to set the mode. -/
theorem register_leaves_no_socket_iff {backend : Option Session} {stale : Daemon.Stale}
    {as : List WholeAction} (hrun : wholeRun env backend stale as = some (s, tr)) :
    (∀ id disk t o, wholeStep env s (.act (.admin id (.loadManifest disk))) = some (t, o) →
      LeavesNoSocket s t id o) ∧
    (∀ id gen out t o, wholeStep env s (.act (.admin id (.registerLocked gen out))) = some (t, o) →
      (LeavesNoSocket s t id o ↔ ¬ StrandsSocket s id out)) :=
  ⟨fun _ _ _ _ hstep => (adminStep_cases hstep).leavesNoSocket_load,
    fun _ _ _ _ _ hstep => (adminStep_cases hstep).leavesNoSocket_iff (wholeRun_records hrun)⟩

end

theorem register_leaves_no_socket_bind : ∃ s tr t o,
    wholeRun webEnv none (fun _ => none) lockingRun = some (s, tr) ∧
    wholeStep webEnv s failingBind = some (t, o) ∧ LeavesNoSocket s t ⟨"web", 0⟩ o := by
  have hfacts : ((wholeRun webEnv none (fun _ => none) lockingRun).bind fun r =>
      wholeStep webEnv r.1 failingBind).isSome = true := by decide +kernel
  obtain ⟨⟨t, o⟩, hs⟩ := Option.isSome_iff_exists.mp hfacts
  obtain ⟨⟨s, tr⟩, hrun, hstep⟩ := Option.bind_eq_some_iff.mp hs
  refine ⟨s, tr, t, o, hrun, hstep, ?_⟩
  exact ((register_leaves_no_socket_iff hrun).2 _ _ _ t o hstep).mpr fun h => nomatch h.2.2.1

def failingChmod : WholeAction :=
  .act (.admin ⟨"web", 0⟩ (.registerLocked 0 ⟨none, none, some "denied", 0o755⟩))

/-- The mode cannot be set: the request is answered with an error, no project is registered, and the
file that it bound is still there. -/
theorem register_strands_socket : ∃ s tr t o e,
    wholeRun webEnv none (fun _ => none) lockingRun = some (s, tr) ∧
    wholeStep webEnv s failingChmod = some (t, o) ∧ .replied ⟨"web", 0⟩ (.error e) ∈ o ∧
    t.inner.lookup "web" = none ∧
    .file .bind (socketPathFor webEnv.config.socketDir "web") ∈ o ∧
    t.files (socketPathFor webEnv.config.socketDir "web") = some ⟨.failed, 0o755⟩ := by
  have hfacts : ((wholeRun webEnv none (fun _ => none) lockingRun).bind fun r =>
      (wholeStep webEnv r.1 failingChmod).map fun q =>
        (q.2.any fun x =>
          match x with
          | .replied id (.error _) => id = ⟨"web", 0⟩
          | _ => false,
        q.1.inner.lookup "web",
        q.2.any fun x =>
          match x with
          | .file .bind path => path = socketPathFor webEnv.config.socketDir "web"
          | _ => false,
        q.1.files (socketPathFor webEnv.config.socketDir "web"))) =
      some (true, none, true, some ⟨.failed, 0o755⟩) := by decide +kernel
  obtain ⟨⟨s, tr⟩, hrun, hs⟩ := Option.bind_eq_some_iff.mp hfacts
  obtain ⟨⟨t, o⟩, hstep, ho⟩ := Option.map_eq_some_iff.mp hs
  simp only [Prod.mk.injEq] at ho
  obtain ⟨herror, hinner, hbind, hfile⟩ := ho
  obtain ⟨x, hx, hxe⟩ := List.any_eq_true.mp herror
  obtain ⟨y, hy, hyb⟩ := List.any_eq_true.mp hbind
  split at hxe
  · rename_i id e
    obtain rfl : id = ⟨"web", 0⟩ := by simpa using hxe
    split at hyb
    · rename_i path
      obtain rfl : path = socketPathFor webEnv.config.socketDir "web" := by simpa using hyb
      exact ⟨s, tr, t, o, e, hrun, hstep, hx, hinner, hy, hfile⟩
    · cases hyb
  · cases hxe

end RemoBroker
