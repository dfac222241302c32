import RemoBroker.Reload.Versions

/-! When the reloads of a registration are apart, none of them is lost; an older reload that
overlaps a newer one can overwrite what the newer one stored. -/

namespace RemoBroker

section
variable {env : Env} {disks : Nat → Disk} {x y : Edited} {s : Daemon} {o : List Obs}

/-- With the reloads of a registration apart: once no reload of a project is in progress, its record
comes from one version of the disk that is no older than the one on which any reload that answered
ok started; and at every moment a name that the file has not had since such a reload started is not
allowed. -/
theorem run_reloads_current {backend : Option Session} {stale : Daemon.Stale}
    {as : List EditAction} {tr : List Obs}
    (hrun : Machine.exec (Edited.step env disks) (Edited.start env backend stale) as = some (x, tr))
    (hapart : Machine.Along (Edited.step env disks) ReloadsApart
      (Edited.start env backend stale) as) :
    (∀ reg p, x.daemon.projects reg = some p →
      (∀ id task, id.name = reg.name → x.daemon.requests id = some task → task.reloading = false) →
      UpToDate env disks x reg p) ∧
    (∀ reg p id n, x.daemon.projects reg = some p → x.succeeded id = some reg →
      (∀ v m, x.started id ≤ v → v ≤ x.version → HasManifest env disks v p.projectPath m →
        n ∉ m.allowlist.secrets) → n ∉ p.manifest.allowlist.secrets) := by
  have h : Records env x.daemon ∧ Versions env disks x := by
    refine Machine.exec_invariant_along
      (I := fun x => Records env x.daemon ∧ Versions env disks x)
      ⟨Records.initial, Versions.initial⟩ ?_ hapart hrun
    intro x a y o h hguard hstep
    exact h.2.step h.1 hguard hstep
  obtain ⟨hrec, hver⟩ := h
  constructor
  · intro reg p hp hquiet
    obtain ⟨v, hv, hfrom, hsucc, -⟩ := hver.record reg p hp
    refine ⟨v, hv, hfrom, hver.stored reg p hp fun id m htask => ?_, hsucc⟩
    have hname := (hrec.request id _ htask reg (by simp [AdminTask.regs])).1
    cases hquiet id _ hname.symm htask
  · intro reg p id n hp hs hgone
    obtain ⟨v, hv, hfrom, hsucc, -⟩ := hver.record reg p hp
    exact hgone v _ (hsucc id hs) hv hfrom

def EditAction.adminId : EditAction → Option AdminId
  | .edit => none
  | .read id => some id
  | .act a => a.adminId

theorem Edited.requestsIn_step {a : EditAction} {ids : List AdminId}
    (h : x.daemon.RequestsIn ids) (ha : ∀ id, a.adminId = some id → id ∈ ids)
    (hstep : Edited.step env disks x a = some (y, o)) : y.daemon.RequestsIn ids := by
  unfold Edited.step at hstep
  split at hstep
  · cases hstep
    exact h
  · obtain ⟨s, step, rfl⟩ := Edited.act_cases hstep
    rw [Edited.note_daemon]
    refine h.step ?_ step
    exact ha
  · cases hstep
  · obtain ⟨s, step, rfl⟩ := Edited.act_cases hstep
    rw [Edited.note_daemon]
    refine h.step ?_ step
    exact ha

theorem Edited.requestsIn {backend : Option Session} {stale : Daemon.Stale} {as : List EditAction}
    {tr : List Obs} (ids : List AdminId) (hids : as.filterMap EditAction.adminId ⊆ ids)
    (hrun : Machine.exec (Edited.step env disks) (Edited.start env backend stale) as
      = some (x, tr)) : x.daemon.RequestsIn ids := by
  refine Machine.exec_invariant_along (I := fun x => x.daemon.RequestsIn ids)
    (G := fun _ a => ∀ id, a.adminId = some id → id ∈ ids) ?_ ?_ ?_ hrun
  · intro id task htask
    cases htask
  · exact fun x a y o h ha hstep => Edited.requestsIn_step h ha hstep
  · exact Machine.along_of_forall fun a ha id hid => hids (List.mem_filterMap.mpr ⟨a, ha, hid⟩)

/-- `ReloadsApart`, decided for a daemon whose admin requests are among `ids`. -/
def reloadsApart (ids : List AdminId) (x : Edited) (a : EditAction) : Bool :=
  a.adminId.all (· ∈ ids) && match a with
  | .read id =>
    match x.daemon.requests id with
    | some (.loading reg) => ids.all fun id' =>
      (x.daemon.requests id').all fun task => !(task.inWindow && task.regs.contains reg)
    | _ => true
  | _ => true

theorem reloadsApart_iff {a : EditAction} {ids : List AdminId} (hx : x.daemon.RequestsIn ids)
    (h : reloadsApart ids x a = true) : ReloadsApart x a := by
  obtain ⟨-, h⟩ := Bool.and_eq_true_iff.mp h
  unfold ReloadsApart
  split
  · intro reg htask id' m hw
    obtain ⟨task, hid', hwindow, hreg⟩ := hw.task
    simp only [htask] at h
    have hall := List.all_eq_true.mp h id' (hx id' task hid')
    simp [hid', hwindow, hreg] at hall
  · trivial

theorem along_reloadsApart {backend : Option Session} {stale : Daemon.Stale} {as : List EditAction}
    (ids : List AdminId) (h : Machine.checkAlong (Edited.step env disks) (reloadsApart ids)
      (Edited.start env backend stale) as = true) :
    Machine.Along (Edited.step env disks) ReloadsApart (Edited.start env backend stale) as := by
  refine Machine.along_of_check (I := fun x => x.daemon.RequestsIn ids) ?_ ?_
    (fun x a hx => reloadsApart_iff hx) h
  · intro id task htask
    cases htask
  · intro x a y o hx hg hstep
    refine Edited.requestsIn_step hx (fun id hid => ?_) hstep
    obtain ⟨hin, -⟩ := Bool.and_eq_true_iff.mp hg
    simpa [hid] using hin

def reloadsDone (ids : List AdminId) (s : Daemon) : Bool :=
  ids.all fun id => (s.requests id).all fun task => !task.reloading

theorem reloadsDone_iff {ids : List AdminId} (hs : s.RequestsIn ids)
    (h : reloadsDone ids s = true) :
    ∀ id task, s.requests id = some task → task.reloading = false := by
  intro id task htask
  simpa [htask] using List.all_eq_true.mp h id (hs id task htask)

end

/-- The manifest of `web` allows `A` in version 0 and `B` from version 1 on. -/
def editedDisks (v : Nat) : Disk := sampleDisk (if v = 0 then "old" else "new")

def editedEnv : Env :=
  sampleEnv [("old", sampleManifest "web" ["A"]), ("new", sampleManifest "web" ["B"])]

def EditAction.register (id : AdminId) (path : String) (gen : Nat) : List EditAction :=
  [.act (.admin id (.submit (.register path))), .read id,
    .act (.admin id (.registerLocked gen .success)), .act (.admin id .spawnLoop),
    .act (.admin id .insertTask)]

def EditAction.reloadRead (id : AdminId) : List EditAction :=
  [.act (.admin id (.submit .reload)), .act (.admin id .lookupProject), .read id]

def EditAction.reloadStore (id : AdminId) : List EditAction :=
  [.act (.admin id .setConfig), .act (.admin id .storeManifest)]

/-- The first reload reads, the file is edited, the second reload runs, the first stores. -/
def overtakenRun : List EditAction :=
  EditAction.register ⟨"web", 0⟩ "/srv/web" 0 ++ EditAction.reloadRead ⟨"web", 1⟩ ++ [.edit] ++
  EditAction.reloadRead ⟨"web", 2⟩ ++ EditAction.reloadStore ⟨"web", 2⟩ ++
  EditAction.reloadStore ⟨"web", 1⟩

def orderlyRun : List EditAction :=
  EditAction.register ⟨"web", 0⟩ "/srv/web" 0 ++ EditAction.reloadRead ⟨"web", 1⟩ ++ [.edit] ++
  EditAction.reloadStore ⟨"web", 1⟩ ++ EditAction.reloadRead ⟨"web", 2⟩ ++
  EditAction.reloadStore ⟨"web", 2⟩

def editedIds : List AdminId := [⟨"web", 0⟩, ⟨"web", 1⟩, ⟨"web", 2⟩]

/-- The names that `web` allows at the end of a run, what its reloads started on, and whether
reloads are done. -/
def editedFacts (r : Edited × List Obs) : Option (List String) × Nat × Bool :=
  ((r.1.daemon.projects ⟨"web", 0⟩).map (·.manifest.allowlist.secrets), r.1.started ⟨"web", 2⟩,
    reloadsDone editedIds r.1.daemon)

theorem run_reloads_current_orderly : ∃ x tr p,
    Machine.exec (Edited.step editedEnv editedDisks) (Edited.start editedEnv none fun _ => none)
      orderlyRun = some (x, tr) ∧
    x.daemon.projects ⟨"web", 0⟩ = some p ∧ p.manifest.allowlist.secrets = ["B"] ∧
    UpToDate editedEnv editedDisks x ⟨"web", 0⟩ p := by
  have hfacts : (Machine.exec (Edited.step editedEnv editedDisks)
      (Edited.start editedEnv none fun _ => none) orderlyRun).map editedFacts =
      some (some ["B"], 1, true) := by decide +kernel
  obtain ⟨⟨x, tr⟩, hrun, hx⟩ := Option.map_eq_some_iff.mp hfacts
  simp only [editedFacts, Prod.mk.injEq] at hx
  obtain ⟨hsecrets, -, hdone⟩ := hx
  obtain ⟨p, hp, hsecrets⟩ := Option.map_eq_some_iff.mp hsecrets
  have hcurrent := run_reloads_current hrun (along_reloadsApart editedIds (by decide +kernel))
  have hquiet := reloadsDone_iff (Edited.requestsIn editedIds (by decide) hrun) hdone
  exact ⟨x, tr, p, hrun, hp, hsecrets, hcurrent.1 _ p hp fun id task _ => hquiet id task⟩

/-- The first reload ends last and brings `A` back, which the file no longer had when the second
reload, that answered ok, started. -/
theorem reloads_overtaken : ∃ x tr p,
    Machine.exec (Edited.step editedEnv editedDisks) (Edited.start editedEnv none fun _ => none)
      overtakenRun = some (x, tr) ∧
    (∀ id task, x.daemon.requests id = some task → task.reloading = false) ∧
    x.daemon.projects ⟨"web", 0⟩ = some p ∧ "A" ∈ p.manifest.allowlist.secrets ∧
    ¬ UpToDate editedEnv editedDisks x ⟨"web", 0⟩ p := by
  have hfacts : (Machine.exec (Edited.step editedEnv editedDisks)
      (Edited.start editedEnv none fun _ => none) overtakenRun).map
      (fun r => (editedFacts r, r.1.succeeded ⟨"web", 2⟩,
        (r.1.daemon.projects ⟨"web", 0⟩).map Project.projectPath)) =
      some ((some ["A"], 1, true), some ⟨"web", 0⟩, some "/srv/web") := by decide +kernel
  obtain ⟨⟨x, tr⟩, hrun, hx⟩ := Option.map_eq_some_iff.mp hfacts
  simp only [editedFacts, Prod.mk.injEq] at hx
  obtain ⟨⟨hsecrets, hstarted, hdone⟩, hsucceeded, hpath⟩ := hx
  obtain ⟨p, hp, hsecrets⟩ := Option.map_eq_some_iff.mp hsecrets
  have hpath : p.projectPath = "/srv/web" := by simpa [hp] using hpath
  refine ⟨x, tr, p, hrun, reloadsDone_iff (Edited.requestsIn editedIds (by decide) hrun) hdone, hp,
    by simp [hsecrets], ?_⟩
  rintro ⟨v, -, ⟨mp, hload⟩, -, hsucc⟩
  have hv : v ≠ 0 := by
    have := hsucc _ hsucceeded
    omega
  have hnew : (Manifest.load editedEnv.toml (sampleDisk "new") "/srv/web").toOption.map
      (·.1.allowlist.secrets) = some ["B"] := by decide +kernel
  rw [editedDisks, if_neg hv, hpath] at hload
  rw [hload] at hnew
  have hsecrets' : p.manifest.allowlist.secrets = ["B"] := Option.some.inj hnew
  rw [hsecrets] at hsecrets'
  exact absurd hsecrets' (by decide)

end RemoBroker
