import RemoBroker.Daemon.Records

/-! Reloads of a project while its manifest file is edited.  `Edited` puts the daemon beside a disk
that goes through numbered versions, and notes for each request the version that was on disk when
it was submitted and for each reload that answered ok the registration it reloaded. -/

namespace RemoBroker

structure Edited where
  daemon : Daemon
  version : Nat
  started : AdminId → Nat
  succeeded : AdminId → Option RegId

inductive EditAction where
  | edit
  /-- The `load_manifest` of a request, on the version of the moment. -/
  | read (id : AdminId)
  | act (a : Action)

namespace Edited

def start (env : Env) (backend : Option Session) (stale : Daemon.Stale) : Edited :=
  ⟨Daemon.init env backend stale, 0, fun _ => 0, fun _ => none⟩

/-- What a step of the daemon adds to the notes. -/
def note (x : Edited) (a : Action) (s : Daemon) : Edited :=
  match a with
  | .admin id (.submit _) =>
    { x with daemon := s, started := Function.update x.started id x.version }
  | .admin id .storeManifest =>
    match x.daemon.requests id with
    | some (.storing reg _) =>
      { x with daemon := s, succeeded := Function.update x.succeeded id (some reg) }
    | _ => { x with daemon := s }
  | _ => { x with daemon := s }

def act (env : Env) (x : Edited) (a : Action) : Option (Edited × List Obs) :=
  (step env x.daemon a).map fun r => (x.note a r.1, r.2)

/-- The steps, where `disks` are the versions of the disk. -/
def step (env : Env) (disks : Nat → Disk) : Machine.Step Edited EditAction Obs := fun x a =>
  match a with
  | .edit => some ({ x with version := x.version + 1 }, [])
  | .read id => x.act env (.admin id (.loadManifest (disks x.version)))
  | .act (.admin _ (.loadManifest _)) => none
  | .act a => x.act env a

end Edited

def AdminTask.reloading : AdminTask → Bool
  | .reload | .loading _ | .configuring _ _ | .storing _ _ => true
  | _ => false

/-- A reload between its read and its store, with what it read. -/
def Daemon.InWindow (s : Daemon) (id : AdminId) (reg : RegId) (m : Manifest) : Prop :=
  s.requests id = some (.configuring reg m) ∨ s.requests id = some (.storing reg m)

def Project.bounds (p : Project) : Nat × Duration := (p.cache.maxEntries, p.cache.defaultTtl)

/-- `m` is what version `v` of the disk has for a project path. -/
def HasManifest (env : Env) (disks : Nat → Disk) (v : Nat) (path : String) (m : Manifest) : Prop :=
  ∃ manifestPath, Manifest.load env.toml (disks v) path = .ok (m, manifestPath)

/-- The record of a project comes from one version of the disk, manifest and cache bounds, and no
reload of it that answered ok started on a later version. -/
def UpToDate (env : Env) (disks : Nat → Disk) (x : Edited) (reg : RegId) (p : Project) : Prop :=
  ∃ v, v ≤ x.version ∧ HasManifest env disks v p.projectPath p.manifest ∧
    p.bounds = resolveCacheBounds p.manifest env.config.cacheDefaults ∧
    ∀ id, x.succeeded id = some reg → x.started id ≤ v

/-- A reload reads the file only when no other reload of the registration is between its read and
its store. -/
def ReloadsApart (x : Edited) : EditAction → Prop
  | .read id => ∀ reg, x.daemon.requests id = some (.loading reg) →
    ∀ id' m, ¬ x.daemon.InWindow id' reg m
  | _ => True

/-- What carries the proof.  The version of the stored manifest is not older than any reload that
answered ok, and the one reload in its window read a version that is not older still. -/
structure Versions (env : Env) (disks : Nat → Disk) (x : Edited) : Prop where
  started : ∀ id, x.started id ≤ x.version
  answered : ∀ id reg, x.succeeded id = some reg →
    x.daemon.requests id ≠ none ∧ (x.daemon.projects reg).isSome
  locking : ∀ id path m mp, x.daemon.requests id = some (.locking path m mp) →
    ∃ v, v ≤ x.version ∧ HasManifest env disks v path m
  record : ∀ reg p, x.daemon.projects reg = some p →
    ∃ v, v ≤ x.version ∧ HasManifest env disks v p.projectPath p.manifest ∧
      (∀ id, x.succeeded id = some reg → x.started id ≤ v) ∧
      ∀ id m, x.daemon.InWindow id reg m → ∃ w, v ≤ w ∧ w ≤ x.version ∧ x.started id ≤ w ∧
        HasManifest env disks w p.projectPath m
  unique : ∀ reg id id' m m', x.daemon.InWindow id reg m → x.daemon.InWindow id' reg m' → id = id'
  stored : ∀ reg p, x.daemon.projects reg = some p →
    (∀ id m, x.daemon.requests id ≠ some (.storing reg m)) →
    p.bounds = resolveCacheBounds p.manifest env.config.cacheDefaults
  storing : ∀ reg p id m, x.daemon.projects reg = some p →
    x.daemon.requests id = some (.storing reg m) →
    p.bounds = resolveCacheBounds m env.config.cacheDefaults

def AdminTask.inWindow : AdminTask → Bool
  | .configuring _ _ | .storing _ _ => true
  | _ => false

def Project.content (p : Project) : String × Manifest × Nat × Duration :=
  (p.projectPath, p.manifest, p.bounds)

section
variable {env : Env} {disks : Nat → Disk} {x y : Edited} {s : Daemon} {o : List Obs}
  {id : AdminId} {reg : RegId} {m : Manifest}

theorem Versions.initial {backend : Option Session} {stale : Daemon.Stale} :
    Versions env disks (Edited.start env backend stale) := by
  constructor <;> simp [Edited.start, Daemon.init, Daemon.InWindow]

theorem Daemon.InWindow.congr {t : Daemon}
    (h : ∀ task, task.inWindow = true → (t.requests id = some task ↔ s.requests id = some task)) :
    t.InWindow id reg m ↔ s.InWindow id reg m := by
  unfold Daemon.InWindow
  rw [h (.configuring reg m) rfl, h (.storing reg m) rfl]

/-- Steps that move no request into or out of a window and change no record but for its entries. -/
theorem Versions.frame (h : Versions env disks x) (hversion : x.version ≤ y.version)
    (hstarted : ∀ id, x.daemon.requests id ≠ none → y.started id = x.started id)
    (hbound : ∀ id, y.started id ≤ y.version) (hsucceeded : y.succeeded = x.succeeded)
    (hsome : ∀ id, x.daemon.requests id ≠ none → y.daemon.requests id ≠ none)
    (hrequests : ∀ id task, task.inWindow = true →
      (y.daemon.requests id = some task ↔ x.daemon.requests id = some task))
    (hlocking : ∀ id path m mp, y.daemon.requests id = some (.locking path m mp) →
      x.daemon.requests id = some (.locking path m mp) ∨ HasManifest env disks y.version path m)
    (hprojects : ∀ reg, (y.daemon.projects reg).map Project.content =
      (x.daemon.projects reg).map Project.content) : Versions env disks y := by
  have hwindow : ∀ id reg m, y.daemon.InWindow id reg m ↔ x.daemon.InWindow id reg m :=
    fun id reg m => Daemon.InWindow.congr (hrequests id)
  have hproject : ∀ reg q, y.daemon.projects reg = some q →
      ∃ p, x.daemon.projects reg = some p ∧ p.content = q.content := by
    intro reg q hq
    have hmap := hprojects reg
    rw [hq] at hmap
    exact Option.map_eq_some_iff.mp hmap.symm
  constructor
  · exact hbound
  · intro id reg hs
    rw [hsucceeded] at hs
    obtain ⟨hreq, hproj⟩ := h.answered id reg hs
    refine ⟨hsome id hreq, ?_⟩
    have hmap := congrArg Option.isSome (hprojects reg)
    simpa [hproj] using hmap
  · intro id path m mp htask
    rcases hlocking id path m mp htask with hold | hnew
    · obtain ⟨v, hv, hload⟩ := h.locking id path m mp hold
      exact ⟨v, hv.trans hversion, hload⟩
    · exact ⟨y.version, le_rfl, hnew⟩
  · intro reg q hq
    obtain ⟨p, hp, hcontent⟩ := hproject reg q hq
    simp only [Project.content, Prod.mk.injEq] at hcontent
    obtain ⟨hpath, hmanifest, -⟩ := hcontent
    obtain ⟨v, hv, hload, hsucc, hwin⟩ := h.record reg p hp
    refine ⟨v, hv.trans hversion, hpath ▸ hmanifest ▸ hload, ?_, ?_⟩
    · intro id hs
      rw [hsucceeded] at hs
      rw [hstarted id (h.answered id reg hs).1]
      exact hsucc id hs
    · intro id m hw
      rw [hwindow] at hw
      obtain ⟨w, hvw, hw', hst, hload'⟩ := hwin id m hw
      have hreq : x.daemon.requests id ≠ none := by rcases hw with hw | hw <;> simp [hw]
      exact ⟨w, hvw, hw'.trans hversion, (hstarted id hreq).symm ▸ hst, hpath ▸ hload'⟩
  · intro reg id id' m m' hw hw'
    exact h.unique reg id id' m m' ((hwindow _ _ _).mp hw) ((hwindow _ _ _).mp hw')
  · intro reg q hq hno
    obtain ⟨p, hp, hcontent⟩ := hproject reg q hq
    simp only [Project.content, Prod.mk.injEq] at hcontent
    obtain ⟨-, hmanifest, hbounds⟩ := hcontent
    rw [← hbounds, ← hmanifest]
    exact h.stored reg p hp fun id m hst => hno id m ((hrequests id _ rfl).mpr hst)
  · intro reg q id m hq hst
    obtain ⟨p, hp, hcontent⟩ := hproject reg q hq
    simp only [Project.content, Prod.mk.injEq] at hcontent
    rw [← hcontent.2.2]
    exact h.storing reg p id m hp ((hrequests id _ rfl).mp hst)

theorem Daemon.InWindow.task (h : s.InWindow id reg m) :
    ∃ task, s.requests id = some task ∧ task.inWindow = true ∧ reg ∈ task.regs := by
  rcases h with h | h
  · exact ⟨_, h, rfl, by simp [AdminTask.regs]⟩
  · exact ⟨_, h, rfl, by simp [AdminTask.regs]⟩

theorem Daemon.InWindow.setRequest_ne {id' : AdminId} {task : AdminTask} (hid : id' ≠ id) :
    (s.setRequest id task).InWindow id' reg m ↔ s.InWindow id' reg m := by
  simp [Daemon.InWindow, hid]

theorem Versions.reloadLoaded {p : Project} (h : Versions env disks x)
    (htask : x.daemon.requests id = some (.loading reg))
    (hproject : x.daemon.projects reg = some p)
    (hload : HasManifest env disks x.version p.projectPath m)
    (hapart : ∀ id' m', ¬ x.daemon.InWindow id' reg m') :
    Versions env disks { x with daemon := x.daemon.setRequest id (.configuring reg m) } := by
  have hnew : ∀ id' reg' m',
      (x.daemon.setRequest id (.configuring reg m)).InWindow id' reg' m' →
      id' = id ∧ reg' = reg ∧ m' = m ∨ id' ≠ id ∧ x.daemon.InWindow id' reg' m' := by
    intro id' reg' m' hw
    by_cases hid : id' = id
    · subst hid
      have : reg = reg' ∧ m = m' := by simpa [Daemon.InWindow] using hw
      exact .inl ⟨rfl, this.1.symm, this.2.symm⟩
    · exact .inr ⟨hid, (Daemon.InWindow.setRequest_ne hid).mp hw⟩
  have hstoring : ∀ id' reg' m',
      (x.daemon.setRequest id (.configuring reg m)).requests id' = some (.storing reg' m') ↔
      x.daemon.requests id' = some (.storing reg' m') := by
    intro id' reg' m'
    constructor
    · exact fun hst => (Function.update_some_of_ne hst (by simp)).2
    · exact fun hst => Function.update_some_keeps hst (by simp [htask])
  constructor
  · exact h.started
  · intro id' reg' hs
    obtain ⟨hreq, hproj⟩ := h.answered id' reg' hs
    exact ⟨Function.update_ne_none hreq, hproj⟩
  · intro id' path m' mp hl
    exact h.locking id' path m' mp (Function.update_some_of_ne hl (by simp)).2
  · intro reg' q hq
    obtain ⟨v, hv, hfrom, hsucc, hwin⟩ := h.record reg' q hq
    refine ⟨v, hv, hfrom, hsucc, fun id' m' hw => ?_⟩
    rcases hnew id' reg' m' hw with ⟨rfl, rfl, rfl⟩ | ⟨-, hold⟩
    · obtain rfl : q = p := Option.some.inj (hq.symm.trans hproject)
      exact ⟨x.version, hv, le_rfl, h.started _, hload⟩
    · exact hwin id' m' hold
  · intro reg' id₁ id₂ m₁ m₂ hw₁ hw₂
    rcases hnew _ _ _ hw₁ with ⟨rfl, rfl, -⟩ | ⟨-, hold₁⟩
    · rcases hnew _ _ _ hw₂ with ⟨rfl, -, -⟩ | ⟨-, hold₂⟩
      · rfl
      · exact absurd hold₂ (hapart _ _)
    · rcases hnew _ _ _ hw₂ with ⟨-, rfl, -⟩ | ⟨-, hold₂⟩
      · exact absurd hold₁ (hapart _ _)
      · exact h.unique _ _ _ _ _ hold₁ hold₂
  · intro reg' q hq hno
    exact h.stored reg' q hq fun id' m' hst => hno id' m' ((hstoring _ _ _).mpr hst)
  · intro reg' q id' m' hq hst
    exact h.storing reg' q id' m' hq ((hstoring _ _ _).mp hst)

/-- A new record has the manifest that its `register` loaded. -/
theorem Versions.bound {path mp : String} {files : Files} (h : Versions env disks x)
    (hrec : Records env x.daemon)
    (htask : x.daemon.requests id = some (.locking path m mp))
    (hfresh : x.daemon.projects reg = none) :
    Versions env disks { x with daemon :=
      (({ x.daemon with files, inner := x.daemon.inner.insert id.name reg }.setProject reg
        (Project.create env id.name path m mp)).setRequest id (.spawning reg)) } := by
  have hrequests : ∀ id' task, task ≠ .spawning reg →
      (Function.update x.daemon.requests id (some (.spawning reg)) id' = some task →
        x.daemon.requests id' = some task) :=
    fun id' task hne htask' => (Function.update_some_of_ne htask' hne).2
  have hwindow : ∀ id' reg' m', Daemon.InWindow
      (({ x.daemon with files, inner := x.daemon.inner.insert id.name reg }.setProject reg
        (Project.create env id.name path m mp)).setRequest id (.spawning reg)) id' reg' m' →
      x.daemon.InWindow id' reg' m' := by
    intro id' reg' m' hw
    rcases hw with hw | hw
    · exact .inl (hrequests _ _ (by simp) hw)
    · exact .inr (hrequests _ _ (by simp) hw)
  have hnone : ∀ id' m', ¬ x.daemon.InWindow id' reg m' := by
    intro id' m' hw
    obtain ⟨task, ht, -, hmem⟩ := hw.task
    have := (hrec.request id' task ht reg hmem).2
    simp [hfresh] at this
  constructor
  · exact h.started
  · intro id' reg' hs
    obtain ⟨hreq, hproj⟩ := h.answered id' reg' hs
    exact ⟨Function.update_ne_none hreq, Function.update_isSome hproj⟩
  · intro id' path' m' mp' hl
    exact h.locking id' path' m' mp' (hrequests _ _ (by simp) hl)
  · intro reg' q hq
    rcases Function.update_some_cases hq with ⟨rfl, rfl⟩ | ⟨-, hother⟩
    · obtain ⟨v, hv, hload⟩ := h.locking id path m mp htask
      refine ⟨v, hv, hload, ?_, ?_⟩
      · intro id' hs
        have := (h.answered id' reg' hs).2
        simp [hfresh] at this
      · exact fun id' m' hw => absurd (hwindow _ _ _ hw) (hnone _ _)
    · obtain ⟨v, hv, hfrom, hsucc, hwin⟩ := h.record reg' q hother
      exact ⟨v, hv, hfrom, hsucc, fun id' m' hw => hwin id' m' (hwindow _ _ _ hw)⟩
  · intro reg' id₁ id₂ m₁ m₂ hw₁ hw₂
    exact h.unique _ _ _ _ _ (hwindow _ _ _ hw₁) (hwindow _ _ _ hw₂)
  · intro reg' q hq hno
    rcases Function.update_some_cases hq with ⟨rfl, rfl⟩ | ⟨-, hother⟩
    · rfl
    · refine h.stored reg' q hother fun id' m' hst => hno id' m' ?_
      exact Function.update_some_keeps hst (by simp [htask])
  · intro reg' q id' m' hq hst
    have hst' := hrequests id' _ (by simp) hst
    rcases Function.update_some_cases hq with ⟨rfl, -⟩ | ⟨-, hother⟩
    · exact absurd (.inr hst') (hnone id' m')
    · exact h.storing reg' q id' m' hother hst'

theorem Versions.configured {p : Project} (h : Versions env disks x)
    (htask : x.daemon.requests id = some (.configuring reg m))
    (hproject : x.daemon.projects reg = some p) :
    Versions env disks { x with daemon :=
      (x.daemon.setProject reg (p.setConfig env m)).setRequest id (.storing reg m) } := by
  have hwindow : ∀ id' reg' m',
      ((x.daemon.setProject reg (p.setConfig env m)).setRequest id (.storing reg m)).InWindow
        id' reg' m' ↔ x.daemon.InWindow id' reg' m' := by
    intro id' reg' m'
    by_cases hid : id' = id
    · subst hid
      simp [Daemon.InWindow, htask]
    · simp [Daemon.InWindow, hid]
  constructor
  · exact h.started
  · intro id' reg' hs
    obtain ⟨hreq, hproj⟩ := h.answered id' reg' hs
    exact ⟨Function.update_ne_none hreq, Function.update_isSome hproj⟩
  · intro id' path m' mp hl
    exact h.locking id' path m' mp (Function.update_some_of_ne hl (by simp)).2
  · intro reg' q hq
    obtain ⟨q', hq', hpath, hmanifest⟩ : ∃ q', x.daemon.projects reg' = some q' ∧
        q.projectPath = q'.projectPath ∧ q.manifest = q'.manifest := by
      rcases Function.update_some_cases hq with ⟨rfl, rfl⟩ | ⟨-, hother⟩
      · exact ⟨p, hproject, rfl, rfl⟩
      · exact ⟨q, hother, rfl, rfl⟩
    obtain ⟨v, hv, hfrom, hsucc, hwin⟩ := h.record reg' q' hq'
    rw [hpath, hmanifest]
    exact ⟨v, hv, hfrom, hsucc, fun id' m' hw => hwin id' m' ((hwindow _ _ _).mp hw)⟩
  · intro reg' id₁ id₂ m₁ m₂ hw₁ hw₂
    exact h.unique _ _ _ _ _ ((hwindow _ _ _).mp hw₁) ((hwindow _ _ _).mp hw₂)
  · intro reg' q hq hno
    rcases Function.update_some_cases hq with ⟨rfl, -⟩ | ⟨-, hother⟩
    · exact absurd (by simp) (hno id m)
    · refine h.stored reg' q hother fun id' m' hst => hno id' m' ?_
      exact Function.update_some_keeps hst (by simp [htask])
  · intro reg' q id' m' hq hst
    rcases Function.update_some_cases hq with ⟨rfl, rfl⟩ | ⟨hreg, hother⟩
    · obtain rfl := h.unique reg' id' id m' m ((hwindow _ _ _).mp (.inr hst)) (.inl htask)
      obtain rfl : m = m' := by simpa using hst
      rfl
    · have hid : id' ≠ id := by
        rintro rfl
        exact hreg (show reg = reg' ∧ m = m' by simpa using hst).1.symm
      exact h.storing reg' q id' m' hother (by simpa [hid] using hst)

/-- The reload in its window stores what it read, which is no older than what was stored. -/
theorem Versions.storedStep {p : Project} {r : AdminResponse} (h : Versions env disks x)
    (htask : x.daemon.requests id = some (.storing reg m))
    (hproject : x.daemon.projects reg = some p) :
    Versions env disks { x with
      daemon := (x.daemon.setProject reg { p with manifest := m }).setRequest id (.done r)
      succeeded := Function.update x.succeeded id (some reg) } := by
  have hold : ∀ id' task, task ≠ .done r →
      Function.update x.daemon.requests id (some (.done r)) id' = some task →
      id' ≠ id ∧ x.daemon.requests id' = some task :=
    fun id' task hne hdone => Function.update_some_of_ne hdone hne
  have hwindow : ∀ id' reg' m',
      ((x.daemon.setProject reg { p with manifest := m }).setRequest id (.done r)).InWindow
        id' reg' m' → id' ≠ id ∧ x.daemon.InWindow id' reg' m' := by
    intro id' reg' m' hw
    rcases hw with hw | hw
    · exact ⟨(hold _ _ (by simp) hw).1, .inl (hold _ _ (by simp) hw).2⟩
    · exact ⟨(hold _ _ (by simp) hw).1, .inr (hold _ _ (by simp) hw).2⟩
  have halone : ∀ id' m', id' ≠ id → ¬ x.daemon.InWindow id' reg m' :=
    fun id' m' hid hw => hid (h.unique reg id' id m' m hw (.inr htask))
  constructor
  · exact h.started
  · intro id' reg' hs
    have hsome : x.daemon.requests id' ≠ none ∧ (x.daemon.projects reg').isSome := by
      rcases Function.update_some_cases hs with ⟨rfl, rfl⟩ | ⟨-, hother⟩
      · simp [htask, hproject]
      · exact h.answered id' reg' hother
    exact ⟨Function.update_ne_none hsome.1, Function.update_isSome hsome.2⟩
  · intro id' path m' mp hl
    exact h.locking id' path m' mp (hold _ _ (by simp) hl).2
  · intro reg' q hq
    rcases Function.update_some_cases hq with ⟨rfl, rfl⟩ | ⟨hreg, hother⟩
    · obtain ⟨v, -, -, hsucc, hwin⟩ := h.record reg' p hproject
      obtain ⟨w, hvw, hw, hstart, hload⟩ := hwin id m (.inr htask)
      refine ⟨w, hw, hload, ?_, ?_⟩
      · intro id' hs
        by_cases hid : id' = id
        · exact hid ▸ hstart
        · exact (hsucc id' (by simpa [hid] using hs)).trans hvw
      · intro id' m' hw'
        obtain ⟨hid, hw'⟩ := hwindow _ _ _ hw'
        exact absurd hw' (halone id' m' hid)
    · obtain ⟨v, hv, hfrom, hsucc, hwin⟩ := h.record reg' q hother
      refine ⟨v, hv, hfrom, ?_, fun id' m' hw => hwin id' m' (hwindow _ _ _ hw).2⟩
      intro id' hs
      have hid : id' ≠ id := by
        rintro rfl
        exact hreg (by simpa [eq_comm] using hs)
      exact hsucc id' (by simpa [hid] using hs)
  · intro reg' id₁ id₂ m₁ m₂ hw₁ hw₂
    exact h.unique _ _ _ _ _ (hwindow _ _ _ hw₁).2 (hwindow _ _ _ hw₂).2
  · intro reg' q hq hno
    rcases Function.update_some_cases hq with ⟨rfl, rfl⟩ | ⟨hreg, hother⟩
    · exact h.storing reg' p id m hproject htask
    · refine h.stored reg' q hother fun id' m' hst => hno id' m' ?_
      have hid : id' ≠ id := by
        rintro rfl
        rw [htask] at hst
        cases hst
        exact hreg rfl
      simpa [hid] using hst
  · intro reg' q id' m' hq hst
    obtain ⟨hid, hold⟩ := hold _ _ (by simp) hst
    rcases Function.update_some_cases hq with ⟨rfl, -⟩ | ⟨-, hother⟩
    · exact absurd (.inr hold) (halone id' m' hid)
    · exact h.storing reg' q id' m' hother hold

theorem ConnStep.content_eq {backend : Option Session} {q : RequestId} {p p' : Project}
    {conn conn' : Conn} {a : ConnAction} (step : ConnStep env backend q p conn a p' conn' o) :
    p'.content = p.content := by
  cases step <;> simp [Project.content, Project.bounds]

theorem Edited.note_eq {a : Action} (hsubmit : ∀ id op, a ≠ .admin id (.submit op))
    (hstore : ∀ id, a ≠ .admin id .storeManifest) : x.note a s = { x with daemon := s } := by
  unfold Edited.note
  split
  · exact absurd rfl (hsubmit _ _)
  · exact absurd rfl (hstore _)
  · rfl

/-- A step of a request that does not go into, through or out of a window, and makes no record. -/
theorem Versions.idle {task : AdminTask} (h : Versions env disks x)
    (hold : ∀ old, x.daemon.requests id = some old → old.inWindow = false)
    (hnew : task.inWindow = false)
    (hlocking : ∀ path m mp, task = .locking path m mp → HasManifest env disks x.version path m)
    (hrequests : s.requests = Function.update x.daemon.requests id (some task))
    (hprojects : s.projects = x.daemon.projects) : Versions env disks { x with daemon := s } := by
  refine h.frame le_rfl (fun _ _ => rfl) h.started rfl ?_ ?_ ?_ (fun reg => by rw [hprojects])
  · intro id' hsome
    rw [hrequests]
    exact Function.update_ne_none hsome
  · intro id' task' hwindow
    rw [hrequests]
    by_cases hid : id' = id
    · subst hid
      rw [Function.update_self]
      constructor
      · intro heq
        cases heq
        rw [hnew] at hwindow
        cases hwindow
      · intro heq
        rw [hold _ heq] at hwindow
        cases hwindow
    · rw [Function.update_of_ne hid]
  · intro id' path m mp htask
    rw [hrequests] at htask
    rcases Function.update_some_cases htask with ⟨-, heq⟩ | ⟨-, hother⟩
    · exact .inr (hlocking path m mp heq.symm)
    · exact .inl hother

theorem Versions.submit {op : AdminOp} (h : Versions env disks x)
    (htask : x.daemon.requests id = none) :
    Versions env disks { x with
      daemon := x.daemon.setRequest id op.start
      started := Function.update x.started id x.version } := by
  refine h.frame le_rfl ?_ ?_ rfl ?_ ?_ ?_ (fun reg => rfl)
  · intro id' hsome
    have hid : id' ≠ id := fun heq => hsome (heq ▸ htask)
    exact Function.update_of_ne hid ..
  · intro id'
    by_cases hid : id' = id
    · subst hid
      simp
    · simpa [hid] using h.started id'
  · intro id' hsome
    exact Function.update_ne_none hsome
  · intro id' task hwindow
    by_cases hid : id' = id
    · subst hid
      cases op <;>
        simp only [AdminOp.start, Daemon.setRequest_requests, Function.update_self, htask,
          Option.some.injEq, reduceCtorEq, iff_false] <;>
        rintro rfl <;> cases hwindow
    · simp [hid]
  · intro id' path m mp hl
    by_cases hid : id' = id
    · subst hid
      cases op <;> simp [AdminOp.start] at hl
    · exact .inl (by simpa [hid] using hl)

theorem Versions.admin {a : AdminAction} (h : Versions env disks x) (hrec : Records env x.daemon)
    (step : AdminStep env x.daemon id a s o)
    (hread : ∀ disk, a = .loadManifest disk → disk = disks x.version)
    (hapart : ∀ disk, a = .loadManifest disk → ∀ reg,
      x.daemon.requests id = some (.loading reg) → ∀ id' m, ¬ x.daemon.InWindow id' reg m) :
    Versions env disks (x.note (.admin id a) s) := by
  have hidle : ∀ {task}, x.daemon.requests id = some task → task.inWindow = false →
      ∀ old, x.daemon.requests id = some old → old.inWindow = false := by
    intro task htask hwindow old hold
    exact Option.some.inj (hold.symm.trans htask) ▸ hwindow
  cases step with
  | submit task => exact h.submit task
  | registerFailed task | projectExists task | bindFailed task | spawned task | inserted task
  | unregisterUnknown task | removed task | notified task | taken task | noTask task | joined task
  | timedOut task | unlinked task | reloadUnknown task | lookedUp task | reloadFailed task =>
    exact h.idle (hidle task rfl) rfl (by simp) rfl rfl
  | @registerLoaded path disk m mp task load =>
    obtain rfl := hread disk rfl
    refine h.idle (hidle task rfl) rfl ?_ rfl rfl
    rintro path' m' mp' ⟨⟩
    exact ⟨mp, (loadNamed_ok load).2.2⟩
  | bound task absent fresh bind => exact h.bound hrec task fresh
  | @reloadLoaded reg p disk m mp task project load =>
    obtain rfl := hread disk rfl
    exact h.reloadLoaded task project ⟨mp, (loadNamed_ok load).2.2⟩ (hapart _ rfl reg task)
  | configured task project => exact h.configured task project
  | stored task project =>
    simp only [Edited.note, task]
    exact h.storedStep task project

theorem Versions.act {a : Action} (h : Versions env disks x) (hrec : Records env x.daemon)
    (step : DaemonStep env x.daemon a s o)
    (hread : ∀ id disk, a = .admin id (.loadManifest disk) → disk = disks x.version ∧
      ∀ reg, x.daemon.requests id = some (.loading reg) → ∀ id' m, ¬ x.daemon.InWindow id' reg m) :
    Versions env disks (x.note a s) := by
  cases step with
  | admin step =>
    refine h.admin hrec step ?_ ?_
    · rintro disk rfl
      exact (hread _ disk rfl).1
    · rintro disk rfl
      exact (hread _ disk rfl).2
  | @conn c a conn p p' conn' o task project step =>
    rw [Edited.note_eq (by simp) (by simp)]
    refine h.frame le_rfl (fun _ _ => rfl) h.started rfl (fun _ hs => hs) (fun _ _ _ => Iff.rfl)
      (fun _ _ _ _ => .inl) fun reg => ?_
    by_cases hreg : reg = c.reg
    · subst hreg
      simp [project, step.content_eq]
    · simp [hreg]
  | loop step =>
    rw [Edited.note_eq (by simp) (by simp)]
    refine h.frame le_rfl (fun _ _ => rfl) h.started rfl ?_ ?_ ?_ fun reg => ?_
    · intro id hs
      exact step.frame.2.2.1 ▸ hs
    · intro id task _
      rw [show s.requests = _ from step.frame.2.2.1]
    · intro id path m mp hl
      exact .inl (step.frame.2.2.1 ▸ hl)
    · exact congrArg (fun f => (f reg).map Project.content) step.projects_eq
  | rotate | status | writer =>
    rw [Edited.note_eq (by simp) (by simp)]
    exact h.frame le_rfl (fun _ _ => rfl) h.started rfl (fun _ hs => hs) (fun _ _ _ => Iff.rfl)
      (fun _ _ _ _ => .inl) fun reg => rfl

@[simp] theorem Edited.note_daemon {a : Action} : (x.note a s).daemon = s := by
  unfold Edited.note
  split
  · rfl
  · split <;> rfl
  · rfl

theorem Edited.act_cases {a : Action} (h : x.act env a = some (y, o)) :
    ∃ s, DaemonStep env x.daemon a s o ∧ y = x.note a s := by
  obtain ⟨⟨s, o'⟩, hstep, heq⟩ := Option.map_eq_some_iff.mp h
  cases heq
  exact ⟨s, step_cases hstep, rfl⟩

theorem Versions.step {a : EditAction} (h : Versions env disks x) (hrec : Records env x.daemon)
    (hapart : ReloadsApart x a) (hstep : Edited.step env disks x a = some (y, o)) :
    Records env y.daemon ∧ Versions env disks y := by
  unfold Edited.step at hstep
  split at hstep
  · cases hstep
    exact ⟨hrec, h.frame (Nat.le_succ _) (fun _ _ => rfl)
      (fun id => (h.started id).trans (Nat.le_succ _)) rfl (fun _ hs => hs) (fun _ _ _ => Iff.rfl)
      (fun _ _ _ _ => .inl) fun reg => rfl⟩
  · obtain ⟨s, step, rfl⟩ := Edited.act_cases hstep
    refine ⟨Edited.note_daemon.symm ▸ hrec.step step, h.act hrec step ?_⟩
    rintro id disk ⟨⟩
    exact ⟨rfl, hapart⟩
  · cases hstep
  · rename_i a hne
    obtain ⟨s, step, rfl⟩ := Edited.act_cases hstep
    refine ⟨Edited.note_daemon.symm ▸ hrec.step step, h.act hrec step ?_⟩
    rintro id disk rfl
    exact absurd rfl (hne id disk)

end

end RemoBroker
