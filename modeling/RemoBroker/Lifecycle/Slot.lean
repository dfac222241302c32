import RemoBroker.Daemon.Records

/-! The registry map, the socket file and the accept loop of a name.  They are changed in separate
critical sections; `Slot` is the one history that a name goes through when its registrations do not
overlap, and `Slot.Holds` ties the three to it. -/

namespace RemoBroker

/-- A `register` that has bound its socket and not yet stored its handle. -/
def AdminTask.arriving : AdminTask → Bool
  | .spawning _ | .inserting _ => true
  | _ => false

/-- An `unregister` that has taken the project out of the map and not yet unlinked its socket. -/
def AdminTask.leaving : AdminTask → Bool
  | .notifying _ | .taking _ | .joining _ _ | .unlinking _ => true
  | _ => false

namespace Daemon

/-- The file of a registration's name is the one that its listener bound. -/
def Bound (env : Env) (s : Daemon) (reg : RegId) : Prop :=
  ∃ mode, s.files (socketPathFor env.config.socketDir reg.name) = some ⟨.project reg, mode⟩

def loopAlive (s : Daemon) (reg : RegId) : Bool := (s.loops reg).any LoopTask.alive

def loopRunning (s : Daemon) (reg : RegId) : Bool := (s.loops reg).any LoopTask.running

end Daemon

/-- Registrations of one name do not overlap: a `register` goes into its locked section when no
`unregister` of the name is between its map removal and its unlink, and an `unregister` takes the
handle when no `register` of the name is between its map insertion and its handle insertion.  The
unlink does not fail. -/
def NoOverlap (s : Daemon) : Action → Prop
  | .admin id (.registerLocked _ _) =>
    ∀ id' task, id'.name = id.name → s.requests id' = some task → task.leaving = false
  | .admin id .takeTask =>
    ∀ id' task, id'.name = id.name → s.requests id' = some task → task.arriving = false
  | .admin _ (.unlinkSocket error) => error = none
  | _ => True

/-- How far the `register` of a registration is. -/
inductive Boot where
  | spawning (id : AdminId)
  | inserting (id : AdminId)
  | done
deriving DecidableEq

inductive Leave where
  | staying
  | notifying (id : AdminId)
  | taking (id : AdminId)
  | joining (id : AdminId)
  | unlinking (id : AdminId)
deriving DecidableEq

/-- The one registration that a name has at a time. -/
structure Slot where
  reg : RegId
  boot : Boot
  leave : Leave

def Boot.pending (reg : RegId) : Boot → List (AdminId × AdminTask)
  | .spawning id => [(id, .spawning reg)]
  | .inserting id => [(id, .inserting reg)]
  | .done => []

def Leave.pending (reg : RegId) : Leave → List (AdminId × AdminTask)
  | .staying => []
  | .notifying id => [(id, .notifying reg)]
  | .taking id => [(id, .taking reg)]
  | .joining id => [(id, .joining reg reg)]
  | .unlinking id => [(id, .unlinking reg)]

/-- The accept loop has not been told to stop. -/
def Daemon.Untouched (s : Daemon) (reg : RegId) : Prop :=
  ∃ t l, s.loops reg = some t ∧ t.state = .accepting l ∧ l.notified = false ∧ l.running = true

namespace Slot

def pending (x : Slot) : List (AdminId × AdminTask) := x.boot.pending x.reg ++ x.leave.pending x.reg

def mapped : Option Slot → Option RegId
  | some ⟨reg, _, .staying⟩ => some reg
  | _ => none

def handle : Option Slot → Option RegId
  | some ⟨reg, .done, .staying⟩ | some ⟨reg, .done, .notifying _⟩
  | some ⟨reg, .done, .taking _⟩ => some reg
  | _ => none

def LoopOk (s : Daemon) : Slot → Prop
  | ⟨reg, .spawning _, _⟩ => s.loops reg = none
  | ⟨reg, _, .staying⟩ => s.Untouched reg
  | ⟨reg, _, .unlinking _⟩ => s.loopAlive reg = false
  | _ => True

structure Holds (env : Env) (s : Daemon) (name : String) (σ : Option Slot) : Prop where
  inner : s.inner.lookup name = mapped σ
  tasks : s.projectTasks.lookup name = handle σ
  file : ∀ reg, reg.name = name → (s.Bound env reg ↔ ∃ x, σ = some x ∧ x.reg = reg)
  others : ∀ reg, reg.name = name → (∀ x, σ = some x → x.reg ≠ reg) → s.loopAlive reg = false
  own : ∀ x, σ = some x → x.reg.name = name ∧ x.LoopOk s
  named : ∀ x, σ = some x → ∀ id task, (id, task) ∈ x.pending → id.name = name
  booted : ∀ x id, σ = some x → x.leave = .joining id ∨ x.leave = .unlinking id → x.boot = .done
  requests : ∀ id task, id.name = name → (task.arriving || task.leaving) = true →
    (s.requests id = some task ↔ ∃ x, σ = some x ∧ (id, task) ∈ x.pending)

end Slot

section
variable {env : Env} {s t : Daemon} {o : List Obs} {id : AdminId} {name : String} {reg : RegId}

structure SameName (env : Env) (s t : Daemon) (name : String) : Prop where
  inner : t.inner.lookup name = s.inner.lookup name
  tasks : t.projectTasks.lookup name = s.projectTasks.lookup name
  file : t.files (socketPathFor env.config.socketDir name) =
    s.files (socketPathFor env.config.socketDir name)
  loops : ∀ reg, reg.name = name → t.loops reg = s.loops reg
  requests : ∀ id, id.name = name → ∀ task, (task.arriving || task.leaving) = true →
    (t.requests id = some task ↔ s.requests id = some task)

theorem Daemon.loopAlive_congr (h : t.loops reg = s.loops reg) :
    t.loopAlive reg = s.loopAlive reg := by
  simp [Daemon.loopAlive, h]

theorem Daemon.loopAlive_of_ended (h : s.loopEnded reg = true) : s.loopAlive reg = false := by
  unfold Daemon.loopEnded at h
  unfold Daemon.loopAlive
  cases hl : s.loops reg with
  | none => rfl
  | some t => simpa [hl] using h

theorem Daemon.loopAlive_abortLoop {task : AdminTask} :
    ((s.abortLoop reg).setRequest id task).loopAlive reg = false := by
  simp only [Daemon.loopAlive, Daemon.setRequest_loops, Daemon.abortLoop_loops,
    Function.update_self]
  cases s.loops reg <;> rfl

theorem Slot.loopOk_congr {x : Slot} (h : t.loops x.reg = s.loops x.reg) :
    x.LoopOk t ↔ x.LoopOk s := by
  obtain ⟨reg, boot, leave⟩ := x
  cases boot <;> cases leave <;>
    simp only [Slot.LoopOk, Daemon.Untouched, Daemon.loopAlive] at h ⊢ <;> rw [h]

theorem Slot.Holds.congr {σ : Option Slot} (h : Slot.Holds env s name σ)
    (same : SameName env s t name) : Slot.Holds env t name σ := by
  constructor
  · rw [same.inner, h.inner]
  · rw [same.tasks, h.tasks]
  · intro reg hreg
    rw [← h.file reg hreg]
    unfold Daemon.Bound
    rw [hreg, same.file]
  · intro reg hreg hne
    rw [Daemon.loopAlive_congr (same.loops reg hreg)]
    exact h.others reg hreg hne
  · intro x hx
    obtain ⟨hname, hloop⟩ := h.own x hx
    exact ⟨hname, (Slot.loopOk_congr (same.loops _ hname)).mpr hloop⟩
  · exact h.named
  · exact h.booted
  · intro id task hid hmid
    rw [same.requests id hid task hmid]
    exact h.requests id task hid hmid

theorem AdminStep.sameName {a : AdminAction} (hrec : Records env s)
    (step : AdminStep env s id a t o) (hname : name ≠ id.name)
    (hvalid : isValidProjectName name = true) : SameName env s t name := by
  constructor
  · exact step.inner_other hname
  · exact step.tasks_other hname
  · exact step.file_other hrec hname hvalid
  · intro reg hreg
    exact step.loops_other hrec (hreg ▸ hname)
  · intro id' hid' task _
    obtain ⟨new, hnew⟩ := step.requests_eq
    have hne : id' ≠ id := fun heq => hname (hid' ▸ heq ▸ rfl)
    rw [hnew, Function.update_of_ne hne]

namespace Slot

variable {x : Slot}

/-- The slot has a request at this program point. -/
def At (x : Slot) (id : AdminId) : AdminTask → Prop
  | .spawning reg => ∃ leave, x = ⟨reg, .spawning id, leave⟩
  | .inserting reg => ∃ leave, x = ⟨reg, .inserting id, leave⟩
  | .notifying reg => ∃ boot, x = ⟨reg, boot, .notifying id⟩
  | .taking reg => ∃ boot, x = ⟨reg, boot, .taking id⟩
  | .joining reg handle => handle = reg ∧ ∃ boot, x = ⟨reg, boot, .joining id⟩
  | .unlinking reg => ∃ boot, x = ⟨reg, boot, .unlinking id⟩
  | _ => False

theorem at_of_mem {task : AdminTask} (h : (id, task) ∈ x.pending) : x.At id task := by
  obtain ⟨reg, boot, leave⟩ := x
  rcases List.mem_append.mp h with h | h
  · cases boot with
    | done => cases h
    | spawning | inserting =>
      cases List.mem_singleton.mp h
      exact ⟨leave, rfl⟩
  · cases leave with
    | staying => cases h
    | joining =>
      cases List.mem_singleton.mp h
      exact ⟨rfl, boot, rfl⟩
    | notifying | taking | unlinking =>
      cases List.mem_singleton.mp h
      exact ⟨boot, rfl⟩

theorem arriving_of_mem {boot : Boot} {task : AdminTask} (h : (id, task) ∈ boot.pending reg) :
    task.arriving = true ∧ task.leaving = false := by
  cases boot <;> simp only [Boot.pending, List.mem_singleton, List.not_mem_nil,
    Prod.mk.injEq] at h <;> obtain ⟨-, rfl⟩ := h <;> exact ⟨rfl, rfl⟩

theorem leaving_of_mem {leave : Leave} {task : AdminTask} (h : (id, task) ∈ leave.pending reg) :
    task.leaving = true := by
  cases leave <;> simp only [Leave.pending, List.mem_singleton, List.not_mem_nil,
    Prod.mk.injEq] at h <;> obtain ⟨-, rfl⟩ := h <;> rfl

theorem Holds.request_of_mem {task : AdminTask} (h : Holds env s name (some x))
    (hmem : (id, task) ∈ x.pending) : s.requests id = some task := by
  refine (h.requests id task (h.named x rfl id task hmem) ?_).mpr ⟨x, rfl, hmem⟩
  rcases List.mem_append.mp hmem with hboot | hleave
  · simp [(arriving_of_mem hboot).1]
  · simp [leaving_of_mem hleave]

theorem Holds.boot_leave {task task' : AdminTask} (h : Holds env s name (some x))
    (hboot : (id, task) ∈ x.boot.pending x.reg) : (id, task') ∉ x.leave.pending x.reg := by
  intro hleave
  have h₁ := h.request_of_mem (List.mem_append_left _ hboot)
  have h₂ := h.request_of_mem (List.mem_append_right _ hleave)
  obtain rfl : task = task' := Option.some.inj (h₁.symm.trans h₂)
  cases (arriving_of_mem hboot).2.symm.trans (leaving_of_mem hleave)

/-- A request that has not come to its locked section, and does not now, leaves the slot. -/
theorem Holds.idle {σ : Option Slot} {task : AdminTask} (h : Holds env s name σ)
    (hold : ∀ old, s.requests id = some old → (old.arriving || old.leaving) = false)
    (hnew : (task.arriving || task.leaving) = false)
    (hinner : t.inner = s.inner) (htasks : t.projectTasks = s.projectTasks)
    (hfiles : t.files = s.files) (hloops : t.loops = s.loops)
    (hrequests : t.requests = Function.update s.requests id (some task)) : Holds env t name σ := by
  refine h.congr ⟨by rw [hinner], by rw [htasks], by rw [hfiles], fun _ _ => by rw [hloops], ?_⟩
  intro id' _ task' hmid
  rw [hrequests]
  by_cases hid : id' = id
  · subst hid
    rw [Function.update_self]
    constructor
    · intro heq
      cases heq
      rw [hnew] at hmid
      cases hmid
    · intro heq
      rw [hold _ heq] at hmid
      cases hmid
  · rw [Function.update_of_ne hid]

/-- A request of the slot goes on, and the slot with it. -/
theorem Holds.requests_update {σ σ' : Option Slot} {task : AdminTask} (h : Holds env s name σ)
    (hrequests : t.requests = Function.update s.requests id (some task))
    (hother : ∀ id' task', id' ≠ id → ((∃ x, σ' = some x ∧ (id', task') ∈ x.pending) ↔
      ∃ x, σ = some x ∧ (id', task') ∈ x.pending))
    (hself : ∀ task', (∃ x, σ' = some x ∧ (id, task') ∈ x.pending) ↔
      task' = task ∧ (task.arriving || task.leaving) = true) :
    ∀ id' task', id'.name = name → (task'.arriving || task'.leaving) = true →
      (t.requests id' = some task' ↔ ∃ x, σ' = some x ∧ (id', task') ∈ x.pending) := by
  intro id' task' hid' hmid
  rw [hrequests]
  by_cases hid : id' = id
  · subst hid
    rw [Function.update_self, hself, Option.some.injEq, eq_comm]
    constructor
    · rintro rfl
      exact ⟨rfl, hmid⟩
    · exact And.left
  · rw [Function.update_of_ne hid, hother id' task' hid]
    exact h.requests id' task' hid' hmid

/-- Without an `unregister` in its window and without a map entry, the name is free. -/
theorem Holds.free {σ : Option Slot} (h : Holds env s name σ) (absent : s.inner.lookup name = none)
    (hleave : ∀ id task, id.name = name → s.requests id = some task → task.leaving = false) :
    σ = none := by
  cases σ with
  | none => rfl
  | some x =>
    exfalso
    rw [h.inner] at absent
    have hmem : ∀ id task, (id, task) ∈ x.pending → task.leaving = false := by
      intro id task hpending
      by_cases hl : task.leaving = true
      · have hid := h.named x rfl id task hpending
        have := (h.requests id task hid (by simp [hl])).mpr ⟨x, rfl, hpending⟩
        rw [hleave id task hid this] at hl
        cases hl
      · simpa using hl
    obtain ⟨reg, boot, leave⟩ := x
    cases leave with
    | staying => cases absent
    | notifying id | taking id | joining id | unlinking id =>
      have := hmem id _ (List.mem_append_right _ (List.mem_singleton_self _))
      cases this

theorem Holds.bindFailed {files : Files} {task : AdminTask} {gen : Nat} {out : BindOutcome}
    {e : RegistryError} {ops : List FileOp} (h : Holds env s id.name none)
    (hold : ∀ old, s.requests id = some old → (old.arriving || old.leaving) = false)
    (hnew : (task.arriving || task.leaving) = false)
    (bind : bindProjectSocket s.files (socketPathFor env.config.socketDir id.name)
      ⟨id.name, gen⟩ out
      = (files, .error e, ops)) :
    Holds env ({ s with files }.setRequest id task) id.name none := by
  have hidle : Holds env (s.setRequest id task) id.name none :=
    h.idle hold hnew rfl rfl rfl rfl rfl
  refine ⟨hidle.inner, hidle.tasks, ?_, hidle.others, hidle.own, hidle.named, hidle.booted,
    hidle.requests⟩
  intro reg hreg
  constructor
  · rintro ⟨mode, hfile⟩
    simp only [Daemon.setRequest_files, hreg] at hfile
    rcases (bindProjectSocket_error bind).2 with hsame | hnone | hfailed
    · exact (h.file reg hreg).mp ⟨mode, by rw [hreg, ← hsame, hfile]⟩
    · simp [hnone] at hfile
    · simp [hfailed] at hfile
  · rintro ⟨x, hx, -⟩
    cases hx

theorem Holds.bound {files : Files} {gen : Nat} {out : BindOutcome} {ops : List FileOp}
    {p : Project} (h : Holds env s id.name none) (fresh : s.loops ⟨id.name, gen⟩ = none)
    (bind : bindProjectSocket s.files (socketPathFor env.config.socketDir id.name)
      ⟨id.name, gen⟩ out
      = (files, .ok (), ops)) :
    Holds env (({ s with files, inner := s.inner.insert id.name ⟨id.name, gen⟩ }.setProject
      ⟨id.name, gen⟩ p).setRequest id (.spawning ⟨id.name, gen⟩)) id.name
      (some ⟨⟨id.name, gen⟩, .spawning id, .staying⟩) := by
  have hfiles := bindProjectSocket_ok bind
  constructor
  · exact AList.lookup_insert ..
  · exact h.tasks
  · intro reg hreg
    simp only [Daemon.Bound, Daemon.setRequest_files, Daemon.setProject_files, hfiles, hreg,
      Function.update_self]
    simp [eq_comm]
  · intro reg hreg _
    exact h.others reg hreg (by simp)
  · rintro x ⟨⟩
    exact ⟨rfl, fresh⟩
  · rintro x ⟨⟩ id' task hmem
    obtain ⟨rfl, -⟩ : id' = id ∧ _ := by simpa [pending, Boot.pending, Leave.pending] using hmem
    rfl
  · rintro x id' ⟨⟩ hleave
    rcases hleave with hleave | hleave <;> cases hleave
  · refine h.requests_update rfl ?_ ?_
    · intro id' task' hid
      simp [pending, Boot.pending, Leave.pending, hid]
    · intro task'
      simp [pending, Boot.pending, Leave.pending, AdminTask.arriving]

/-- The slot of a name when its `register` or `unregister` goes on: what is left to show is what
the step changed. -/
theorem Holds.advance {x x' : Slot} {task : AdminTask} (h : Holds env s id.name (some x))
    (hreg : x'.reg = x.reg) (hrequests : t.requests = Function.update s.requests id (some task))
    (hfiles : t.files = s.files) (hmid : (task.arriving || task.leaving) = true)
    (hpending : ∀ id' task', (id', task') ∈ x'.pending ↔
      id' = id ∧ task' = task ∨ id' ≠ id ∧ (id', task') ∈ x.pending)
    (hinner : t.inner.lookup id.name = mapped (some x'))
    (htasks : t.projectTasks.lookup id.name = handle (some x'))
    (hloops : ∀ reg, reg ≠ x.reg → t.loops reg = s.loops reg) (hown : x'.LoopOk t)
    (hbooted : ∀ id, x'.leave = .joining id ∨ x'.leave = .unlinking id → x'.boot = .done) :
    Holds env t id.name (some x') := by
  constructor
  · exact hinner
  · exact htasks
  · intro reg hname
    have hsame : t.Bound env reg ↔ s.Bound env reg := by
      unfold Daemon.Bound
      rw [hfiles]
    rw [hsame, h.file reg hname]
    simp [hreg]
  · intro reg hname hne
    have hne' : reg ≠ x.reg := fun heq => hne x' rfl (hreg.trans heq.symm)
    rw [Daemon.loopAlive_congr (hloops reg hne')]
    exact h.others reg hname (by simpa using hne'.symm)
  · rintro y ⟨⟩
    exact ⟨hreg ▸ (h.own x rfl).1, hown⟩
  · rintro y ⟨⟩ id' task' hmem
    rcases (hpending id' task').mp hmem with ⟨rfl, -⟩ | ⟨-, hold⟩
    · rfl
    · exact h.named x rfl id' task' hold
  · rintro y id' ⟨⟩ hl
    exact hbooted id' hl
  · refine h.requests_update hrequests ?_ ?_
    · intro id' task' hid
      simp [hpending, hid]
    · intro task'
      simp [hpending, hmid]

theorem Holds.spawned {leave : Leave} (h : Holds env s id.name (some ⟨reg, .spawning id, leave⟩)) :
    Holds env ((s.setLoop reg .new).setRequest id (.inserting reg)) id.name
      (some ⟨reg, .inserting id, leave⟩) := by
  have hleave : ∀ task', (id, task') ∉ leave.pending reg :=
    fun task' => h.boot_leave (List.mem_singleton_self _)
  have hboot : ∀ id', ¬ (leave = .joining id' ∨ leave = .unlinking id') :=
    fun id' hl => absurd (h.booted _ id' rfl hl) (by simp)
  refine h.advance rfl rfl rfl rfl ?_ ?_ ?_ ?_ ?_ ?_
  · intro id' task'
    by_cases hid : id' = id <;> simp [pending, Boot.pending, hid, hleave]
  · cases leave <;> exact h.inner
  · cases leave <;> exact h.tasks
  · intro reg' hne
    exact Function.update_of_ne hne ..
  · cases leave with
    | staying => exact ⟨_, _, Function.update_self .., rfl, rfl, rfl⟩
    | unlinking id' => exact absurd (.inr rfl) (hboot id')
    | notifying | taking | joining => trivial
  · exact fun id' hl => absurd hl (hboot id')

theorem Holds.inserted {leave : Leave} {r : AdminResponse}
    (h : Holds env s id.name (some ⟨reg, .inserting id, leave⟩)) :
    Holds env ({ s with projectTasks := s.projectTasks.insert id.name reg }.setRequest id (.done r))
      id.name (some ⟨reg, .done, leave⟩) := by
  have hleave : ∀ task', (id, task') ∉ leave.pending reg :=
    fun task' => h.boot_leave (List.mem_singleton_self _)
  have hboot : ∀ id', ¬ (leave = .joining id' ∨ leave = .unlinking id') :=
    fun id' hl => absurd (h.booted _ id' rfl hl) (by simp)
  constructor
  · cases leave <;> exact h.inner
  · cases leave with
    | staying | notifying | taking => exact AList.lookup_insert ..
    | joining id' => exact absurd (.inl rfl) (hboot id')
    | unlinking id' => exact absurd (.inr rfl) (hboot id')
  · intro reg' hname
    refine Iff.trans (h.file reg' hname) ?_
    simp
  · intro reg' hname hne
    exact h.others reg' hname (by simpa using hne)
  · rintro y ⟨⟩
    refine ⟨(h.own _ rfl).1, ?_⟩
    have hown := (h.own _ rfl).2
    cases leave <;> exact hown
  · rintro y ⟨⟩ id' task' hmem
    refine h.named _ rfl id' task' ?_
    simpa [pending, Boot.pending] using .inr hmem
  · rintro y id' ⟨⟩ hl
    rfl
  · refine h.requests_update rfl ?_ ?_
    · intro id' task' hid
      simp [pending, Boot.pending, hid]
    · intro task'
      simp [pending, Boot.pending, hleave, AdminTask.arriving, AdminTask.leaving]

theorem Holds.removed {boot : Boot} (h : Holds env s id.name (some ⟨reg, boot, .staying⟩))
    (hboot : ∀ task', (id, task') ∉ boot.pending reg) :
    Holds env ({ s with inner := s.inner.erase id.name }.setRequest id (.notifying reg)) id.name
      (some ⟨reg, boot, .notifying id⟩) := by
  refine h.advance rfl rfl rfl rfl ?_ ?_ ?_ ?_ ?_ ?_
  · intro id' task'
    by_cases hid : id' = id <;> simp [pending, Leave.pending, hid, hboot]
  · exact AList.lookup_erase ..
  · cases boot <;> exact h.tasks
  · exact fun reg' hne => rfl
  · cases boot with
    | spawning => exact (h.own _ rfl).2
    | inserting | done => trivial
  · intro id' hl
    rcases hl with hl | hl <;> cases hl

theorem Holds.notified {boot : Boot} (h : Holds env s id.name (some ⟨reg, boot, .notifying id⟩)) :
    Holds env ((s.notifyStop reg).setRequest id (.taking reg)) id.name
      (some ⟨reg, boot, .taking id⟩) := by
  have hboot : ∀ task', (id, task') ∉ boot.pending reg :=
    fun task' hmem => h.boot_leave hmem (List.mem_singleton_self _)
  refine h.advance rfl rfl rfl rfl ?_ ?_ ?_ ?_ ?_ ?_
  · intro id' task'
    by_cases hid : id' = id <;> simp [pending, Leave.pending, hid, hboot]
  · exact h.inner
  · cases boot <;> exact h.tasks
  · exact fun reg' hne => Function.update_of_ne hne ..
  · cases boot with
    | spawning id' =>
      have hnone : s.loops reg = none := (h.own _ rfl).2
      simp [LoopOk, hnone]
    | inserting | done => trivial
  · intro id' hl
    rcases hl with hl | hl <;> cases hl

theorem Holds.taken (h : Holds env s id.name (some ⟨reg, .done, .taking id⟩)) :
    Holds env ({ s with projectTasks := s.projectTasks.erase id.name }.setRequest id
      (.joining reg reg)) id.name (some ⟨reg, .done, .joining id⟩) := by
  refine h.advance rfl rfl rfl rfl ?_ ?_ ?_ ?_ ?_ ?_
  · intro id' task'
    by_cases hid : id' = id <;> simp [pending, Boot.pending, Leave.pending, hid]
  · exact h.inner
  · exact AList.lookup_erase ..
  · exact fun reg' hne => rfl
  · trivial
  · exact fun id' hl => rfl

theorem Holds.ended (h : Holds env s id.name (some ⟨reg, .done, .joining id⟩))
    (hrequests : t.requests = Function.update s.requests id (some (.unlinking reg)))
    (hinner : t.inner = s.inner) (htasks : t.projectTasks = s.projectTasks)
    (hfiles : t.files = s.files) (hloops : ∀ reg', reg' ≠ reg → t.loops reg' = s.loops reg')
    (hended : t.loopAlive reg = false) :
    Holds env t id.name (some ⟨reg, .done, .unlinking id⟩) := by
  refine h.advance rfl hrequests hfiles rfl ?_ ?_ ?_ hloops hended ?_
  · intro id' task'
    by_cases hid : id' = id <;> simp [pending, Boot.pending, Leave.pending, hid]
  · rw [hinner]
    exact h.inner
  · rw [htasks]
    exact h.tasks
  · exact fun id' hl => rfl

theorem Holds.unlinked {path : String} {r : AdminResponse}
    (h : Holds env s id.name (some ⟨reg, .done, .unlinking id⟩))
    (hpath : path = socketPathFor env.config.socketDir id.name) :
    Holds env ((s.removeFile path none).setRequest id (.done r)) id.name none := by
  constructor
  · exact h.inner
  · exact h.tasks
  · intro reg' hname
    simp [Daemon.Bound, hname, hpath]
  · intro reg' hname _
    by_cases hreg : reg' = reg
    · subst hreg
      exact (h.own _ rfl).2
    · exact h.others reg' hname (by simpa using Ne.symm hreg)
  · rintro x ⟨⟩
  · rintro x ⟨⟩
  · rintro x id' ⟨⟩
  · refine h.requests_update rfl ?_ ?_
    · intro id' task' hid
      simp [pending, Boot.pending, Leave.pending, hid]
    · intro task'
      simp [AdminTask.arriving, AdminTask.leaving]

/-- A `register` in its window would stand in the way of taking the handle. -/
theorem Holds.booted_of_take {boot : Boot} (h : Holds env s id.name (some ⟨reg, boot, .taking id⟩))
    (hclean : ∀ id' task, id'.name = id.name → s.requests id' = some task →
      task.arriving = false) : boot = .done := by
  cases boot with
  | done => rfl
  | spawning id' =>
    have hmem : (id', .spawning reg) ∈ pending ⟨reg, .spawning id', .taking id⟩ := by
      simp [pending, Boot.pending]
    cases hclean id' _ (h.named _ rfl id' _ hmem) (h.request_of_mem hmem)
  | inserting id' =>
    have hmem : (id', .inserting reg) ∈ pending ⟨reg, .inserting id', .taking id⟩ := by
      simp [pending, Boot.pending]
    cases hclean id' _ (h.named _ rfl id' _ hmem) (h.request_of_mem hmem)

theorem Holds.admin {σ : Option Slot} {a : AdminAction} (hrec : Records env s)
    (step : AdminStep env s id a t o) (hclean : NoOverlap s (.admin id a))
    (h : Holds env s id.name σ) : ∃ σ', Holds env t id.name σ' := by
  have hidle : ∀ {task}, s.requests id = some task → (task.arriving || task.leaving) = false →
      ∀ old, s.requests id = some old → (old.arriving || old.leaving) = false := by
    intro task htask hmid old hold
    exact Option.some.inj (hold.symm.trans htask) ▸ hmid
  cases step with
  | @submit op task =>
    refine ⟨σ, h.idle (fun old hold => by simp [task] at hold) ?_ rfl rfl rfl rfl rfl⟩
    cases op <;> rfl
  | registerFailed task | registerLoaded task | projectExists task | unregisterUnknown task
  | reloadUnknown task | lookedUp task | reloadFailed task | reloadLoaded task | configured task
  | stored task =>
    exact ⟨σ, h.idle (hidle task rfl) rfl rfl rfl rfl rfl rfl⟩
  | bindFailed task absent fresh bind =>
    obtain rfl := h.free absent hclean
    exact ⟨_, h.bindFailed (hidle task rfl) rfl bind⟩
  | @bound path m mp gen out files ops task absent fresh bind =>
    obtain rfl := h.free absent hclean
    refine ⟨_, h.bound ?_ bind⟩
    by_contra hloop
    have hsome := hrec.loop _ (Option.isSome_iff_ne_none.mpr hloop)
    simp [fresh] at hsome
  | spawned task =>
    obtain ⟨x, rfl, hmem⟩ := (h.requests id _ rfl rfl).mp task
    obtain ⟨leave, rfl⟩ := at_of_mem hmem
    exact ⟨_, h.spawned⟩
  | inserted task =>
    obtain ⟨x, rfl, hmem⟩ := (h.requests id _ rfl rfl).mp task
    obtain ⟨leave, rfl⟩ := at_of_mem hmem
    exact ⟨_, h.inserted⟩
  | @removed reg task found =>
    obtain ⟨boot, rfl⟩ : ∃ boot, σ = some ⟨reg, boot, .staying⟩ := by
      rw [h.inner] at found
      unfold mapped at found
      split at found
      · cases found
        exact ⟨_, rfl⟩
      · cases found
    refine ⟨_, h.removed fun task' hmem => ?_⟩
    have hpending := h.request_of_mem (List.mem_append_left _ hmem)
    rw [task] at hpending
    cases hpending
    cases (arriving_of_mem hmem).1
  | notified task =>
    obtain ⟨x, rfl, hmem⟩ := (h.requests id _ rfl rfl).mp task
    obtain ⟨boot, rfl⟩ := at_of_mem hmem
    exact ⟨_, h.notified⟩
  | @taken reg handle task found =>
    obtain ⟨x, rfl, hmem⟩ := (h.requests id _ rfl rfl).mp task
    obtain ⟨boot, rfl⟩ := at_of_mem hmem
    obtain rfl := h.booted_of_take hclean
    obtain rfl : handle = reg := Option.some.inj (found.symm.trans h.tasks)
    exact ⟨_, h.taken⟩
  | noTask task absent =>
    obtain ⟨x, rfl, hmem⟩ := (h.requests id _ rfl rfl).mp task
    obtain ⟨boot, rfl⟩ := at_of_mem hmem
    obtain rfl := h.booted_of_take hclean
    cases absent.symm.trans h.tasks
  | joined task ended =>
    obtain ⟨x, rfl, hmem⟩ := (h.requests id _ rfl rfl).mp task
    obtain ⟨rfl, boot, rfl⟩ := at_of_mem hmem
    obtain rfl : boot = .done := h.booted _ id rfl (.inl rfl)
    refine ⟨_, h.ended rfl rfl rfl rfl (fun _ _ => rfl) ?_⟩
    exact Daemon.loopAlive_of_ended ended
  | timedOut task =>
    obtain ⟨x, rfl, hmem⟩ := (h.requests id _ rfl rfl).mp task
    obtain ⟨rfl, boot, rfl⟩ := at_of_mem hmem
    obtain rfl : boot = .done := h.booted _ id rfl (.inl rfl)
    refine ⟨_, h.ended rfl rfl rfl rfl (fun _ hne => Function.update_of_ne hne ..) ?_⟩
    exact Daemon.loopAlive_abortLoop
  | @unlinked reg p error task project =>
    obtain ⟨x, rfl, hmem⟩ := (h.requests id _ rfl rfl).mp task
    obtain ⟨boot, rfl⟩ := at_of_mem hmem
    obtain rfl : boot = .done := h.booted _ id rfl (.inr rfl)
    obtain rfl : error = none := hclean
    refine ⟨none, h.unlinked ?_⟩
    rw [(hrec.project reg p project).2.1, (h.own _ rfl).1]

end Slot

theorem LoopStep.alive {a : LoopAction} (step : LoopStep s reg a t) : s.loopAlive reg = true := by
  cases step with
  | selected task state | spawned task state | joined task state | drained task state
  | aborted task state => simp [Daemon.loopAlive, task, LoopTask.alive, state]

theorem LoopStep.untouched {a : LoopAction} (step : LoopStep s reg a t) (h : s.Untouched reg) :
    t.Untouched reg := by
  obtain ⟨t₀, l₀, hloop, hstate, hnotified, hrunning⟩ := h
  cases step with
  | selected task state pc accept | spawned task state pc fresh accept =>
    obtain rfl := Option.some.inj (hloop.symm.trans task)
    obtain rfl : l₀ = _ := LoopState.accepting.inj (hstate.symm.trans state)
    obtain ⟨hn, hr⟩ := AcceptLoop.step_running accept hnotified
    exact ⟨_, _, Function.update_self .., by simp [LoopState.ofAccept, hr], hn, hr⟩
  | joined task state | drained task state | aborted task state =>
    obtain rfl := Option.some.inj (hloop.symm.trans task)
    cases hstate.symm.trans state

theorem Slot.Holds.loopStep {σ : Option Slot} {a : LoopAction} (step : LoopStep s reg a t)
    (h : Slot.Holds env s name σ) : Slot.Holds env t name σ := by
  obtain ⟨hinner, htasks, hrequests, hfiles⟩ := step.frame
  by_cases hname : reg.name = name
  · obtain ⟨x, rfl, rfl⟩ : ∃ x, σ = some x ∧ x.reg = reg := by
      by_contra hno
      have hdead := h.others reg hname fun x hx heq => hno ⟨x, hx, heq⟩
      cases hdead.symm.trans step.alive
    refine ⟨hinner ▸ h.inner, htasks ▸ h.tasks, ?_, ?_, ?_, h.named, h.booted,
      hrequests ▸ h.requests⟩
    · intro reg' hreg'
      rw [← h.file reg' hreg']
      unfold Daemon.Bound
      rw [hfiles]
    · intro reg' hreg' hne
      have hother : reg' ≠ x.reg := fun heq => hne x rfl heq.symm
      rw [Daemon.loopAlive_congr (step.loops_other hother)]
      exact h.others reg' hreg' hne
    · rintro y ⟨⟩
      obtain ⟨hreg, hok⟩ := h.own x rfl
      refine ⟨hreg, ?_⟩
      obtain ⟨reg, boot, leave⟩ := x
      have halive := step.alive
      cases boot with
      | spawning id =>
        have hnone : s.loops reg = none := hok
        simp [Daemon.loopAlive, hnone] at halive
      | inserting | done =>
        cases leave with
        | staying => exact step.untouched hok
        | unlinking => exact absurd halive (by rw [show s.loopAlive reg = false from hok]; simp)
        | notifying | taking | joining => trivial
  · refine h.congr ⟨by rw [hinner], by rw [htasks], by rw [hfiles], ?_, fun _ _ _ _ => by
      rw [hrequests]⟩
    intro reg' hreg'
    exact step.loops_other (fun heq => hname (heq ▸ hreg'))

end

end RemoBroker
