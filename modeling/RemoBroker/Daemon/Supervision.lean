import RemoBroker.Daemon.Records

/-! Who watches over the tasks.  A connection task that has not ended is in the `JoinSet` of the
accept loop of its registration, and that loop has not ended, unless the loop was aborted while the
connection was between two awaits.  An accept loop is spawned once. -/

namespace RemoBroker

/-- An accept loop that has not ended has the connection in its `JoinSet`. -/
def Daemon.Watched (s : Daemon) (c : ConnId) : Prop :=
  ∃ l, s.loops c.reg = some l ∧ l.alive = true ∧ c.num ∈ l.joinSet

/-- The connections that the accept loop of a registration has in its `JoinSet` stand at awaits. -/
def Daemon.idle (s : Daemon) (reg : RegId) : Bool :=
  (s.loops reg).all fun l => l.joinSet.all fun num =>
    (s.conns ⟨reg, num⟩).all fun conn => !conn.pc.running

/-- Every connection that has not ended is watched. -/
def Daemon.Attended (s : Daemon) : Prop :=
  ∀ c conn, s.conns c = some conn → conn.isClosed = false → s.Watched c

/-- A `register` that is about to spawn the accept loop of a registration is the only one, with no
loop spawned before. -/
structure Supervised (s : Daemon) : Prop where
  unspawned : ∀ id reg, s.requests id = some (.spawning reg) → s.loops reg = none
  spawner : ∀ id id' reg, s.requests id = some (.spawning reg) →
    s.requests id' = some (.spawning reg) → id = id'

section
variable {env : Env} {s t : Daemon} {o : List Obs} {id id' : AdminId} {reg : RegId}

@[simp] theorem LoopTask.alive_notifyWaiters (l : LoopTask) : l.notifyWaiters.alive = l.alive := by
  obtain ⟨state, joinSet⟩ := l
  cases state <;> rfl

@[simp] theorem LoopTask.joinSet_notifyWaiters (l : LoopTask) :
    l.notifyWaiters.joinSet = l.joinSet := by
  obtain ⟨state, joinSet⟩ := l
  cases state <;> rfl

theorem AdminStep.request_other {a : AdminAction} (step : AdminStep env s id a t o)
    (hid : id' ≠ id) : t.requests id' = s.requests id' := by
  obtain ⟨task, hnew⟩ := step.requests_eq
  rw [hnew, Function.update_of_ne hid]

theorem AdminStep.spawning_cases {a : AdminAction} (step : AdminStep env s id a t o)
    (h : t.requests id' = some (.spawning reg)) :
    id' ≠ id ∧ s.requests id' = some (.spawning reg) ∨
      id' = id ∧ s.projects reg = none ∧ t.loops = s.loops := by
  by_cases hid : id' = id
  · subst hid
    refine .inr ⟨rfl, ?_⟩
    cases step with
    | bound task absent fresh =>
      simp only [Daemon.setRequest_requests, Function.update_self, Option.some.injEq,
        AdminTask.spawning.injEq] at h
      subst h
      exact ⟨fresh, rfl⟩
    | submit =>
      rename_i op _
      cases op <;> simp [AdminOp.start] at h
    | _ => simp at h
  · exact .inl ⟨hid, step.request_other hid ▸ h⟩

/-- Aborting the tasks of a `JoinSet` opens no connection and leaves open only those that run. -/
theorem abortConns_open {conns : ConnId → Option Conn} {joinSet : List Nat} {c : ConnId}
    {conn : Conn} (h : Daemon.abortConns conns reg joinSet c = some conn)
    (hopen : conn.isClosed = false) :
    ∃ old, conns c = some old ∧ old.isClosed = false ∧
      (c.reg = reg → c.num ∈ joinSet → old.pc.running = true) := by
  unfold Daemon.abortConns at h
  split at h
  · obtain ⟨old, hold, rfl⟩ := Option.map_eq_some_iff.mp h
    unfold Conn.abort at hopen
    split at hopen
    · exact ⟨old, hold, hopen, fun _ _ => ‹_›⟩
    · cases hopen
  · rename_i hnot
    exact ⟨conn, h, hopen, fun hreg hmem => absurd ⟨hreg, hmem⟩ hnot⟩

/-- The abort of an accept loop whose connections stand at awaits leaves no open connection without
a loop. -/
theorem Daemon.Attended.abortLoop (h : s.Attended) (hidle : s.idle reg = true) :
    (s.abortLoop reg).Attended := by
  intro c conn hconn hopen
  obtain ⟨old, hold, hopen', hrunning⟩ := abortConns_open hconn hopen
  obtain ⟨l, hl, halive, hmem⟩ := h c old hold hopen'
  have hreg : c.reg ≠ reg := by
    rintro rfl
    have hconns := List.all_eq_true.mp (by simpa [Daemon.idle, hl] using hidle) c.num hmem
    simp [hold, hrunning rfl (by rw [hl]; exact hmem)] at hconns
  exact ⟨l, by rw [Daemon.abortLoop_loops, Function.update_of_ne hreg, hl], halive, hmem⟩

theorem Daemon.Watched.notifyStop {c : ConnId} (h : s.Watched c) :
    (s.notifyStop reg).Watched c := by
  obtain ⟨l, hl, halive, hmem⟩ := h
  by_cases hreg : c.reg = reg
  · subst hreg
    exact ⟨l.notifyWaiters, by simp [hl], by simpa using halive, by simpa using hmem⟩
  · exact ⟨l, by rw [Daemon.notifyStop_loops, Function.update_of_ne hreg, hl], halive, hmem⟩

theorem LoopState.ofAccept_ne_ended (l : AcceptLoop) : LoopState.ofAccept l ≠ .ended := by
  unfold LoopState.ofAccept
  split <;> simp

theorem AdminStep.attended {a : AdminAction} (step : AdminStep env s id a t o) (h : s.Attended)
    (hspawn : ∀ reg, s.requests id = some (.spawning reg) → s.loops reg = none)
    (hidle : ∀ reg handle, a = .abortTask → s.requests id = some (.joining reg handle) →
      s.idle handle = true) : t.Attended := by
  cases step with
  | @spawned reg task =>
    intro c conn hconn hopen
    obtain ⟨l, hl, halive, hmem⟩ := h c conn hconn hopen
    have hreg : c.reg ≠ reg := by
      intro heq
      rw [heq, hspawn reg task] at hl
      cases hl
    refine ⟨l, ?_, halive, hmem⟩
    rw [Daemon.setRequest_loops, Daemon.setLoop_loops, Function.update_of_ne hreg, hl]
  | notified => exact fun c conn hconn hopen => (h c conn hconn hopen).notifyStop
  | @timedOut reg handle task => exact h.abortLoop (hidle reg handle rfl task)
  | _ => exact h

theorem LoopStep.watched {a : LoopAction} {c : ConnId} {conn : Conn} (step : LoopStep s reg a t)
    (h : s.Watched c) (hconn : t.conns c = some conn) (hopen : conn.isClosed = false) :
    t.Watched c := by
  obtain ⟨l, hl, halive, hmem⟩ := h
  by_cases hreg : c.reg = reg
  · subst hreg
    cases step with
    | @selected l₀ _ l' _ task state pc accept =>
      obtain rfl := Option.some.inj (hl.symm.trans task)
      refine ⟨_, Function.update_self .., ?_, hmem⟩
      simpa [LoopTask.alive] using LoopState.ofAccept_ne_ended l'
    | @spawned l₀ _ l' num pid uid task state pc fresh accept =>
      obtain rfl := Option.some.inj (hl.symm.trans task)
      refine ⟨_, Function.update_self .., ?_, List.mem_cons_of_mem _ hmem⟩
      simpa [LoopTask.alive] using LoopState.ofAccept_ne_ended l'
    | @joined l₀ num task state closed =>
      obtain rfl := Option.some.inj (hl.symm.trans task)
      have hnum : c.num ≠ num := by
        rintro rfl
        rw [closed conn hconn] at hopen
        cases hopen
      exact ⟨_, Function.update_self .., halive, (List.mem_erase_of_ne hnum).mpr hmem⟩
    | @drained l₀ task state empty =>
      obtain rfl := Option.some.inj (hl.symm.trans task)
      simp [empty] at hmem
    | aborted => exact ⟨l, hl, halive, hmem⟩
  · exact ⟨l, (step.loops_other hreg).trans hl, halive, hmem⟩

theorem LoopStep.attended {a : LoopAction} (step : LoopStep s reg a t) (h : s.Attended) :
    t.Attended := by
  intro c conn hconn hopen
  by_cases hnew : ∃ old, s.conns c = some old ∧ old.isClosed = false
  · obtain ⟨old, hold, hopen'⟩ := hnew
    exact step.watched (h c old hold hopen') hconn hopen
  · cases step with
    | selected | joined | drained => exact absurd ⟨conn, hconn, hopen⟩ hnew
    | @spawned l₀ _ l' num pid uid task state pc fresh accept =>
      by_cases hc : c = ⟨reg, num⟩
      · subst hc
        refine ⟨_, Function.update_self .., ?_, List.mem_cons_self⟩
        simpa [LoopTask.alive] using LoopState.ofAccept_ne_ended l'
      · exact absurd ⟨conn, by simpa [Function.update_of_ne hc] using hconn, hopen⟩ hnew
    | aborted =>
      obtain ⟨old, hold, hopen', -⟩ := abortConns_open hconn hopen
      exact absurd ⟨old, hold, hopen'⟩ hnew

theorem DaemonStep.attended {a : Action} (step : DaemonStep env s a t o) (h : s.Attended)
    (hsupervised : Supervised s)
    (hidle : ∀ id reg handle, a = .admin id .abortTask →
      s.requests id = some (.joining reg handle) → s.idle handle = true) : t.Attended := by
  cases step with
  | @admin id a _ _ step =>
    exact step.attended h (hsupervised.unspawned id) fun reg handle ha => hidle id reg handle
      (by rw [ha])
  | loop step => exact step.attended h
  | @conn c a conn p p' conn' o task project step =>
    intro d new hnew hopen
    rcases Function.update_some_cases hnew with ⟨rfl, rfl⟩ | ⟨-, hold⟩
    · exact h d conn task step.isOpen
    · exact h d new hold hopen
  | rotate | status | writer => exact h

theorem Supervised.admin {a : AdminAction} (h : Supervised s) (hrec : Records env s)
    (step : AdminStep env s id a t o) : Supervised t := by
  constructor
  · intro id' reg hspawning
    rcases step.spawning_cases hspawning with ⟨hid, hold⟩ | ⟨-, hfresh, hloops⟩
    · by_contra hsome
      rcases step.loop_isSome (Option.ne_none_iff_isSome.mp hsome) with hloop | htask
      · simp [h.unspawned id' reg hold] at hloop
      · exact hid (h.spawner id' id reg hold htask)
    · rw [hloops]
      by_contra hsome
      have hproject := hrec.loop reg (Option.ne_none_iff_isSome.mp hsome)
      simp [hfresh] at hproject
  · intro id₁ id₂ reg h₁ h₂
    -- a record that has just been created is in no other request
    have fresh : ∀ {id'}, s.projects reg = none → s.requests id' ≠ some (.spawning reg) := by
      intro id' hfresh hold
      have hproject := (hrec.request id' _ hold reg (by simp [AdminTask.regs])).2
      simp [hfresh] at hproject
    rcases step.spawning_cases h₁ with ⟨-, hold₁⟩ | ⟨rfl, hfresh, -⟩ <;>
      rcases step.spawning_cases h₂ with ⟨-, hold₂⟩ | ⟨rfl, hfresh', -⟩
    · exact h.spawner id₁ id₂ reg hold₁ hold₂
    · exact absurd hold₁ (fresh hfresh')
    · exact absurd hold₂ (fresh hfresh)
    · rfl

theorem Supervised.loopStep {a : LoopAction} (h : Supervised s) (step : LoopStep s reg a t) :
    Supervised t := by
  obtain ⟨-, -, hrequests, -⟩ := step.frame
  refine ⟨?_, hrequests ▸ h.spawner⟩
  · intro id reg' hspawning
    by_contra hsome
    have hold := step.loop_isSome (Option.ne_none_iff_isSome.mp hsome)
    simp [h.unspawned id reg' (hrequests ▸ hspawning)] at hold

theorem Supervised.step {a : Action} (h : Supervised s) (hrec : Records env s)
    (step : DaemonStep env s a t o) : Supervised t := by
  cases step with
  | admin step => exact h.admin hrec step
  | loop step => exact h.loopStep step
  | conn | rotate | status | writer => exact ⟨h.unspawned, h.spawner⟩

theorem Supervised.initial {backend : Option Session} {stale : Daemon.Stale} :
    Supervised (Daemon.init env backend stale) := by
  constructor <;> simp [Daemon.init]

end

end RemoBroker
