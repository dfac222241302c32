import RemoBroker.Liveness
import RemoBroker.Shutdown.Whole

/-! The shutdown of the server needs nobody else.  From wherever the server stands, if the signal is
not lost, it can come to the end of `Server::run` with the signal, the steps of the accept loop of
`run` and of the shutdown, and those of the admin requests in progress, without a connection, an
accept loop of a project, the backend or the audit log.  If the signal is lost, `run` serves for
ever. -/

namespace RemoBroker

open Machine

/-- The signal, and the steps of the accept loop of `run` that need no client. -/
def SigtermAction.unaided : SigtermAction → Bool
  | .loop .acceptOk | .loop .acceptErr => false
  | _ => true

/-- These, the steps of the shutdown, and those that carry on an admin request. -/
def ShutdownAction.unaided : ShutdownAction → Bool
  | .sigterm a => a.unaided
  | .act (.admin _ (.submit _)) => false
  | .act (.admin _ _) => true
  | .act _ => false
  | _ => true

/-- The signal is lost: the signal task has notified, and the accept loop will not see it. -/
def Server.deaf (x : Server) : Bool :=
  x.phase = .serving && x.sigterm.issued && !x.sigterm.loop.reached

namespace AcceptLoop

variable {l l' : AcceptLoop}

/-- A notification is kept until it is seen. -/
def Heard (l : AcceptLoop) : Prop := l.notified = true → l.reached = true

theorem Heard.step {a : AcceptAction} (h : l.Heard) (hstep : l.step a = some l') : l'.Heard := by
  obtain ⟨pc, notified⟩ := l
  cases a <;> simp only [AcceptLoop.step, Option.ite_none_right_eq_some, Option.some.injEq] at hstep
    <;> obtain ⟨hpc, rfl⟩ := hstep <;> intro hn <;> simp_all [reached, hasNotified]

theorem Heard.notifyWaiters (h : l.Heard) : l.notifyWaiters.Heard := by
  unfold AcceptLoop.notifyWaiters
  split
  · rename_i hhas
    exact fun _ => by simp_all [reached, hasNotified]
  · exact h

end AcceptLoop

namespace Sigterm

variable {x y : Sigterm} {a : SigtermAction} {o : List SigtermAction}

theorem heard_step (h : x.loop.Heard) (hstep : step x a = some (y, o)) : y.loop.Heard := by
  cases a with
  | signal =>
    simp only [step] at hstep
    split at hstep
    · cases hstep
    · cases hstep
      exact h.notifyWaiters
  | loop a =>
    obtain ⟨l, hl, heq⟩ := Option.map_eq_some_iff.mp hstep
    cases heq
    exact h.step hl

/-- Where the loop comes to without a client. -/
abbrev Goes (x y : Sigterm) : Prop := Reach step (fun a => a.unaided = true) x y

theorem Goes.loop {a : AcceptAction} {l : AcceptLoop} (hok : a ≠ .acceptOk) (herr : a ≠ .acceptErr)
    (hl : x.loop.step a = some l) (h : Goes { x with loop := l } y) : Goes x y := by
  have hstep : step x (.loop a) = some ({ x with loop := l }, [.loop a]) := by simp [step, hl]
  refine .head hstep ?_ h
  cases a <;> first | rfl | contradiction

/-- A loop that was notified comes to its shutdown branch. -/
theorem goes_of_reached (h : x.loop.reached = true) : ∃ y, Goes x y ∧ y.loop.pc = .stopped := by
  induction hn : x.loop.distance using Nat.strongRecOn generalizing x with
  | ind n ih =>
    by_cases hpc : x.loop.pc = .stopped
    · exact ⟨x, .refl, hpc⟩
    · obtain ⟨a, hok, herr, hsome⟩ := AcceptLoop.step_of_reached h hpc
      obtain ⟨l, hl⟩ := Option.isSome_iff_exists.mp hsome
      obtain ⟨hreached, hnearer⟩ := AcceptLoop.step_reached hl h hok herr
      obtain ⟨y, hy, hstopped⟩ := ih l.distance (hn ▸ hnearer) (x := { x with loop := l }) hreached
        rfl
      exact ⟨y, .loop hok herr hl hy, hstopped⟩

/-- A loop comes to where a notification finds it, or has stopped. -/
theorem goes_to_listen (x : Sigterm) : ∃ y, Goes x y ∧ y.issued = x.issued ∧
    (y.loop.hasNotified = true ∨ y.loop.pc = .stopped) := by
  obtain ⟨⟨pc, notified⟩, issued⟩ := x
  have hstart : ∀ notified, ∃ y, Goes ⟨⟨.starting, notified⟩, issued⟩ y ∧ y.issued = issued ∧
      (y.loop.hasNotified = true ∨ y.loop.pc = .stopped) := fun notified =>
    ⟨_, .loop (a := .iterate) (by simp) (by simp) rfl .refl, rfl, .inl rfl⟩
  cases pc with
  | polling | polled | parked => exact ⟨_, .refl, rfl, .inl rfl⟩
  | stopped => exact ⟨_, .refl, rfl, .inr rfl⟩
  | starting => exact hstart notified
  | accepted | backoff =>
    obtain ⟨y, hy, hrest⟩ := hstart false
    exact ⟨y, .loop (a := .finishBranch) (by simp) (by simp) rfl hy, hrest⟩

theorem stops (h : x.issued = true → x.loop.reached = true) :
    ∃ y, Goes x y ∧ y.loop.pc = .stopped := by
  cases hissued : x.issued with
  | true => exact goes_of_reached (h hissued)
  | false =>
    obtain ⟨y, hy, hsame, hhas | hstopped⟩ := goes_to_listen x
    · have hsignal : step y .signal = some (⟨y.loop.notifyWaiters, true⟩, [.signal]) := by
        simp [step, hsame, hissued]
      obtain ⟨z, hz, hstopped⟩ := goes_of_reached (x := ⟨y.loop.notifyWaiters, true⟩)
        (AcceptLoop.reached_notifyWaiters hhas).1
      exact ⟨z, hy.trans (.head hsignal rfl hz), hstopped⟩
    · exact ⟨y, hy, hstopped⟩

end Sigterm

namespace Server

abbrev Completes (env : Env) (x y : Server) : Prop :=
  Reach (Server.step env) (fun a => a.unaided = true) x y

section
variable {env : Env} {x y : Server} {o tr : List Obs} {id : AdminId}

theorem records_step {a : ShutdownAction} (h : Records env x.daemon)
    (hstep : Server.step env x a = some (y, o)) : Records env y.daemon := by
  rcases Server.step_whole hstep with ⟨hsame, -⟩ | ⟨b, o', hwhole, -⟩
  · exact hsame ▸ h
  · exact h.whole (wholeStep_cases hwhole)

theorem Completes.records (h : Completes env x y) (hrec : Records env x.daemon) :
    Records env y.daemon :=
  Reach.invariant (I := fun x => Records env x.daemon) (fun _ _ _ _ => records_step) h hrec

theorem completes_stopping {todo : List RegId} (hphase : x.phase = .stopping todo) :
    ∃ y todo', Completes env x y ∧ y.phase = .joining todo' := by
  induction todo generalizing x with
  | nil =>
    have hstep : Server.step env x .take = some ({ x with
        daemon := { x.daemon with projectTasks := ∅ }
        phase := .joining (x.daemon.projectTasks.entries.map (·.2)) }, []) := by
      simp only [Server.step, hphase]
    exact ⟨_, _, .head hstep rfl .refl, rfl⟩
  | cons reg todo ih =>
    have hstep : Server.step env x (.notify reg) =
        some ({ x with daemon := x.daemon.notifyStop reg, phase := .stopping todo }, []) := by
      simp [Server.step, hphase]
    obtain ⟨y, todo', hy, hphase'⟩ := ih
      (x := { x with daemon := x.daemon.notifyStop reg, phase := .stopping todo }) rfl
    exact ⟨y, todo', .head hstep rfl hy, hphase'⟩

theorem completes_joining {todo : List RegId} (hphase : x.phase = .joining todo) :
    ∃ y todo', Completes env x y ∧ y.phase = .unlinking todo' := by
  induction todo generalizing x with
  | nil =>
    have hstep : Server.step env x .snapshot =
        some ({ x with phase := .unlinking x.daemon.snapshot }, []) := by
      simp only [Server.step, hphase]
    exact ⟨_, _, .head hstep rfl .refl, rfl⟩
  | cons reg todo ih =>
    -- an accept loop that does not end is aborted at the deadline
    have hstep : Server.step env x (.abort reg) =
        some ({ x with daemon := x.daemon.abortLoop reg, phase := .joining todo }, []) := by
      simp [Server.step, hphase]
    obtain ⟨y, todo', hy, hphase'⟩ := ih
      (x := { x with daemon := x.daemon.abortLoop reg, phase := .joining todo }) rfl
    exact ⟨y, todo', .head hstep rfl hy, hphase'⟩

theorem completes_unlinking {todo : List RegId} (hphase : x.phase = .unlinking todo) :
    ∃ y, Completes env x y ∧ y.phase = .draining := by
  induction todo generalizing x with
  | nil =>
    have hstep : Server.step env x .drain = some ({ x with phase := .draining }, []) := by
      simp only [Server.step, hphase]
    exact ⟨_, .head hstep rfl .refl, rfl⟩
  | cons reg todo ih =>
    have hstep : Server.step env x (.unlink reg) =
        some ({ x with daemon := x.removeSocket reg, phase := .unlinking todo }, []) := by
      simp [Server.step, hphase]
    obtain ⟨y, hy, hphase'⟩ := ih
      (x := { x with daemon := x.removeSocket reg, phase := .unlinking todo }) rfl
    exact ⟨y, .head hstep rfl hy, hphase'⟩

/-- A request that does not stand at an await has a step of its own to the next one. -/
theorem adminStep_of_busy {task : AdminTask} (hrec : Records env x.daemon)
    (hphase : x.phase = .draining) (before : x.daemon.requests id = some task)
    (hfinished : task.finished = false) (hawaits : task.awaits = false) :
    ∃ a, (adminStep env x.daemon id a).isSome ∧ x.permits (.admin id a) = true ∧
      (ShutdownAction.act (.admin id a)).unaided = true := by
  have hproject : ∀ reg ∈ task.regs, ∃ p, x.daemon.projects reg = some p := fun reg hreg =>
    Option.isSome_iff_exists.mp (hrec.request id task before reg hreg).2
  have hadmits : x.phase.admits = true := by rw [hphase]; rfl
  cases task with
  | register path =>
    refine ⟨.loadManifest (sampleDisk ""), ?_, hadmits, rfl⟩
    cases hload : loadNamed env.toml (sampleDisk "") id.name path <;>
      simp [adminStep, before, hload, Daemon.finish]
  | spawning reg => exact ⟨.spawnLoop, by simp [adminStep, before], hadmits, rfl⟩
  | notifying reg => exact ⟨.notifyStop, by simp [adminStep, before], hadmits, rfl⟩
  | loading reg =>
    obtain ⟨p, hp⟩ := hproject reg (by simp [AdminTask.regs])
    refine ⟨.loadManifest (sampleDisk ""), ?_, hadmits, rfl⟩
    cases hload : loadNamed env.toml (sampleDisk "") id.name p.projectPath <;>
      simp [adminStep, before, hp, hload, Daemon.finish]
  | configuring reg m =>
    obtain ⟨p, hp⟩ := hproject reg (by simp [AdminTask.regs])
    exact ⟨.setConfig, by simp [adminStep, before, hp], hadmits, rfl⟩
  | storing reg m =>
    obtain ⟨p, hp⟩ := hproject reg (by simp [AdminTask.regs])
    exact ⟨.storeManifest, by simp [adminStep, before, hp, Daemon.finish], hadmits, rfl⟩
  | locking | inserting | unregister | taking | joining | unlinking | reload => cases hawaits
  | done | aborted => cases hfinished

/-- The request is finished in `y`, and nothing else about the requests has changed. -/
structure Settled (id : AdminId) (x y : Server) : Prop where
  phase : y.phase = x.phase
  connections : y.connections = x.connections
  finished : (y.daemon.requests id).all AdminTask.finished = true
  others : ∀ id', id' ≠ id → y.daemon.requests id' = x.daemon.requests id'

theorem completes_request (hrec : Records env x.daemon) (hphase : x.phase = .draining) :
    ∃ y, Completes env x y ∧ Settled id x y := by
  cases hrequest : x.daemon.requests id with
  | none => exact ⟨x, .refl, rfl, rfl, by simp [hrequest], fun _ _ => rfl⟩
  | some task =>
    -- each step that is not an await brings the request closer to its end
    induction hn : task.remaining using Nat.strongRecOn generalizing x task with
    | ind n ih =>
      by_cases hfinished : task.finished = true
      · exact ⟨x, .refl, rfl, rfl, by simp [hrequest, hfinished], fun _ _ => rfl⟩
      by_cases hawaits : task.awaits = true
      · have hstep : Server.step env x (.abortRequest id) =
            some ({ x with daemon := x.daemon.setRequest id .aborted }, []) := by
          simp [Server.step, hphase, hrequest, hawaits]
        refine ⟨_, .head hstep rfl .refl, rfl, rfl, ?_, ?_⟩
        · simp [AdminTask.finished]
        · intro id' hid
          simp [Function.update_of_ne hid]
      · obtain ⟨a, hsome, hpermits, hunaided⟩ := adminStep_of_busy hrec hphase hrequest
          (by simpa using hfinished) (by simpa using hawaits)
        obtain ⟨⟨t, o⟩, hadmin⟩ := Option.isSome_iff_exists.mp hsome
        have hrelation := adminStep_cases hadmin
        obtain ⟨task', hnext, hless, -⟩ := hrelation.remaining hrequest
        obtain ⟨new, hrequests⟩ := hrelation.requests_eq
        have hstep : Server.step env x (.act (.admin id a)) =
            some ({ x with
              daemon := t
              connections := noteConnection x.connections (.admin id a) }, o) := by
          simp only [Server.step, hpermits, if_true, RemoBroker.step, hadmin, Option.map_some]
        have hconnections : noteConnection x.connections (.admin id a) = x.connections := by
          cases a <;> first | rfl | cases hunaided
        rw [hconnections] at hstep
        obtain ⟨y, hy, hsettled⟩ := ih task'.remaining (hn ▸ hless)
          (x := { x with daemon := t, connections := x.connections }) (records_step hrec hstep)
          hphase task' hnext rfl
        refine ⟨y, .head hstep hunaided hy, hsettled.phase, hsettled.connections,
          hsettled.finished, ?_⟩
        intro id' hid
        rw [hsettled.others id' hid, hrequests, Function.update_of_ne hid]

theorem completes_requests (ids : List AdminId) (hrec : Records env x.daemon)
    (hphase : x.phase = .draining) :
    ∃ y, Completes env x y ∧ y.phase = .draining ∧ y.connections = x.connections ∧
      ∀ id ∈ ids, (y.daemon.requests id).all AdminTask.finished = true := by
  induction ids with
  | nil => exact ⟨x, .refl, hphase, rfl, by simp⟩
  | cons id ids ih =>
    obtain ⟨y, hy, hyphase, hyconnections, hyfinished⟩ := ih
    obtain ⟨z, hz, hsettled⟩ := @completes_request env y id (hy.records hrec) hyphase
    refine ⟨z, hy.trans hz, hsettled.phase.trans hyphase,
      hsettled.connections.trans hyconnections, ?_⟩
    intro id' hmem
    by_cases hid : id' = id
    · exact hid ▸ hsettled.finished
    · rw [hsettled.others id' hid]
      exact hyfinished id' ((List.mem_cons.mp hmem).resolve_left hid)

theorem completes_draining (hrec : Records env x.daemon) (hphase : x.phase = .draining) :
    ∃ y, Completes env x y ∧ y.phase = .closing := by
  obtain ⟨y, hy, hyphase, hyconnections, hyfinished⟩ :=
    completes_requests x.connections hrec hphase
  have hall : (y.connections.all fun id => (y.daemon.requests id).all AdminTask.finished) = true :=
    List.all_eq_true.mpr (hyconnections ▸ hyfinished)
  have hstep : Server.step env y .drained = some ({ y with phase := .closing }, []) := by
    simp only [Server.step, hyphase, hall, if_true]
  exact ⟨_, hy.trans (.head hstep rfl .refl), rfl⟩

theorem completes_closing (hphase : x.phase = .closing) :
    ∃ y, Completes env x y ∧ y.phase = .returned := by
  have hstep : Server.step env x .unlinkAdmin =
      some ({ x with
        daemon := x.daemon.removeFile (adminPath env.config.socketDir) none
        phase := .returned }, []) := by
    simp only [Server.step, hphase]
  exact ⟨_, .head hstep rfl .refl, rfl⟩

/-- `Server::run` can return. -/
def Returns (env : Env) (x : Server) : Prop := ∃ y, Completes env x y ∧ y.phase = .returned

theorem Completes.returns (h : Completes env x y) (hy : Returns env y) : Returns env x := by
  obtain ⟨z, hz, hphase⟩ := hy
  exact ⟨z, h.trans hz, hphase⟩

theorem returns_draining (hrec : Records env x.daemon) (hphase : x.phase = .draining) :
    Returns env x := by
  obtain ⟨y, hy, hyphase⟩ := completes_draining hrec hphase
  exact hy.returns (completes_closing hyphase)

theorem returns_unlinking {todo : List RegId} (hrec : Records env x.daemon)
    (hphase : x.phase = .unlinking todo) : Returns env x := by
  obtain ⟨y, hy, hyphase⟩ := @completes_unlinking env x todo hphase
  exact hy.returns (returns_draining (hy.records hrec) hyphase)

theorem returns_joining {todo : List RegId} (hrec : Records env x.daemon)
    (hphase : x.phase = .joining todo) : Returns env x := by
  obtain ⟨y, todo', hy, hyphase⟩ := @completes_joining env x todo hphase
  exact hy.returns (returns_unlinking (hy.records hrec) hyphase)

theorem returns_stopping {todo : List RegId} (hrec : Records env x.daemon)
    (hphase : x.phase = .stopping todo) : Returns env x := by
  obtain ⟨y, todo', hy, hyphase⟩ := @completes_stopping env x todo hphase
  exact hy.returns (returns_joining (hy.records hrec) hyphase)

/-- The accept loop of `run` takes its shutdown branch, unless the signal is lost. -/
theorem returns_serving (hrec : Records env x.daemon) (hphase : x.phase = .serving)
    (hdeaf : x.deaf = false) : Returns env x := by
  have hheard : x.sigterm.issued = true → x.sigterm.loop.reached = true := by
    intro hissued
    simpa [deaf, hphase, hissued] using hdeaf
  obtain ⟨σ, hσ, hstopped⟩ := Sigterm.stops hheard
  have hloop : ∃ y, Completes env x y ∧ y.phase = .serving ∧ y.sigterm = σ ∧
      y.daemon = x.daemon := by
    refine Reach.simulate (R := fun σ (y : Server) => y.phase = .serving ∧ y.sigterm = σ ∧
      y.daemon = x.daemon) ?_ hσ ⟨hphase, rfl, rfl⟩
    rintro σ y a τ o ⟨hphase, rfl, hdaemon⟩ ha hstep
    exact ⟨.sigterm a, { y with
      sigterm := τ
      accepted := y.accepted || y.sigterm.loop.pc = .accepted }, [],
      by simp only [Server.step, hphase, hstep, Option.map_some], ha, hphase, rfl, hdaemon⟩
  obtain ⟨y, hy, hyphase, hysigterm, hydaemon⟩ := hloop
  have hstep : Server.step env y .begin =
      some ({ y with phase := .stopping y.daemon.snapshot }, []) := by
    simp only [Server.step, hyphase, hysigterm, hstopped, if_true]
  have hbegun : Completes env x _ := hy.trans (.head hstep rfl .refl)
  exact hbegun.returns (returns_stopping (hydaemon ▸ hrec) rfl)

/-- A server whose signal is lost serves on. -/
structure Serves (x : Server) : Prop where
  phase : x.phase = .serving
  issued : x.sigterm.issued = true
  lost : x.sigterm.loop.notified = false
  running : x.sigterm.loop.running = true

theorem Serves.step {a : ShutdownAction} (h : Serves x) (hstep : Trans env x a y o) :
    Serves y := by
  cases hstep with
  | act => exact ⟨h.phase, h.issued, h.lost, h.running⟩
  | @sigterm a σ o phase step =>
    cases a with
    | signal => simp [Sigterm.step, h.issued] at step
    | loop a =>
      obtain ⟨l, hl, heq⟩ := Option.map_eq_some_iff.mp step
      cases heq
      obtain ⟨hlost, hrunning⟩ := AcceptLoop.step_running hl h.lost
      exact ⟨h.phase, h.issued, hlost, hrunning⟩
  | begin phase stopped =>
    have hrunning := h.running
    simp [AcceptLoop.running, stopped] at hrunning
  | notified phase | taken phase | joined phase | aborted phase | listed phase | unlinked phase
  | drain phase | dropped phase | drained phase | adminUnlinked phase =>
    cases h.phase.symm.trans phase

theorem Serves.of_deaf (hheard : x.sigterm.loop.Heard) (h : x.deaf = true) : Serves x := by
  simp only [deaf, Bool.and_eq_true, decide_eq_true_eq, Bool.not_eq_true'] at h
  obtain ⟨⟨hphase, hissued⟩, hreached⟩ := h
  refine ⟨hphase, hissued, ?_, ?_⟩
  · by_contra hnotified
    cases hreached.symm.trans (hheard (by simpa using hnotified))
  · rw [AcceptLoop.reached, Bool.or_eq_false_iff] at hreached
    simpa [AcceptLoop.running] using hreached.1

theorem heard_step {a : ShutdownAction} (h : x.sigterm.loop.Heard)
    (hstep : Server.step env x a = some (y, o)) : y.sigterm.loop.Heard := by
  cases Server.step_cases hstep with
  | sigterm phase step => exact Sigterm.heard_step h step
  | _ => exact h

end

end Server

/-- From every state that the server can come to, a shutdown can be completed whatever its clients,
its backend and its audit log do, unless the signal was lost; and then `run` never leaves its accept
loop. -/
theorem shutdown_completes {env : Env} {backend : Option Session} {stale : Daemon.Stale}
    {as : List ShutdownAction} {x : Server} {tr : List Obs}
    (hrun : Machine.exec (Server.step env) (Server.start env backend stale) as = some (x, tr)) :
    (x.deaf = false → ∃ y, Reach (Server.step env) (fun a => a.unaided = true) x y ∧
      y.phase = .returned) ∧
    (x.deaf = true → ∀ bs y os, Machine.exec (Server.step env) x bs = some (y, os) →
      y.phase = .serving) := by
  have hrec : Records env x.daemon :=
    Machine.exec_invariant (I := fun x => Records env x.daemon) Records.initial
      (fun _ _ _ _ => Server.records_step) hrun
  have hheard : x.sigterm.loop.Heard :=
    Machine.exec_invariant (I := fun x : Server => x.sigterm.loop.Heard) (by rintro ⟨⟩)
      (fun _ _ _ _ => Server.heard_step) hrun
  constructor
  · intro hdeaf
    cases hphase : x.phase with
    | serving => exact Server.returns_serving hrec hphase hdeaf
    | stopping todo => exact Server.returns_stopping hrec hphase
    | joining todo => exact Server.returns_joining hrec hphase
    | unlinking todo => exact Server.returns_unlinking hrec hphase
    | draining => exact Server.returns_draining hrec hphase
    | closing => exact Server.completes_closing hphase
    | returned => exact ⟨x, .refl, hphase⟩
  · intro hdeaf bs y os hmore
    exact (Machine.exec_invariant (I := Server.Serves) (.of_deaf hheard hdeaf)
      (fun _ _ _ _ h hstep => h.step (Server.step_cases hstep)) hmore).phase

/-- A connection and an admin request are in the middle of their work when the shutdown begins. -/
def interruptedRun : List ShutdownAction :=
  ShutdownAction.connect ++
  (pendingRun ++ [.submit .reload, .lookupProject].map (Action.admin ⟨"web", 1⟩)).map .act ++
  ShutdownAction.signal

/-- The shutdown of `interruptedRun` can be completed; the one whose signal comes in the accept
branch cannot. -/
theorem shutdown_completes_interrupted :
    (∃ x tr, Machine.exec (Server.step webEnv) (Server.start webEnv (some 0) fun _ => none)
        interruptedRun = some (x, tr) ∧
      ∃ y, Reach (Server.step webEnv) (fun a => a.unaided = true) x y ∧ y.phase = .returned) ∧
    ∃ x tr, Machine.exec (Server.step webEnv) (Server.start webEnv (some 0) fun _ => none)
        (busyRun.map .sigterm) = some (x, tr) ∧
      ∀ bs y os, Machine.exec (Server.step webEnv) x bs = some (y, os) → y.phase = .serving := by
  have hinterrupted : (Machine.exec (Server.step webEnv)
      (Server.start webEnv (some 0) fun _ => none) interruptedRun).map (·.1.deaf) = some false := by
    decide +kernel
  have hlost : (Machine.exec (Server.step webEnv) (Server.start webEnv (some 0) fun _ => none)
      (busyRun.map .sigterm)).map (·.1.deaf) = some true := by
    decide +kernel
  obtain ⟨⟨x, tr⟩, hrun, hdeaf⟩ := Option.map_eq_some_iff.mp hinterrupted
  obtain ⟨⟨x', tr'⟩, hrun', hdeaf'⟩ := Option.map_eq_some_iff.mp hlost
  exact ⟨⟨x, tr, hrun, (shutdown_completes hrun).1 hdeaf⟩,
    ⟨x', tr', hrun', (shutdown_completes hrun').2 hdeaf'⟩⟩

end RemoBroker
