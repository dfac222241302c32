import RemoBroker.Cache.Projects
import RemoBroker.Cache.Retention
import RemoBroker.Daemon.Request
import RemoBroker.Exposure

/-! The caches in a run of the daemon.  What the tasks do to the cache of a registration, in any
interleaving, is a run of the cache by itself: its operations take effect one after the other, and
show what they show in that order.  So what holds of the cache holds of the daemon: a value that was
stored is found again without the backend. -/

namespace RemoBroker

/-- What an operation of a cache shows. -/
inductive CacheObs where
  | lookedUp (name : String) (now : Instant) (entry : Option CacheEntry)
  | inserted (name value : String)

/-- The cache as a machine. -/
def BoundedCache.step : Machine.Step BoundedCache CacheOp CacheObs := fun c op =>
  match op with
  | .insert name value _ _ _ => some (c.apply op, [.inserted name value])
  | .get name now => some (c.apply op, [.lookedUp name now (freshEntry c name now)])
  | .setConfig _ _ => some (c.apply op, [])
  | .clear => some (c.apply op, [])

/-- What a step of the daemon shows of the cache of a registration. -/
def Obs.ofCache (reg : RegId) : Obs → Option CacheObs
  | .lookedUp q name now entry => if q.conn.reg = reg then some (.lookedUp name now entry) else none
  | .inserted q name value => if q.conn.reg = reg then some (.inserted name value) else none
  | .stored .. | .file .. | .replied .. | .served .. | .received .. | .dispatched .. | .called ..
  | .recorded .. | .writing .. | .answered .. => none

/-- The operation of a connection on the cache of its project. -/
def ConnPc.cacheOp : ConnPc → ConnAction → Option CacheOp
  | .lookingUp name _, .lookUp now => some (.get name now)
  | .inserting name _ value, .insert now front => some (.insert name value none now front)
  | _, _ => none

/-- The operation of a `reload` on the cache of a registration. -/
def AdminTask.cacheOp (env : Env) (reg : RegId) : AdminTask → AdminAction → Option CacheOp
  | .configuring reg' manifest, .setConfig =>
    if reg' = reg then
      let (maxEntries, ttl) := resolveCacheBounds manifest env.config.cacheDefaults
      some (.setConfig maxEntries ttl)
    else none
  | _, _ => none

/-- The operation of an action on the cache of a registration. -/
def Daemon.cacheOp (env : Env) (s : Daemon) (reg : RegId) : Action → Option CacheOp
  | .conn c a => if c.reg = reg then (s.conns c).bind fun conn => conn.pc.cacheOp a else none
  | .admin id a => (s.requests id).bind fun task => task.cacheOp env reg a
  | .loop .. | .rotate .. | .status .. | .writer .. => none

/-- The operations of a run on the cache of a registration. -/
def cacheOps (env : Env) (reg : RegId) : Daemon → List Action → List CacheOp
  | _, [] => []
  | s, a :: as =>
    match step env s a with
    | none => []
    | some (t, _) => (s.cacheOp env reg a).toList ++ cacheOps env reg t as

section
variable {env : Env} {s t : Daemon} {a : Action} {as : List Action} {o tr : List Obs} {reg : RegId}
  {id : AdminId} {p : Project} {c c' : BoundedCache} {ops : List CacheOp} {os : List CacheObs}

theorem BoundedCache.exec_runOps (h : Machine.exec BoundedCache.step c ops = some (c', os)) :
    c' = c.runOps ops := by
  induction ops generalizing c os with
  | nil =>
    cases h
    rfl
  | cons op ops ih =>
    obtain ⟨d, o, os', hstep, hrest, -⟩ := Machine.exec_cons_iff.mp h
    have hd : d = c.apply op := by
      cases op <;> cases hstep <;> rfl
    rw [runOps_cons, ← hd]
    exact ih hrest

/-! ### One step -/

theorem AdminStep.ofCache_eq {a : AdminAction} (step : AdminStep env s id a t o) :
    o.filterMap (Obs.ofCache reg) = [] := by
  cases step <;> simp [Obs.ofCache, fileObs]

theorem Daemon.cacheOp_admin {a : AdminAction} (ha : a ≠ .setConfig) :
    s.cacheOp env reg (.admin id a) = none := by
  refine Option.bind_eq_none_iff.mpr fun task _ => ?_
  unfold AdminTask.cacheOp
  split
  · exact absurd rfl ha
  · rfl

theorem AdminStep.cache {a : AdminAction} (step : AdminStep env s id a t o)
    (hp : s.projects reg = some p) : ∃ p', t.projects reg = some p' ∧
      Machine.exec BoundedCache.step p.cache (s.cacheOp env reg (.admin id a)).toList =
        some (p'.cache, []) := by
  have hkept : a ≠ .setConfig → Machine.exec BoundedCache.step p.cache
      (s.cacheOp env reg (.admin id a)).toList = some (p.cache, []) := by
    intro ha
    rw [Daemon.cacheOp_admin ha]
    rfl
  cases step with
  | @configured reg' old m task project =>
    by_cases hreg : reg = reg'
    · subst hreg
      obtain rfl := Option.some.inj (hp.symm.trans project)
      refine ⟨p.setConfig env m, Function.update_self .., ?_⟩
      simp only [Daemon.cacheOp, task, Option.bind_some, AdminTask.cacheOp, if_true]
      rfl
    · refine ⟨p, (Function.update_of_ne hreg ..).trans hp, ?_⟩
      simp only [Daemon.cacheOp, task, Option.bind_some, AdminTask.cacheOp, if_neg (Ne.symm hreg)]
      rfl
  | @stored reg' old m task project =>
    by_cases hreg : reg = reg'
    · subst hreg
      obtain rfl := Option.some.inj (hp.symm.trans project)
      exact ⟨{ p with manifest := m }, Function.update_self .., hkept (by simp)⟩
    · exact ⟨p, (Function.update_of_ne hreg ..).trans hp, hkept (by simp)⟩
  | @bound path m mp gen out files ops task absent fresh bind =>
    have hreg : reg ≠ ⟨id.name, gen⟩ := by
      rintro rfl
      cases fresh.symm.trans hp
    exact ⟨p, (Function.update_of_ne hreg ..).trans hp, hkept (by simp)⟩
  | _ => exact ⟨p, hp, hkept (by simp)⟩

theorem ConnStep.cache {backend : Option Session} {q : RequestId} {p' : Project}
    {conn conn' : Conn} {a : ConnAction} (step : ConnStep env backend q p conn a p' conn' o) :
    Machine.exec BoundedCache.step p.cache (conn.pc.cacheOp a).toList =
      some (p'.cache, o.filterMap (Obs.ofCache q.conn.reg)) := by
  cases step with
  | lookedUp pc | inserted pc =>
    rw [pc]
    simp [ConnPc.cacheOp, Machine.exec, BoundedCache.step, BoundedCache.apply, Obs.ofCache]
  | closed => cases conn.pc <;> rfl
  | received pc | dispatched pc | noSession pc | called pc | returned pc | readTtl pc | emitted pc
  | started pc | answered pc =>
    rw [pc]
    rfl

theorem ConnStep.ofCache_other {backend : Option Session} {q : RequestId} {p' : Project}
    {conn conn' : Conn} {a : ConnAction} (step : ConnStep env backend q p conn a p' conn' o)
    (hreg : q.conn.reg ≠ reg) : o.filterMap (Obs.ofCache reg) = [] := by
  cases step <;> simp [Obs.ofCache, hreg]

/-- A step of the daemon is at most one operation on the cache of a registration. -/
theorem DaemonStep.cache (step : DaemonStep env s a t o) (hp : s.projects reg = some p) :
    ∃ p', t.projects reg = some p' ∧
      Machine.exec BoundedCache.step p.cache (s.cacheOp env reg a).toList =
        some (p'.cache, o.filterMap (Obs.ofCache reg)) := by
  cases step with
  | admin step =>
    rw [step.ofCache_eq]
    exact step.cache hp
  | @conn c b conn old p' conn' o task project step =>
    by_cases hreg : c.reg = reg
    · subst hreg
      obtain rfl := Option.some.inj (hp.symm.trans project)
      refine ⟨p', Function.update_self .., ?_⟩
      simp only [Daemon.cacheOp, task, if_true, Option.bind_some]
      exact step.cache
    · refine ⟨p, (Function.update_of_ne (Ne.symm hreg) ..).trans hp, ?_⟩
      rw [step.ofCache_other hreg, Daemon.cacheOp, if_neg hreg]
      rfl
  | loop step => exact ⟨p, step.projects_eq ▸ hp, rfl⟩
  | rotate | status | writer => exact ⟨p, hp, rfl⟩

/-- A cache that a registration with a manifest starts with. -/
def startCache (env : Env) (m : Manifest) : BoundedCache :=
  .new (resolveCacheBounds m env.config.cacheDefaults).1
    (resolveCacheBounds m env.config.cacheDefaults).2

/-- A step leaves a registration that is not there alone, or makes it. -/
theorem DaemonStep.cache_unborn (step : DaemonStep env s a t o) (hp : s.projects reg = none) :
    s.cacheOp env reg a = none ∧ o.filterMap (Obs.ofCache reg) = [] ∧
      (t.projects reg = none ∨ ∃ p m, t.projects reg = some p ∧ p.cache = startCache env m ∧
        .stored reg m ∈ o) := by
  cases step with
  | @admin id a t o step =>
    have hop : s.cacheOp env reg (.admin id a) = none := by
      by_cases ha : a = .setConfig
      · cases step with
        | @configured reg' old m task project =>
          have hreg : reg' ≠ reg := by
            rintro rfl
            cases hp.symm.trans project
          simp [Daemon.cacheOp, task, AdminTask.cacheOp, hreg]
        | _ => cases ha
      · exact Daemon.cacheOp_admin ha
    refine ⟨hop, step.ofCache_eq, ?_⟩
    cases step with
    | @bound path m mp gen out files ops task absent fresh bind =>
      by_cases hreg : reg = ⟨id.name, gen⟩
      · subst hreg
        exact .inr ⟨_, m, Function.update_self .., rfl, by simp⟩
      · exact .inl ((Function.update_of_ne hreg ..).trans hp)
    | @configured reg' old m task project | @stored reg' old m task project =>
      have hreg : reg ≠ reg' := by
        rintro rfl
        cases hp.symm.trans project
      exact .inl ((Function.update_of_ne hreg ..).trans hp)
    | _ => exact .inl hp
  | @conn c b conn old p' conn' o task project step =>
    have hreg : c.reg ≠ reg := by
      rintro rfl
      cases hp.symm.trans project
    refine ⟨if_neg hreg, step.ofCache_other hreg, ?_⟩
    exact .inl ((Function.update_of_ne (Ne.symm hreg) ..).trans hp)
  | loop step => exact ⟨rfl, rfl, .inl (step.projects_eq ▸ hp)⟩
  | rotate | status | writer => exact ⟨rfl, rfl, .inl hp⟩

/-! ### Runs -/

theorem cacheOps_cons {o : List Obs} (h : step env s a = some (t, o)) :
    cacheOps env reg s (a :: as) = (s.cacheOp env reg a).toList ++ cacheOps env reg t as := by
  rw [cacheOps, h]

theorem exec_cache (hrun : Machine.exec (step env) s as = some (t, tr))
    (hp : s.projects reg = some p) : ∃ p', t.projects reg = some p' ∧
      Machine.exec BoundedCache.step p.cache (cacheOps env reg s as) =
        some (p'.cache, tr.filterMap (Obs.ofCache reg)) := by
  induction as generalizing s p tr with
  | nil =>
    cases hrun
    exact ⟨p, hp, rfl⟩
  | cons a as ih =>
    obtain ⟨u, o, os, hstep, hrest, rfl⟩ := Machine.exec_cons_iff.mp hrun
    obtain ⟨p', hp', hop⟩ := (step_cases hstep).cache hp
    obtain ⟨p'', hp'', hops⟩ := ih hrest hp'
    refine ⟨p'', hp'', ?_⟩
    rw [cacheOps_cons hstep, List.filterMap_append]
    exact Machine.exec_append hop hops

/-- In every run, what happens to the cache of a registration is a run of the cache by itself, from
the empty cache of the manifest that was registered: it shows the same and ends the same. -/
theorem run_caches_simulated {backend : Option Session} {stale : Daemon.Stale}
    (hrun : run env backend stale as = some (s, tr)) (hp : s.projects reg = some p) :
    ∃ m, .stored reg m ∈ tr ∧
      Machine.exec BoundedCache.step (startCache env m)
        (cacheOps env reg (Daemon.init env backend stale) as) =
          some (p.cache, tr.filterMap (Obs.ofCache reg)) := by
  have hnone : (Daemon.init env backend stale).projects reg = none := rfl
  unfold run at hrun
  generalize Daemon.init env backend stale = s₀ at hrun hnone
  -- The induction goes to the step that makes the registration; from there on it is `exec_cache`.
  induction as generalizing s₀ tr with
  | nil =>
    cases hrun
    cases hnone.symm.trans hp
  | cons a as ih =>
    obtain ⟨u, o, os, hstep, hrest, rfl⟩ := Machine.exec_cons_iff.mp hrun
    obtain ⟨hop, ho, hunborn | ⟨p', m, hp', hcache, hstored⟩⟩ :=
      (step_cases hstep).cache_unborn hnone
    · obtain ⟨m, hstored, hops⟩ := ih u hrest hunborn
      refine ⟨m, List.mem_append_right o hstored, ?_⟩
      rw [cacheOps_cons hstep, hop, List.filterMap_append, ho]
      exact hops
    · obtain ⟨p'', hp'', hops⟩ := exec_cache hrest hp'
      obtain rfl := Option.some.inj (hp.symm.trans hp'')
      refine ⟨m, List.mem_append_left os hstored, ?_⟩
      rw [cacheOps_cons hstep, hop, List.filterMap_append, ho, ← hcache]
      exact hops

end

/-- A value is fetched, the project is reloaded, and the value is found again. -/
def reloadedHitRun : List Action :=
  Action.register ⟨"web", 0⟩ "/srv/web" "web" 0 ++ Action.connect ⟨⟨"web", 0⟩, 0⟩ ++
    Action.fetch ⟨⟨"web", 0⟩, 0⟩ "A" 0 ++ Action.reload ⟨"web", 1⟩ "web" ++
    Action.hit ⟨⟨"web", 0⟩, 0⟩ "A" 1

theorem run_caches_simulated_reloaded : ∃ s tr p m,
    run webEnv (some 0) (fun _ => none) reloadedHitRun = some (s, tr) ∧
    s.projects ⟨"web", 0⟩ = some p ∧
    (cacheOps webEnv ⟨"web", 0⟩ (Daemon.init webEnv (some 0) fun _ => none)
      reloadedHitRun).length = 4 ∧
    Machine.exec BoundedCache.step (startCache webEnv m)
      (cacheOps webEnv ⟨"web", 0⟩ (Daemon.init webEnv (some 0) fun _ => none) reloadedHitRun) =
        some (p.cache, tr.filterMap (Obs.ofCache ⟨"web", 0⟩)) := by
  have hfacts : (run webEnv (some 0) (fun _ => none) reloadedHitRun).bind (fun r =>
      (r.1.projects ⟨"web", 0⟩).map fun p => p.cache.len) = some 1 := by decide +kernel
  obtain ⟨⟨s, tr⟩, hrun, hs⟩ := Option.bind_eq_some_iff.mp hfacts
  obtain ⟨p, hp, -⟩ := Option.map_eq_some_iff.mp hs
  obtain ⟨m, -, hexec⟩ := run_caches_simulated hrun hp
  exact ⟨s, tr, p, m, hrun, hp, by decide +kernel, hexec⟩

section
variable {env : Env} {s t : Daemon} {as : List Action} {o tr : List Obs} {p : Project}
  {c : BoundedCache} {ops : List CacheOp}

/-! ### Hits -/

theorem Fetch.not_called_of_hit {q : RequestId} {hist : List Obs} {n name : String}
    {event : PendingFetch} {r : ProjectResponse} {now : Instant} {e : CacheEntry}
    (fetch : Fetch env q hist n event r) (h : .lookedUp q name now (some e) ∈ hist)
    (session : Session) (m : String) : .called q session m ∉ hist := by
  cases fetch <;> simp [askedObs, calledObs] at h ⊢

/-- A request that has a hit does not call the backend. -/
theorem Stage.not_called_of_hit {q : RequestId} {hist : List Obs} {name : String} {pc : ConnPc}
    {now : Instant} {e : CacheEntry} (stage : Stage env q pc hist)
    (h : .lookedUp q name now (some e) ∈ hist) (session : Session) (m : String) :
    .called q session m ∉ hist := by
  induction stage with
  | emitting fetch => exact fetch.not_called_of_hit h session m
  | recorded fetch => simpa using fetch.not_called_of_hit (by simpa using h) session m
  | writing stage ih => simpa using ih (by simpa using h)
  | reading | dispatching | lookingUp | calling | awaiting | inserting | readingTtl | direct =>
    simp [askedObs, calledObs] at h ⊢

theorem Life.not_called_of_hit {q : RequestId} {hist : List Obs} {name : String} {now : Instant}
    {e : CacheEntry} (life : Life env q hist) (h : .lookedUp q name now (some e) ∈ hist)
    (session : Session) (m : String) : .called q session m ∉ hist := by
  cases life with
  | stage stage => exact stage.not_called_of_hit h session m
  | answered stage => simpa using stage.not_called_of_hit (by simpa using h) session m

theorem Requests.not_called_of_hit (hreq : Requests env tr s) {q : RequestId} {name : String}
    {now : Instant} {e : CacheEntry} (h : .lookedUp q name now (some e) ∈ tr) (session : Session)
    (m : String) : .called q session m ∉ tr := by
  intro hcalled
  have hlook : .lookedUp q name now (some e) ∈ ofRequest q tr := mem_ofRequest.mpr ⟨h, rfl⟩
  have hcall : .called q session m ∈ ofRequest q tr := mem_ofRequest.mpr ⟨hcalled, rfl⟩
  exact (hreq.life q tr List.prefix_rfl).not_called_of_hit hlook session m hcall

/-- What was stored last under a name is looked up again while it lives and few names have been
stored since. -/
theorem BoundedCache.freshEntry_kept {name value front : String} {t t' : Instant}
    (hnewest : ∀ k e, c.stored k = some e → e.fetchedAt < t) (huse : ∀ op ∈ ops, op.IsUse)
    (hlast : ∀ op ∈ ops, ¬ op.Inserts name)
    (hfew : (CacheOp.insertedNames ops).card < c.maxEntries)
    (hclock : ∀ u, .get name u ∈ ops → u ≤ t') (hlive : t' - t < c.defaultTtl) :
    freshEntry (c.runOps (.insert name value none t front :: ops)) name t' =
      some ⟨value, t, c.defaultTtl⟩ := by
  have hinsert : Kept name ⟨value, t, (none : Option Duration).getD c.defaultTtl⟩ ∅
      (c.insert name value none t front) := Kept.of_insert hnewest
  have hkept : Kept name ⟨value, t, c.defaultTtl⟩ ∅ (c.insert name value none t front) := hinsert
  have hfresh : ∀ u, u ≤ t' → CacheEntry.isExpired ⟨value, t, c.defaultTtl⟩ u = false := by
    intro u hu
    have hage : u - t ≤ t' - t := Nat.sub_le_sub_right hu t
    simpa [CacheEntry.isExpired] using hage.trans_lt hlive
  have hstored := hkept.runOps huse hlast (fun u hu => hfresh u (hclock u hu))
    (by rwa [Finset.empty_union])
  have hstored : (c.runOps (.insert name value none t front :: ops)).stored name =
      some ⟨value, t, c.defaultTtl⟩ := hstored
  rw [freshEntry, hstored, Option.filter_some, hfresh t' (Nat.le_refl t')]
  rfl

theorem DaemonStep.lookedUp {q : RequestId} {name : String} {now t' : Instant}
    {found : Option CacheEntry} (step : DaemonStep env s (.conn q.conn (.lookUp now)) t o)
    (h : .lookedUp q name t' found ∈ o) (hp : s.projects q.conn.reg = some p) :
    t' = now ∧ found = freshEntry p.cache name now := by
  cases step with
  | conn task project step =>
    obtain rfl := Option.some.inj (hp.symm.trans project)
    cases step with
    | lookedUp pc =>
      obtain ⟨-, rfl, rfl, rfl⟩ := Obs.lookedUp.inj (List.mem_singleton.mp h)
      exact ⟨rfl, rfl⟩

/-- A value that is stored in the cache of a registration answers the later requests for its name on
any connection, without a call of the backend, until its time is over, as long as it is not stored
again, fewer other names than the bound are stored after it, and the project is not reloaded. -/
theorem run_cached_served {backend : Option Session} {stale : Daemon.Stale} {bs : List Action}
    {u : Daemon} {tr' o : List Obs} {c : ConnId} {q : RequestId} {name value front : String}
    {t₁ t₂ : Instant} (hrun : run env backend stale as = some (s, tr))
    (hp : s.projects c.reg = some p)
    (hnewest : ∀ k e, p.cache.stored k = some e → e.fetchedAt < t₁)
    (hrest : Machine.exec (step env) s (.conn c (.insert t₁ front) :: bs) = some (t, tr'))
    (hops : cacheOps env c.reg s (.conn c (.insert t₁ front) :: bs) =
      .insert name value none t₁ front :: ops)
    (huse : ∀ op ∈ ops, op.IsUse) (hlast : ∀ op ∈ ops, ¬ op.Inserts name)
    (hfew : (CacheOp.insertedNames ops).card < p.cache.maxEntries)
    (hclock : ∀ u, .get name u ∈ ops → u ≤ t₂) (hlive : t₂ - t₁ < p.cache.defaultTtl)
    (hreg : q.conn.reg = c.reg) {found : Option CacheEntry}
    (hstep : step env t (.conn q.conn (.lookUp t₂)) = some (u, o))
    (hlook : .lookedUp q name t₂ found ∈ o) :
    found = some ⟨value, t₁, p.cache.defaultTtl⟩ ∧
      ∀ cs v trc, Machine.exec (step env) u cs = some (v, trc) →
        ∀ session n, .called q session n ∉ tr ++ tr' ++ o ++ trc := by
  obtain ⟨p', hp', hcache⟩ := exec_cache hrest hp
  have hkept : found = some ⟨value, t₁, p.cache.defaultTtl⟩ := by
    rw [((step_cases hstep).lookedUp hlook (hreg ▸ hp')).2, BoundedCache.exec_runOps hcache, hops]
    exact BoundedCache.freshEntry_kept hnewest huse hlast hfew hclock hlive
  refine ⟨hkept, fun cs v trc hcs session n => ?_⟩
  -- The hit is in the life of the request, in which a call has no place beside it.
  have hwhole : run env backend stale (as ++ (.conn c (.insert t₁ front) :: bs) ++
      (.conn q.conn (.lookUp t₂) :: cs)) = some (v, tr ++ tr' ++ (o ++ trc)) :=
    Machine.exec_append (Machine.exec_append hrun hrest)
      (Machine.exec_cons hstep hcs)
  rw [hkept] at hlook
  rw [List.append_assoc]
  exact (run_requests hwhole).not_called_of_hit
    (List.mem_append_right _ (List.mem_append_left _ hlook)) session n

end

/-- A connection has the value of a secret from the backend; another one is there. -/
def valueRun : List Action :=
  Action.register ⟨"web", 0⟩ "/srv/web" "web" 0 ++ Action.connect ⟨⟨"web", 0⟩, 0⟩ ++
    Action.connect ⟨⟨"web", 0⟩, 1⟩ ++ (Action.fetch ⟨⟨"web", 0⟩, 0⟩ "A" 0).take 5

/-- The first connection answers, and the second one is asked for the same secret. -/
def askedAgainRun : List Action :=
  (Action.fetch ⟨⟨"web", 0⟩, 0⟩ "A" 0).drop 6 ++
    [.receive (.ok (.get "A")) 1, .dispatch].map (.conn ⟨⟨"web", 0⟩, 1⟩)

theorem run_cached_served_again : ∃ s tr t tr' u o,
    run webEnv (some 0) (fun _ => none) valueRun = some (s, tr) ∧
    Machine.exec (step webEnv) s (.conn ⟨⟨"web", 0⟩, 0⟩ (.insert 1 "") :: askedAgainRun) =
      some (t, tr') ∧
    step webEnv t (.conn ⟨⟨"web", 0⟩, 1⟩ (.lookUp 2)) = some (u, o) ∧
    .lookedUp ⟨⟨⟨"web", 0⟩, 1⟩, 0⟩ "A" 2 (some ⟨"value", 1, Duration.fromSecs 900⟩) ∈ o ∧
    ∀ cs v trc, Machine.exec (step webEnv) u cs = some (v, trc) →
      ∀ session n, .called ⟨⟨⟨"web", 0⟩, 1⟩, 0⟩ session n ∉ tr ++ tr' ++ o ++ trc := by
  have hfacts : (run webEnv (some 0) (fun _ => none) valueRun).bind (fun r =>
      (r.1.projects ⟨"web", 0⟩).bind fun p =>
        (Machine.exec (step webEnv) r.1
          (.conn ⟨⟨"web", 0⟩, 0⟩ (.insert 1 "") :: askedAgainRun)).map fun _ =>
            (p.cache.map.entries.length, p.cache.maxEntries, p.cache.defaultTtl,
              cacheOps webEnv ⟨"web", 0⟩ r.1
                (.conn ⟨⟨"web", 0⟩, 0⟩ (.insert 1 "") :: askedAgainRun))) =
      some (0, 32, Duration.fromSecs 900, [.insert "A" "value" none 1 ""]) := by
    decide +kernel
  have hhits : (run webEnv (some 0) (fun _ => none) valueRun).bind (fun r =>
      (Machine.exec (step webEnv) r.1
        (.conn ⟨⟨"web", 0⟩, 0⟩ (.insert 1 "") :: askedAgainRun)).bind fun r' =>
          (step webEnv r'.1 (.conn ⟨⟨"web", 0⟩, 1⟩ (.lookUp 2))).map fun r'' =>
            r''.2.filterMap Obs.hit) =
      some [(⟨⟨⟨"web", 0⟩, 1⟩, 0⟩, "A", 2, ⟨"value", 1, Duration.fromSecs 900⟩)] := by
    decide +kernel
  obtain ⟨⟨s, tr⟩, hrun, hfacts⟩ := Option.bind_eq_some_iff.mp hfacts
  obtain ⟨p, hp, hfacts⟩ := Option.bind_eq_some_iff.mp hfacts
  obtain ⟨⟨t, tr'⟩, hrest, hfacts⟩ := Option.map_eq_some_iff.mp hfacts
  simp only [Prod.mk.injEq] at hfacts
  obtain ⟨hempty, hmax, httl, hops⟩ := hfacts
  simp only [hrun, hrest, Option.bind_some] at hhits
  obtain ⟨⟨u, o⟩, hstep, hhit⟩ := Option.map_eq_some_iff.mp hhits
  have hnewest : ∀ k e, p.cache.stored k = some e → e.fetchedAt < 1 := by
    intro k e hstored
    have hmem := mem_entries_iff.mpr hstored
    rw [List.length_eq_zero_iff.mp hempty] at hmem
    cases hmem
  have hlook := lookedUp_of_hit hhit
  have hserved := run_cached_served hrun hp hnewest hrest hops (by simp) (by simp)
    (by rw [hmax]; decide) (by simp) (by rw [httl]; decide) rfl hstep hlook
  exact ⟨s, tr, t, tr', u, o, hrun, hrest, hstep, hlook, hserved.2⟩

end RemoBroker
