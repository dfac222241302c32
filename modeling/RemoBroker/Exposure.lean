import RemoBroker.Daemon.Request

/-! How long a secret stays in the caches.  `resolve_cache_bounds` takes the values of the manifest
where it has them, also when they are above the broker's defaults; the caches stay within the
defaults as long as no manifest that is installed goes above them. -/

namespace RemoBroker

structure CacheWithin (defaults : CacheDefaults) (c : BoundedCache) : Prop where
  entries : 1 ≤ c.maxEntries ∧ c.maxEntries ≤ defaults.maxEntries.toNat
  ttl : 0 < c.defaultTtl ∧ c.defaultTtl ≤ defaults.ttl
  held : ∀ name e, c.stored name = some e → e.ttl ≤ defaults.ttl

/-- The caches of all projects are within the defaults, and no lookup was served from an entry
that was older than the default time. -/
structure ExposureBounded (env : Env) (tr : List Obs) (s : Daemon) : Prop where
  caches : ∀ reg p, s.projects reg = some p → CacheWithin env.config.cacheDefaults p.cache
  hits : ∀ q name now e, .lookedUp q name now (some e) ∈ tr →
    now - e.fetchedAt < env.config.cacheDefaultTtl

/-- A manifest that only lowers the defaults. -/
def Manifest.lowers (m : Manifest) (defaults : CacheDefaults) : Bool :=
  m.cache.maxEntries.all (· ≤ defaults.maxEntries) &&
    m.cache.ttlSeconds.all fun s => Duration.fromSecs s.toNat ≤ defaults.ttl

/-- The step installs no manifest that goes above the defaults. -/
def lowering (env : Env) (s : Daemon) : Action → Bool
  | .admin id (.registerLocked gen out) =>
    -- a name that is taken, or a socket that cannot be bound, installs nothing
    match s.requests id, s.inner.lookup id.name, (bindProjectSocket s.files
      (socketPathFor env.config.socketDir id.name) ⟨id.name, gen⟩ out).2.1 with
    | some (.locking _ m _), none, .ok () => m.lowers env.config.cacheDefaults
    | _, _, _ => true
  | .admin id .setConfig =>
    match s.requests id with
    | some (.configuring _ m) => m.lowers env.config.cacheDefaults
    | _ => true
  | _ => true

section
variable {env : Env} {s t : Daemon} {tr o : List Obs} {defaults : CacheDefaults} {m : Manifest}

theorem resolveCacheBounds_entries (h : m.lowers env.config.cacheDefaults = true) :
    1 ≤ (resolveCacheBounds m env.config.cacheDefaults).1 ∧
      (resolveCacheBounds m env.config.cacheDefaults).1 ≤
        env.config.cacheDefaults.maxEntries.toNat := by
  simp only [Manifest.lowers, Bool.and_eq_true, Option.all_eq_true, decide_eq_true_eq] at h
  cases hn : m.cache.maxEntries with
  | none =>
    simp only [resolveCacheBounds, hn, Option.getD_none, le_refl, and_true]
    exact UInt32.le_iff_toNat_le.mp env.config.entries_inRange.1
  | some n =>
    simp only [resolveCacheBounds, hn, Option.getD_some]
    exact ⟨UInt32.le_iff_toNat_le.mp (m.cache_inRange.entries n hn).1,
      UInt32.le_iff_toNat_le.mp (h.1 n hn)⟩

theorem resolveCacheBounds_ttl (h : m.lowers env.config.cacheDefaults = true) :
    0 < (resolveCacheBounds m env.config.cacheDefaults).2 ∧
      (resolveCacheBounds m env.config.cacheDefaults).2 ≤ env.config.cacheDefaults.ttl := by
  simp only [Manifest.lowers, Bool.and_eq_true, Option.all_eq_true, decide_eq_true_eq] at h
  cases hs : m.cache.ttlSeconds with
  | none =>
    have hbound : (resolveCacheBounds m env.config.cacheDefaults).2 =
        env.config.cacheDefaultTtl := by
      simp [resolveCacheBounds, hs, Config.cacheDefaults]
    rw [hbound]
    exact ⟨env.config.ttl_pos, le_refl _⟩
  | some sec =>
    have hbound : (resolveCacheBounds m env.config.cacheDefaults).2 =
        Duration.fromSecs sec.toNat := by
      simp [resolveCacheBounds, hs]
    have hpos : 1 ≤ sec.toNat := UInt32.le_iff_toNat_le.mp (m.cache_inRange.ttl sec hs).1
    rw [hbound]
    exact ⟨Duration.fromSecs_pos hpos, h.2 sec hs⟩

namespace CacheWithin

variable {c : BoundedCache}

theorem get {name : String} {now : Instant} (h : CacheWithin defaults c) :
    CacheWithin defaults (c.get name now).1 := by
  refine ⟨by simpa using h.entries, by simpa using h.ttl, ?_⟩
  intro n e hstored
  exact h.held n e (BoundedCache.stored_get hstored)

theorem insert {name value front : String} {now : Instant} (h : CacheWithin defaults c) :
    CacheWithin defaults (c.insert name value none now front) := by
  refine ⟨h.entries, h.ttl, ?_⟩
  intro n e hstored
  exact BoundedCache.ttl_le_of_insert h.ttl.2 h.held hstored

theorem create {name path mp : String} (h : m.lowers env.config.cacheDefaults = true) :
    CacheWithin env.config.cacheDefaults (Project.create env name path m mp).cache := by
  refine ⟨resolveCacheBounds_entries h, resolveCacheBounds_ttl h, ?_⟩
  intro n e hstored
  simp [Project.create, BoundedCache.new, BoundedCache.stored] at hstored

theorem setConfig {p : Project} (h : CacheWithin env.config.cacheDefaults p.cache)
    (hm : m.lowers env.config.cacheDefaults = true) :
    CacheWithin env.config.cacheDefaults (p.setConfig env m).cache := by
  exact ⟨resolveCacheBounds_entries hm, resolveCacheBounds_ttl hm, h.held⟩

end CacheWithin

theorem ConnStep.cacheWithin {backend : Option Session} {q : RequestId} {p p' : Project}
    {conn conn' : Conn} {a : ConnAction} (step : ConnStep env backend q p conn a p' conn' o)
    (h : CacheWithin defaults p.cache) : CacheWithin defaults p'.cache := by
  cases step with
  | lookedUp => exact h.get
  | inserted => exact h.insert
  | _ => exact h

theorem AdminStep.cacheWithin {id : AdminId} {reg : RegId} {a : AdminAction} {p : Project}
    (step : AdminStep env s id a t o) (hlow : lowering env s (.admin id a) = true)
    (h : ∀ p, s.projects reg = some p → CacheWithin env.config.cacheDefaults p.cache)
    (hp : t.projects reg = some p) : CacheWithin env.config.cacheDefaults p.cache := by
  cases step with
  | bound task absent fresh bind =>
    rcases Function.update_some_cases hp with ⟨rfl, rfl⟩ | ⟨-, hold⟩
    · exact .create (by simpa [lowering, task, absent, bind] using hlow)
    · exact h p hold
  | @configured reg' old m task project =>
    rcases Function.update_some_cases hp with ⟨rfl, rfl⟩ | ⟨-, hold⟩
    · exact (h old project).setConfig (by simpa [lowering, task] using hlow)
    · exact h p hold
  | @stored reg' old m task project =>
    rcases Function.update_some_cases hp with ⟨rfl, rfl⟩ | ⟨-, hold⟩
    · exact h old project
    · exact h p hold
  | _ => exact h p hp

theorem ExposureBounded.step {a : Action} (h : ExposureBounded env tr s)
    (hlow : lowering env s a = true) (step : DaemonStep env s a t o) :
    ExposureBounded env (tr ++ o) t := by
  constructor
  · intro reg p hp
    cases step with
    | admin step => exact step.cacheWithin hlow (h.caches reg) hp
    | @conn c a conn old p' conn' o task project step =>
      rcases Function.update_some_cases hp with ⟨rfl, rfl⟩ | ⟨-, hold⟩
      · exact step.cacheWithin (h.caches c.reg old project)
      · exact h.caches reg p hold
    | loop step => exact h.caches reg p (step.projects_eq ▸ hp)
    | rotate | status | writer => exact h.caches reg p hp
  · intro q name now e hmem
    rcases List.mem_append.mp hmem with hold | hnew
    · exact h.hits q name now e hold
    · obtain ⟨p, project, hstored, hlive⟩ := step.hit hnew
      exact lt_of_lt_of_le hlive ((h.caches _ p project).held name e hstored)

/-- In every run in which no manifest that is installed goes above the broker's defaults, they bound
every cache, every entry and the age of every entry that is served. -/
theorem run_exposure_bounded {backend : Option Session} {stale : Daemon.Stale} {as : List Action}
    (hrun : run env backend stale as = some (s, tr))
    (hlow : Machine.Along (step env) (fun s a => lowering env s a = true)
      (Daemon.init env backend stale) as) : ExposureBounded env tr s :=
  Machine.exec_induction_along (I := ExposureBounded env)
    ⟨by simp [Daemon.init], by simp⟩
    (fun _ _ _ _ _ h hlow hstep => h.step hlow (step_cases hstep)) hlow hrun

end

def cachingEnv (ttlSeconds maxEntries : UInt32) : Env :=
  sampleEnv [("web", ⟨1, ⟨"web", none⟩, ⟨["A"]⟩, some ⟨some ttlSeconds, some maxEntries⟩⟩)]

/-- A secret is fetched from the backend, and asked for again `age` seconds later. -/
def cachingRun (age : Nat) : List Action :=
  Action.register ⟨"web", 0⟩ "/srv/web" "web" 0 ++ Action.connect ⟨⟨"web", 0⟩, 0⟩ ++
  Action.fetch ⟨⟨"web", 0⟩, 0⟩ "A" 0 ++
  [.receive (.ok (.get "A")) (Duration.fromSecs age), .dispatch,
    .lookUp (Duration.fromSecs age)].map (.conn ⟨⟨"web", 0⟩, 0⟩)

def Obs.hit : Obs → Option (RequestId × String × Instant × CacheEntry)
  | .lookedUp q name now (some e) => some (q, name, now, e)
  | _ => none

theorem lookedUp_of_hit {tr : List Obs} {q : RequestId} {name : String} {now : Instant}
    {e : CacheEntry} (h : tr.filterMap Obs.hit = [(q, name, now, e)]) :
    .lookedUp q name now (some e) ∈ tr := by
  have hmem : (q, name, now, e) ∈ tr.filterMap Obs.hit := by simp [h]
  obtain ⟨o, ho, hhit⟩ := List.mem_filterMap.mp hmem
  unfold Obs.hit at hhit
  split at hhit
  · cases hhit
    exact ho
  · cases hhit

theorem run_exposure_bounded_lowered : ∃ s tr,
    run (cachingEnv 60 4) (some 0) (fun _ => none) (cachingRun 10) = some (s, tr) ∧
    .lookedUp ⟨⟨⟨"web", 0⟩, 0⟩, 1⟩ "A" (Duration.fromSecs 10)
      (some ⟨"value", 0, Duration.fromSecs 60⟩) ∈ tr ∧
    ExposureBounded (cachingEnv 60 4) tr s := by
  have hhit : (run (cachingEnv 60 4) (some 0) (fun _ => none) (cachingRun 10)).map
      (fun r => r.2.filterMap Obs.hit) =
      some [(⟨⟨⟨"web", 0⟩, 0⟩, 1⟩, "A", Duration.fromSecs 10,
        ⟨"value", 0, Duration.fromSecs 60⟩)] := by decide +kernel
  obtain ⟨⟨s, tr⟩, hrun, htr⟩ := Option.map_eq_some_iff.mp hhit
  exact ⟨s, tr, hrun, lookedUp_of_hit htr,
    run_exposure_bounded hrun (Machine.along_checked (by decide +kernel))⟩

/-- With the default of 900 seconds, a manifest that asks for a day has a secret served from an
entry that is 1000 seconds old. -/
theorem exposure_raised_by_manifest : ∃ s tr,
    run (cachingEnv 86400 1024) (some 0) (fun _ => none) (cachingRun 1000) = some (s, tr) ∧
    .lookedUp ⟨⟨⟨"web", 0⟩, 0⟩, 1⟩ "A" (Duration.fromSecs 1000)
      (some ⟨"value", 0, Duration.fromSecs 86400⟩) ∈ tr ∧
    ¬ ExposureBounded (cachingEnv 86400 1024) tr s := by
  have hhit : (run (cachingEnv 86400 1024) (some 0) (fun _ => none)
      (cachingRun 1000)).map (fun r => r.2.filterMap Obs.hit) =
      some [(⟨⟨⟨"web", 0⟩, 0⟩, 1⟩, "A", Duration.fromSecs 1000,
        ⟨"value", 0, Duration.fromSecs 86400⟩)] := by decide +kernel
  obtain ⟨⟨s, tr⟩, hrun, htr⟩ := Option.map_eq_some_iff.mp hhit
  refine ⟨s, tr, hrun, lookedUp_of_hit htr, fun hbounded => ?_⟩
  exact absurd (hbounded.hits _ _ _ _ (lookedUp_of_hit htr)) (by decide +kernel)

end RemoBroker
