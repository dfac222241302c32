import RemoBroker.Cache.Size
import RemoBroker.Shutdown.Whole

/-! The caches of the daemon's projects: each of them is a new cache after some operations, under
bounds that the manifest or the configuration allows. -/

namespace RemoBroker

namespace BoundedCache

/-- A cache as operations leave it whose bounds were all in `1..=1024`. -/
def Reached (c : BoundedCache) : Prop :=
  ∃ maxEntries defaultTtl ops, (∀ m ∈ CacheOp.configured maxEntries ops,
    1 ≤ m ∧ m ≤ cacheMaxEntriesMax.toNat) ∧ c = (new maxEntries defaultTtl).runOps ops

variable {c : BoundedCache} {maxEntries : Nat} {defaultTtl : Duration}

theorem Reached.new (h : 1 ≤ maxEntries ∧ maxEntries ≤ cacheMaxEntriesMax.toNat) :
    (new maxEntries defaultTtl).Reached := by
  refine ⟨maxEntries, defaultTtl, [], fun m hm => ?_, rfl⟩
  obtain rfl : m = maxEntries := by simpa [CacheOp.configured] using hm
  exact h

theorem Reached.apply (h : c.Reached) (op : CacheOp)
    (hop : ∀ m ∈ op.newMaxEntries, 1 ≤ m ∧ m ≤ cacheMaxEntriesMax.toNat) :
    (c.apply op).Reached := by
  obtain ⟨maxEntries, defaultTtl, ops, hconf, rfl⟩ := h
  refine ⟨maxEntries, defaultTtl, ops ++ [op], fun m hm => ?_, by simp⟩
  rw [CacheOp.configured_concat, List.mem_append] at hm
  rcases hm with hold | hnew
  · exact hconf m hold
  · exact hop m (by simpa using hnew)

theorem Reached.len_le (h : c.Reached) : c.len ≤ cacheMaxEntriesMax.toNat := by
  obtain ⟨maxEntries, defaultTtl, ops, hconf, rfl⟩ := h
  have hlen : ∃ m ∈ CacheOp.configured maxEntries ops,
      ((BoundedCache.new maxEntries defaultTtl).runOps ops).len ≤ m :=
    len_le_configured fun m hm => (hconf m hm).1
  obtain ⟨m, hm, hle⟩ := hlen
  exact hle.trans (hconf m hm).2

end BoundedCache

theorem resolveCacheBounds_inRange (manifest : Manifest) (config : Config) :
    1 ≤ (resolveCacheBounds manifest config.cacheDefaults).1 ∧
      (resolveCacheBounds manifest config.cacheDefaults).1 ≤ cacheMaxEntriesMax.toNat := by
  have hbounds : 1 ≤ manifest.cache.maxEntries.getD config.cacheDefaultMaxEntries ∧
      manifest.cache.maxEntries.getD config.cacheDefaultMaxEntries ≤ cacheMaxEntriesMax := by
    cases hmax : manifest.cache.maxEntries with
    | none => exact config.entries_inRange
    | some n => exact manifest.cache_inRange.entries n hmax
  exact ⟨UInt32.le_iff_toNat_le.mp hbounds.1, UInt32.le_iff_toNat_le.mp hbounds.2⟩

section
variable {env : Env} {s t : Daemon} {o tr : List Obs} {id : AdminId} {reg : RegId} {p : Project}

theorem ConnStep.cache_reached {backend : Option Session} {q : RequestId} {p' : Project}
    {conn conn' : Conn} {a : ConnAction} (step : ConnStep env backend q p conn a p' conn' o)
    (h : p.cache.Reached) : p'.cache.Reached := by
  cases step with
  | @lookedUp name start now => exact h.apply (.get name now) (by simp [CacheOp.newMaxEntries])
  | @inserted name start value now front =>
    exact h.apply (.insert name value none now front) (by simp [CacheOp.newMaxEntries])
  | _ => exact h

theorem ProjectChange.cache_reached (change : ProjectChange env s id reg (some p))
    (h : ∀ p, s.projects reg = some p → p.cache.Reached) : p.cache.Reached := by
  generalize hp : some p = new at change
  cases change with
  | same => exact h p hp.symm
  | @created path m =>
    cases hp
    exact .new (resolveCacheBounds_inRange m env.config)
  | @configured old m task project =>
    cases hp
    refine (h old project).apply (.setConfig _ _) fun bound hbound => ?_
    cases hbound
    exact resolveCacheBounds_inRange m env.config
  | @stored old m task project =>
    cases hp
    exact h old project

theorem WholeStep.cache_reached {a : WholeAction} (step : WholeStep env s a t o)
    (h : ∀ reg p, s.projects reg = some p → p.cache.Reached) :
    ∀ reg p, t.projects reg = some p → p.cache.Reached := by
  cases step with
  | act step =>
    exact step.project_invariant (fun change => change.cache_reached)
      (fun step => step.cache_reached) h
  | stilled still | unlinked _ still => rwa [still.projects]
  | taken | dropped => exact h

/-- In every run of the daemon, shutdown included, the cache of a project is one that the operations
of the cache lead to. -/
theorem wholeRun_cache_reached {backend : Option Session} {stale : Daemon.Stale}
    {as : List WholeAction} (hrun : wholeRun env backend stale as = some (s, tr))
    (hp : s.projects reg = some p) : p.cache.Reached := by
  refine Machine.exec_invariant (I := fun s : Daemon =>
    ∀ reg p, s.projects reg = some p → p.cache.Reached) ?_ ?_ hrun reg p hp
  · intro reg p hp
    cases hp
  · exact fun _ _ _ _ h hs => (wholeStep_cases hs).cache_reached h

theorem wholeRun_cache_len {backend : Option Session} {stale : Daemon.Stale}
    {as : List WholeAction} (hrun : wholeRun env backend stale as = some (s, tr))
    (hp : s.projects reg = some p) : p.cache.len ≤ cacheMaxEntriesMax.toNat :=
  (wholeRun_cache_reached hrun hp).len_le

end

end RemoBroker
