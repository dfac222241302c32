import RemoBroker.RustStd
import Mathlib.Data.List.AList
import Mathlib.Data.List.MinMax

/-! The per-project secret cache, `src/cache.rs`.  Each operation runs under the cache's mutex, so
it is one function of the whole cache; the clock reading it takes inside is an argument. -/

namespace RemoBroker

structure CacheEntry where
  value : String
  fetchedAt : Instant
  ttl : Duration
deriving DecidableEq

/-- `duration_since` saturates at zero, as the subtraction does. -/
def CacheEntry.isExpired (e : CacheEntry) (now : Instant) : Bool := e.ttl ≤ now - e.fetchedAt

def CacheEntry.remainingTtl (e : CacheEntry) (now : Instant) : Duration :=
  e.ttl - (now - e.fetchedAt)

structure CacheHit where
  value : String
  ttlSeconds : UInt32
deriving DecidableEq

abbrev CacheMap := AList fun _ : String => CacheEntry

structure BoundedCache where
  map : CacheMap
  maxEntries : Nat
  defaultTtl : Duration

/-- The entries in an iteration order of the map.  The order of a `HashMap` is not specified;
`front` is the key that comes first, so that every order of the oldest entries is covered. -/
def iterFrom (front : String) (map : CacheMap) : List (Sigma fun _ : String => CacheEntry) :=
  map.entries.filter (·.1 = front) ++ map.entries.filter (·.1 ≠ front)

/-- Remove the entry with the least `fetched_at`, the first of them in the iteration order. -/
def evictOldest (front : String) (map : CacheMap) : CacheMap :=
  match (iterFrom front map).argmin fun e => e.2.fetchedAt with
  | some e => map.erase e.1
  | none => map

namespace BoundedCache

def new (maxEntries : Nat) (defaultTtl : Duration) : BoundedCache := ⟨∅, maxEntries, defaultTtl⟩

/-- The cache after a lookup of `name`, and the hit.  An entry past its time is dropped. -/
def get (c : BoundedCache) (name : String) (now : Instant) : BoundedCache × Option CacheHit :=
  match c.map.lookup name with
  | none => (c, none)
  | some entry =>
    if entry.isExpired now then ({ c with map := c.map.erase name }, none)
    else (c, some ⟨entry.value, UInt32.ofNat (Duration.asSecs (entry.remainingTtl now))⟩)

def insert (c : BoundedCache) (name value : String) (ttl : Option Duration) (now : Instant)
    (front : String) : BoundedCache :=
  let ttl := ttl.getD c.defaultTtl
  let replaced := (c.map.lookup name).isSome
  let map := c.map.erase name
  let map := if !replaced && c.maxEntries ≤ map.entries.length then evictOldest front map else map
  { c with map := map.insert name ⟨value, now, ttl⟩ }

def clear (c : BoundedCache) : BoundedCache := { c with map := ∅ }

def len (c : BoundedCache) : Nat := c.map.entries.length

def setConfig (c : BoundedCache) (maxEntries : Nat) (defaultTtl : Duration) : BoundedCache :=
  { c with maxEntries, defaultTtl }

/-- What the cache holds for `name`, expired or not. -/
def stored (c : BoundedCache) (name : String) : Option CacheEntry := c.map.lookup name

end BoundedCache

theorem lookup_evictOldest {front n : String} {map : CacheMap} {e : CacheEntry}
    (h : (evictOldest front map).lookup n = some e) : map.lookup n = some e := by
  unfold evictOldest at h
  split at h
  · rename_i old _
    by_cases hn : n = old.1
    · subst hn
      rw [AList.lookup_erase] at h
      cases h
    · rwa [AList.lookup_erase_ne hn] at h
  · exact h

namespace BoundedCache

variable {c : BoundedCache} {n name value front : String} {ttl : Option Duration} {now : Instant}
  {e : CacheEntry}

theorem stored_get (h : (c.get name now).1.stored n = some e) : c.stored n = some e := by
  unfold get at h
  split at h
  · exact h
  split at h
  · by_cases hn : n = name
    · subst hn
      simp [stored] at h
    · rwa [stored, AList.lookup_erase_ne hn] at h
  · exact h

theorem stored_insert (h : (c.insert name value ttl now front).stored n = some e) :
    (n = name ∧ e = ⟨value, now, ttl.getD c.defaultTtl⟩) ∨ c.stored n = some e := by
  unfold insert at h
  by_cases hn : n = name
  · subst hn
    simp only [stored, AList.lookup_insert] at h
    exact Or.inl ⟨rfl, (Option.some.inj h).symm⟩
  · right
    simp only [stored, AList.lookup_insert_ne hn] at h
    split at h
    · have := lookup_evictOldest h
      rwa [AList.lookup_erase_ne hn] at this
    · rwa [AList.lookup_erase_ne hn] at h

/-- An insertion with the default time keeps a bound on that time and on those of the entries. -/
theorem ttl_le_of_insert {bound : Duration} (hdefault : c.defaultTtl ≤ bound)
    (hentries : ∀ n e, c.stored n = some e → e.ttl ≤ bound)
    (h : (c.insert name value none now front).stored n = some e) : e.ttl ≤ bound := by
  rcases stored_insert h with ⟨-, rfl⟩ | hold
  · exact hdefault
  · exact hentries n e hold

theorem stored_insert_self : (c.insert name value ttl now front).stored name =
    some ⟨value, now, ttl.getD c.defaultTtl⟩ :=
  AList.lookup_insert _

/-- A hit is what the cache holds under that name, before its time is over. -/
theorem get_hit {hit : CacheHit} (h : (c.get name now).2 = some hit) :
    ∃ e, c.stored name = some e ∧ now - e.fetchedAt < e.ttl ∧ hit.value = e.value ∧
      hit.ttlSeconds = UInt32.ofNat (Duration.asSecs (e.remainingTtl now)) := by
  unfold get at h
  split at h
  · cases h
  rename_i e he
  split at h
  · cases h
  rename_i hlive
  cases h
  refine ⟨e, he, ?_, rfl, rfl⟩
  simpa [CacheEntry.isExpired] using hlive

@[simp] theorem get_maxEntries : (c.get name now).1.maxEntries = c.maxEntries := by
  unfold get
  split
  · rfl
  split <;> rfl

@[simp] theorem get_defaultTtl : (c.get name now).1.defaultTtl = c.defaultTtl := by
  unfold get
  split
  · rfl
  split <;> rfl

@[simp] theorem insert_maxEntries : (c.insert name value ttl now front).maxEntries = c.maxEntries :=
  rfl

@[simp] theorem insert_defaultTtl : (c.insert name value ttl now front).defaultTtl = c.defaultTtl :=
  rfl

end BoundedCache

end RemoBroker
