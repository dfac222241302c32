import RemoBroker.Cache

/-! The operations of the cache, one after another, and what each of them does to the entries. -/

namespace RemoBroker

/-- An operation on the cache with the clock reading it takes.  An insertion also has the key that
the iteration over the map starts with. -/
inductive CacheOp where
  | insert (name value : String) (ttl : Option Duration) (now : Instant) (front : String)
  | get (name : String) (now : Instant)
  | setConfig (maxEntries : Nat) (defaultTtl : Duration)
  | clear
deriving DecidableEq

namespace BoundedCache

def apply (c : BoundedCache) : CacheOp → BoundedCache
  | .insert name value ttl now front => c.insert name value ttl now front
  | .get name now => (c.get name now).1
  | .setConfig maxEntries defaultTtl => c.setConfig maxEntries defaultTtl
  | .clear => c.clear

def runOps (c : BoundedCache) (ops : List CacheOp) : BoundedCache := ops.foldl apply c

variable {c : BoundedCache} {n name value front : String} {ttl : Option Duration}
  {now : Instant} {e : CacheEntry} {op : CacheOp} {ops rest : List CacheOp}

@[simp] theorem runOps_nil : c.runOps [] = c := rfl

@[simp] theorem runOps_cons : c.runOps (op :: ops) = (c.apply op).runOps ops := rfl

@[simp] theorem runOps_append : c.runOps (ops ++ rest) = (c.runOps ops).runOps rest :=
  List.foldl_append

end BoundedCache

theorem mem_iterFrom {front : String} {map : CacheMap} {x : Sigma fun _ : String => CacheEntry} :
    x ∈ iterFrom front map ↔ x ∈ map.entries := by
  simp only [iterFrom, List.mem_append, List.mem_filter, decide_eq_true_eq]
  tauto

theorem mem_entries_iff {map : CacheMap} {n : String} {e : CacheEntry} :
    ⟨n, e⟩ ∈ map.entries ↔ map.lookup n = some e :=
  AList.mem_lookup_iff.symm

/-- The scan finds an entry that no other is older than, where there is one. -/
theorem evictOldest_cases (front : String) (map : CacheMap) :
    map.entries = [] ∧ evictOldest front map = map ∨
      ∃ old e, map.lookup old = some e ∧
        (∀ k e', map.lookup k = some e' → e.fetchedAt ≤ e'.fetchedAt) ∧
        evictOldest front map = map.erase old := by
  unfold evictOldest
  cases hmin : (iterFrom front map).argmin fun e => e.2.fetchedAt with
  | none =>
    refine .inl ⟨?_, rfl⟩
    apply List.eq_nil_iff_forall_not_mem.mpr
    intro x hx
    have hmem : x ∈ iterFrom front map := mem_iterFrom.mpr hx
    rw [List.argmin_eq_none.mp hmin] at hmem
    cases hmem
  | some x =>
    obtain ⟨old, e⟩ := x
    refine .inr ⟨old, e, ?_, ?_, rfl⟩
    · exact mem_entries_iff.mp (mem_iterFrom.mp (List.argmin_mem hmin))
    · intro k e' hk
      have hmem : ⟨k, e'⟩ ∈ iterFrom front map := mem_iterFrom.mpr (mem_entries_iff.mpr hk)
      exact List.le_of_mem_argmin (f := fun e => e.2.fetchedAt) hmem hmin

theorem length_erase {map : CacheMap} {n : String} {e : CacheEntry} (h : map.lookup n = some e) :
    (map.erase n).entries.length + 1 = map.entries.length := by
  have hmem : n ∈ map.keys := AList.mem_keys.mp (AList.lookup_isSome.mp (by simp [h]))
  have hlen : ∀ m : CacheMap, m.entries.length = m.keys.length := fun m => by
    simp [AList.keys, List.keys]
  rw [hlen, hlen, AList.keys_erase, List.length_erase_of_mem hmem]
  exact Nat.sub_add_cancel (List.length_pos_of_mem hmem)

/-- How an insertion of `name` makes room: the entries it leaves before it adds its own. -/
inductive MakesRoom (c : BoundedCache) (name : String) : CacheMap → Prop
  | replaced (hheld : c.stored name ≠ none) : MakesRoom c name (c.map.erase name)
  | free (hnew : c.stored name = none) (hlen : c.len < c.maxEntries) : MakesRoom c name c.map
  | nothing (hlen : c.len = 0) (hcap : c.maxEntries = 0) : MakesRoom c name c.map
  | evicted {old : String} {e : CacheEntry} (hnew : c.stored name = none)
      (hfull : c.maxEntries ≤ c.len) (hold : c.stored old = some e)
      (holdest : ∀ k e', c.stored k = some e' → e.fetchedAt ≤ e'.fetchedAt) :
      MakesRoom c name (c.map.erase old)

namespace BoundedCache

variable {c : BoundedCache} {n name value front : String} {ttl : Option Duration}
  {now : Instant} {e : CacheEntry} {op : CacheOp} {ops rest : List CacheOp}

theorem insert_makesRoom (c : BoundedCache) (name value : String) (ttl : Option Duration)
    (now : Instant) (front : String) :
    ∃ map, MakesRoom c name map ∧ c.insert name value ttl now front =
      { c with map := map.insert name ⟨value, now, ttl.getD c.defaultTtl⟩ } := by
  unfold insert
  refine ⟨_, ?_, rfl⟩
  cases hname : c.map.lookup name with
  | some e => exact .replaced (by simp [stored, hname])
  | none =>
    have herase : c.map.erase name = c.map :=
      AList.ext (List.kerase_of_notMem_keys (AList.lookup_eq_none.mp hname))
    simp only [herase, Option.isSome_none, Bool.not_false, Bool.true_and]
    split
    · rename_i hfull
      have hfull : c.maxEntries ≤ c.len := by simpa [len] using hfull
      rcases evictOldest_cases front c.map with ⟨hnil, hsame⟩ | ⟨old, e, hold, holdest, heq⟩
      · have hlen : c.len = 0 := by simp [len, hnil]
        rw [hsame]
        exact .nothing hlen (by omega)
      · rw [heq]
        exact .evicted hname hfull hold holdest
    · rename_i hroom
      exact .free hname (by simpa [len] using hroom)

theorem stored_insert_ne {map : CacheMap} (hn : n ≠ name) :
    ({ c with map := map.insert name e } : BoundedCache).stored n = map.lookup n :=
  AList.lookup_insert_ne hn

end BoundedCache

namespace MakesRoom

variable {c : BoundedCache} {n name : String} {map : CacheMap} {e : CacheEntry}

theorem notMem (h : MakesRoom c name map) : name ∉ map := by
  cases h with
  | replaced => simp
  | free hnew => exact AList.lookup_eq_none.mp hnew
  | nothing hlen => simp [AList.mem_keys, AList.keys, List.eq_nil_of_length_eq_zero hlen]
  | evicted hnew => simpa using fun _ => AList.lookup_eq_none.mp hnew

theorem len_insert (h : MakesRoom c name map) :
    ({ c with map := map.insert name e } : BoundedCache).len = map.entries.length + 1 := by
  rw [BoundedCache.len, AList.entries_insert_of_notMem h.notMem, List.length_cons]

/-- Where another name loses its entry, it was the oldest of a full cache. -/
theorem lookup_cases (h : MakesRoom c name map) (hn : n ≠ name) :
    map.lookup n = c.stored n ∨ map.lookup n = none ∧ c.stored name = none ∧
      c.maxEntries ≤ c.len ∧ ∃ e, c.stored n = some e ∧
        ∀ k e', c.stored k = some e' → e.fetchedAt ≤ e'.fetchedAt := by
  cases h with
  | replaced => exact .inl (AList.lookup_erase_ne hn)
  | free => exact .inl rfl
  | nothing => exact .inl rfl
  | @evicted old e hnew hfull hold holdest =>
    by_cases hold' : n = old
    · subst hold'
      exact .inr ⟨AList.lookup_erase n c.map, hnew, hfull, e, hold, holdest⟩
    · exact .inl (AList.lookup_erase_ne hold')

/-- The size after the insertion, with room for at least one entry. -/
theorem length_cases (h : MakesRoom c name map) (hcap : 1 ≤ c.maxEntries) :
    map.entries.length + 1 = c.len ∧ (c.stored name ≠ none ∨ c.maxEntries ≤ c.len) ∨
      map.entries.length = c.len ∧ c.stored name = none ∧ c.len < c.maxEntries := by
  cases h with
  | replaced hheld =>
    obtain ⟨e, he⟩ := Option.ne_none_iff_exists'.mp hheld
    exact .inl ⟨length_erase he, .inl hheld⟩
  | free hnew hlen => exact .inr ⟨rfl, hnew, hlen⟩
  | nothing _ hzero => omega
  | evicted _ hfull hold => exact .inl ⟨length_erase hold, .inr hfull⟩

end MakesRoom

namespace BoundedCache

variable {c : BoundedCache} {n m name value front : String} {ttl : Option Duration}
  {now t : Instant} {e : CacheEntry}

/-- An insertion leaves another name its entry, or evicts it: the cache was full, `name` was new to
it, and no entry was older. -/
theorem stored_insert_cases (hn : n ≠ name) :
    (c.insert name value ttl now front).stored n = c.stored n ∨
      (c.insert name value ttl now front).stored n = none ∧ c.stored name = none ∧
        c.maxEntries ≤ c.len ∧ ∃ e, c.stored n = some e ∧
          ∀ k e', c.stored k = some e' → e.fetchedAt ≤ e'.fetchedAt := by
  obtain ⟨map, hroom, heq⟩ := insert_makesRoom c name value ttl now front
  rw [heq, stored_insert_ne hn]
  exact hroom.lookup_cases hn

/-- A lookup answers from the entry under its name alone. -/
theorem get_snd : (c.get n t).2 = (c.stored n).bind fun e =>
    if e.isExpired t then none
    else some ⟨e.value, UInt32.ofNat (Duration.asSecs (e.remainingTtl t))⟩ := by
  unfold get stored
  cases c.map.lookup n with
  | none => rfl
  | some e =>
    simp only [Option.bind_some]
    split <;> rfl

/-- A lookup leaves the cache as it is, or drops the entry under its name, which has expired. -/
theorem get_fst_cases : (c.get n t).1 = c ∨ ∃ e, c.stored n = some e ∧ e.isExpired t = true ∧
    (c.get n t).1 = { c with map := c.map.erase n } := by
  unfold get stored
  cases hn : c.map.lookup n with
  | none => exact .inl rfl
  | some e =>
    simp only
    split
    · rename_i hexp
      exact .inr ⟨e, rfl, hexp, rfl⟩
    · exact .inl rfl

theorem stored_get_of_ne (hn : n ≠ name) : (c.get name now).1.stored n = c.stored n := by
  rcases get_fst_cases (c := c) (n := name) (t := now) with h | ⟨e, -, -, h⟩
  · rw [h]
  · rw [h]
    exact AList.lookup_erase_ne hn

end BoundedCache

end RemoBroker
