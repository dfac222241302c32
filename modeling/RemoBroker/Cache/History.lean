import RemoBroker.Cache.Ops
import RemoBroker.Lib.Update

/-! What a lookup returns, in terms of the operations before it.  The cache is a part of an ideal
one that has no bound and forgets nothing but what is cleared; what the ideal cache has for a name
is the last insertion of it. -/

namespace RemoBroker

namespace CacheOp

def reading : CacheOp → Option Instant
  | .insert _ _ _ now _ => some now
  | .get _ now => some now
  | .setConfig .. => none
  | .clear => none

/-- The name that an operation is on. -/
def name : CacheOp → Option String
  | .insert name _ _ _ _ => some name
  | .get name _ => some name
  | .setConfig .. => none
  | .clear => none

def Inserts (n : String) : CacheOp → Prop
  | .insert name _ _ _ _ => name = n
  | _ => False

/-- The clock never runs backwards. -/
def ClockMonotone (ops : List CacheOp) : Prop := (ops.filterMap reading).Pairwise (· ≤ ·)

def defaultAfter (defaultTtl : Duration) : CacheOp → Duration
  | .setConfig _ d => d
  | _ => defaultTtl

/-- The default time in force after the operations, for a cache made with `defaultTtl`. -/
def defaultInForce (defaultTtl : Duration) (ops : List CacheOp) : Duration :=
  ops.foldl defaultAfter defaultTtl

end CacheOp

/-- The ideal cache: what the last insertion of each name wrote. -/
structure Written where
  defaultTtl : Duration
  entry : String → Option CacheEntry

namespace Written

def apply (w : Written) : CacheOp → Written
  | .insert name value ttl now _ =>
    { w with entry :=
        Function.update w.entry name (some ⟨value, now, ttl.getD w.defaultTtl⟩) }
  | .get .. => w
  | .setConfig _ defaultTtl => { w with defaultTtl }
  | .clear => { w with entry := fun _ => none }

def after (defaultTtl : Duration) (ops : List CacheOp) : Written :=
  ops.foldl apply ⟨defaultTtl, fun _ => none⟩

variable {defaultTtl : Duration} {ops : List CacheOp} {op : CacheOp} {n : String} {e : CacheEntry}

theorem after_concat : after defaultTtl (ops ++ [op]) = (after defaultTtl ops).apply op := by
  simp [after]

theorem apply_defaultTtl (w : Written) :
    (w.apply op).defaultTtl = CacheOp.defaultAfter w.defaultTtl op := by
  cases op <;> rfl

theorem after_defaultTtl :
    (after defaultTtl ops).defaultTtl = CacheOp.defaultInForce defaultTtl ops := by
  induction ops using List.reverseRecOn with
  | nil => rfl
  | append_singleton ops op ih =>
    rw [after_concat, apply_defaultTtl, ih, CacheOp.defaultInForce, CacheOp.defaultInForce,
      List.foldl_append]
    rfl

/-- What the ideal cache has for a name was written by the last insertion of that name, and nothing
was cleared since. -/
theorem last_insert (h : (after defaultTtl ops).entry n = some e) :
    ∃ before ttl front rest,
      ops = before ++ .insert n e.value ttl e.fetchedAt front :: rest ∧
      e.ttl = ttl.getD (CacheOp.defaultInForce defaultTtl before) ∧
      ∀ op ∈ rest, ¬ op.Inserts n ∧ op ≠ .clear := by
  induction ops using List.reverseRecOn with
  | nil => cases h
  | append_singleton ops op ih =>
    -- An operation that leaves the entry as it is goes to the end of `rest`.
    have hkept (hentry : (after defaultTtl ops).entry n = some e) (hop : ¬ op.Inserts n)
        (hclear : op ≠ .clear) : ∃ before ttl front rest,
          ops ++ [op] = before ++ .insert n e.value ttl e.fetchedAt front :: rest ∧
          e.ttl = ttl.getD (CacheOp.defaultInForce defaultTtl before) ∧
          ∀ op ∈ rest, ¬ op.Inserts n ∧ op ≠ .clear := by
      obtain ⟨before, ttl, front, rest, rfl, httl, hrest⟩ := ih hentry
      refine ⟨before, ttl, front, rest ++ [op], by simp, httl, ?_⟩
      intro x hx
      rcases List.mem_append.mp hx with hx | hx
      · exact hrest x hx
      · rw [List.mem_singleton.mp hx]
        exact ⟨hop, hclear⟩
    rw [after_concat] at h
    cases op with
    | insert name value ttl now front =>
      rcases Function.update_some_cases h with ⟨rfl, rfl⟩ | ⟨hne, hold⟩
      · refine ⟨ops, ttl, front, [], rfl, ?_, by simp⟩
        rw [after_defaultTtl]
      · exact hkept hold (fun h => hne h.symm) (by simp)
    | get name now => exact hkept h not_false (by simp)
    | setConfig maxEntries d => exact hkept h not_false (by simp)
    | clear => cases h

end Written

/-- Every entry of the cache is the one of the ideal cache. -/
structure Refines (c : BoundedCache) (w : Written) : Prop where
  defaultTtl : c.defaultTtl = w.defaultTtl
  entry : ∀ n e, c.stored n = some e → w.entry n = some e

namespace Refines

variable {c : BoundedCache} {w : Written}

theorem new (maxEntries : Nat) (defaultTtl : Duration) :
    Refines (.new maxEntries defaultTtl) (.after defaultTtl []) :=
  ⟨rfl, fun n e h => by simp [BoundedCache.stored, BoundedCache.new] at h⟩

theorem apply (h : Refines c w) (op : CacheOp) : Refines (c.apply op) (w.apply op) := by
  cases op with
  | insert name value ttl now front =>
    refine ⟨h.defaultTtl, fun n e he => ?_⟩
    rcases eq_or_ne n name with rfl | hn
    · rw [BoundedCache.apply, BoundedCache.stored_insert_self, h.defaultTtl] at he
      simpa [Written.apply] using he
    · rcases BoundedCache.stored_insert he with ⟨heq, -⟩ | hold
      · exact absurd heq hn
      · simpa [Written.apply, Function.update_of_ne hn] using h.entry n e hold
  | get name now =>
    refine ⟨?_, fun n e he => h.entry n e (BoundedCache.stored_get he)⟩
    exact BoundedCache.get_defaultTtl.trans h.defaultTtl
  | setConfig maxEntries defaultTtl => exact ⟨rfl, h.entry⟩
  | clear => exact ⟨h.defaultTtl, fun n e he => by simp [BoundedCache.apply, BoundedCache.clear,
      BoundedCache.stored] at he⟩

theorem runOps (maxEntries : Nat) (defaultTtl : Duration) (ops : List CacheOp) :
    Refines ((BoundedCache.new maxEntries defaultTtl).runOps ops) (.after defaultTtl ops) := by
  induction ops using List.reverseRecOn with
  | nil => exact .new maxEntries defaultTtl
  | append_singleton ops op ih =>
    rw [BoundedCache.runOps_append, Written.after_concat]
    exact ih.apply op

end Refines

namespace BoundedCache

theorem reading_le {before rest : List CacheOp} {op op' : CacheOp} {now t : Instant}
    (hclock : CacheOp.ClockMonotone ((before ++ op :: rest) ++ [op'])) (hop : op.reading = some now)
    (hop' : op'.reading = some t) : now ≤ t := by
  unfold CacheOp.ClockMonotone at hclock
  rw [List.filterMap_append] at hclock
  refine (List.pairwise_append.mp hclock).2.2 now ?_ t (by simp [hop'])
  exact List.mem_filterMap.mpr ⟨op, by simp, hop⟩

/-- The whole seconds that a hit reports, where they fit. -/
theorem ttlSeconds_eq {e : CacheEntry} {t : Instant} (hle : e.fetchedAt ≤ t)
    (hbound : e.ttl < Duration.fromSecs (2 ^ 32)) :
    (UInt32.ofNat (Duration.asSecs (e.remainingTtl t))).toNat =
      Duration.asSecs (e.fetchedAt + e.ttl - t) := by
  have hsame : e.remainingTtl t = e.fetchedAt + e.ttl - t := by
    rw [CacheEntry.remainingTtl, Nat.sub_sub_right e.ttl hle, Nat.add_comm]
  rw [← hsame]
  apply UInt32.toNat_ofNat_of_lt'
  rw [Duration.asSecs, UInt32.size, Nat.div_lt_iff_lt_mul (by decide)]
  exact Nat.lt_of_le_of_lt (Nat.sub_le _ _) hbound

/-- An operation on another name leaves what a lookup returns, or evicts the entry. -/
theorem get_apply_cases {c : BoundedCache} {op : CacheOp} {n m : String} (t : Instant)
    (hop : op.name = some m) (hm : m ≠ n) :
    ((c.apply op).get n t).2 = (c.get n t).2 ∨
      (c.apply op).stored n = none ∧ op.Inserts m ∧ c.stored m = none ∧ c.maxEntries ≤ c.len := by
  cases op with
  | insert name value ttl now front =>
    cases hop
    rcases stored_insert_cases (c := c) hm.symm with h | ⟨hgone, hnew, hfull, -⟩
    · left
      rw [apply, get_snd, get_snd, h]
    · exact .inr ⟨hgone, rfl, hnew, hfull⟩
  | get name now =>
    cases hop
    left
    rw [apply, get_snd, get_snd, stored_get_of_ne hm.symm]
  | setConfig => cases hop
  | clear => cases hop

/-- A hit is the last insertion of the name, not cleared since and not yet expired, and it reports
the whole seconds that remain.  A change of the bounds leaves every entry as it is, a lookup drops
at most its own entry once that has expired, and an operation on another name does nothing to what a
lookup returns unless it evicts the entry. -/
theorem get_fresh_exact :
    (∀ maxEntries defaultTtl ops n t hit,
      CacheOp.ClockMonotone (ops ++ [.get n t]) →
      (((new maxEntries defaultTtl).runOps ops).get n t).2 = some hit →
      ∃ before ttl now front rest, ops = before ++ .insert n hit.value ttl now front :: rest ∧
        (∀ op ∈ rest, ¬ op.Inserts n ∧ op ≠ .clear) ∧ now ≤ t ∧
        t - now < ttl.getD (CacheOp.defaultInForce defaultTtl before) ∧
        (ttl.getD (CacheOp.defaultInForce defaultTtl before) < Duration.fromSecs (2 ^ 32) →
          hit.ttlSeconds.toNat = Duration.asSecs
            (now + ttl.getD (CacheOp.defaultInForce defaultTtl before) - t))) ∧
    (∀ (c : BoundedCache) maxEntries defaultTtl n,
      (c.setConfig maxEntries defaultTtl).stored n = c.stored n) ∧
    (∀ (c : BoundedCache) n t, (c.get n t).1 = c ∨
      ∃ e, c.stored n = some e ∧ e.ttl ≤ t - e.fetchedAt ∧
        (c.get n t).1 = { c with map := c.map.erase n }) ∧
    (∀ (c : BoundedCache) op n m t, op.name = some m → m ≠ n →
      ((c.apply op).get n t).2 = (c.get n t).2 ∨
        (c.apply op).stored n = none ∧ op.Inserts m ∧ c.stored m = none ∧
          c.maxEntries ≤ c.len) := by
  refine ⟨?_, fun _ _ _ _ => rfl, fun c n t => ?_, fun c op n m t => get_apply_cases t⟩
  · intro maxEntries defaultTtl ops n t hit hclock hhit
    obtain ⟨e, hstored, hlive, hvalue, hsecs⟩ := get_hit hhit
    have hentry := (Refines.runOps maxEntries defaultTtl ops).entry n e hstored
    obtain ⟨before, ttl, front, rest, rfl, httl, hrest⟩ := Written.last_insert hentry
    have hle : e.fetchedAt ≤ t := reading_le hclock rfl rfl
    refine ⟨before, ttl, e.fetchedAt, front, rest, by rw [hvalue], hrest, hle, httl ▸ hlive, ?_⟩
    intro hbound
    rw [hsecs, ttlSeconds_eq hle (httl ▸ hbound), httl]
  · rcases get_fst_cases (c := c) (n := n) (t := t) with h | ⟨e, he, hexp, h⟩
    · exact .inl h
    · exact .inr ⟨e, he, by simpa [CacheEntry.isExpired] using hexp, h⟩

/-- An entry from before a change of the default time, looked up after it. -/
theorem get_fresh_exact_reconfigured : ∃ before ttl now front rest,
    [CacheOp.insert "A" "1" none 0 "", .setConfig 4 (Duration.fromSecs 10)] =
      before ++ .insert "A" "1" ttl now front :: rest ∧
    500000000 - now < ttl.getD (CacheOp.defaultInForce (Duration.fromSecs 60) before) := by
  obtain ⟨before, ttl, now, front, rest, hops, -, -, hlive, -⟩ :=
    get_fresh_exact.1 4 (Duration.fromSecs 60)
      [.insert "A" "1" none 0 "", .setConfig 4 (Duration.fromSecs 10)] "A" 500000000 ⟨"1", 59⟩
      (by simp [CacheOp.ClockMonotone, List.filterMap_cons, CacheOp.reading]) (by decide +kernel)
  exact ⟨before, ttl, now, front, rest, hops, hlive⟩

end BoundedCache

end RemoBroker
