import RemoBroker.Cache.History
import Mathlib.Data.Finset.Card

/-! Which entries a cache with a fixed bound keeps: an entry is evicted only as the oldest one, so
it stays while fewer other names than the bound have been inserted since. -/

namespace RemoBroker

namespace CacheOp

/-- An operation of the request path, which changes neither the bounds nor all entries at once. -/
def IsUse : CacheOp → Prop
  | .insert .. => True
  | .get .. => True
  | .setConfig .. => False
  | .clear => False

instance : DecidablePred IsUse := fun op => by cases op <;> unfold IsUse <;> infer_instance

def insertedAt : CacheOp → Option Instant
  | .insert _ _ _ now _ => some now
  | _ => none

def inserted : CacheOp → Option String
  | .insert name _ _ _ _ => some name
  | _ => none

def StrictInserts (ops : List CacheOp) : Prop := (ops.filterMap insertedAt).Pairwise (· < ·)

def insertedNames (ops : List CacheOp) : Finset String := (ops.filterMap inserted).toFinset

end CacheOp

namespace BoundedCache

variable {c : BoundedCache} {n k m : String} {e e' : CacheEntry} {op : CacheOp}
  {ops rest : List CacheOp} {maxEntries : Nat} {defaultTtl : Duration}

theorem apply_maxEntries (h : op.IsUse) : (c.apply op).maxEntries = c.maxEntries := by
  cases op with
  | insert => rfl
  | get => exact get_maxEntries
  | setConfig => cases h
  | clear => cases h

/-- The one entry that is older than all others. -/
def Oldest (c : BoundedCache) (k : String) (e : CacheEntry) : Prop :=
  c.stored k = some e ∧ ∀ k' e', k' ≠ k → c.stored k' = some e' → e.fetchedAt < e'.fetchedAt

/-- An entry that an operation removes was cleared, had expired when it was looked up, or was an
oldest entry of a full cache. -/
theorem removed_cases (hk : c.stored k = some e) (hgone : (c.apply op).stored k = none) :
    op = .clear ∨ (∃ t, op = .get k t ∧ e.ttl ≤ t - e.fetchedAt) ∨
      ∃ name value ttl now front, op = .insert name value ttl now front ∧ c.stored name = none ∧
        c.maxEntries ≤ c.len ∧ ∀ k' e', c.stored k' = some e' → e.fetchedAt ≤ e'.fetchedAt := by
  cases op with
  | insert name value ttl now front =>
    right; right
    refine ⟨name, value, ttl, now, front, rfl, ?_⟩
    by_cases hname : k = name
    · rw [hname, apply, stored_insert_self] at hgone
      cases hgone
    · rcases stored_insert_cases (c := c) hname with hsame | ⟨-, hnew, hfull, old, hold, holdest⟩
      · rw [apply, hsame, hk] at hgone
        cases hgone
      · rw [hk] at hold
        cases hold
        exact ⟨hnew, hfull, holdest⟩
  | get name now =>
    right; left
    rcases get_fst_cases (c := c) (n := name) (t := now) with h | ⟨old, hold, hexp, h⟩
    · rw [apply, h, hk] at hgone
      cases hgone
    · by_cases hname : k = name
      · subst hname
        rw [hk] at hold
        cases hold
        exact ⟨now, rfl, by simpa [CacheEntry.isExpired] using hexp⟩
      · rw [apply, stored_get_of_ne hname, hk] at hgone
        cases hgone
  | setConfig maxEntries defaultTtl =>
    rw [apply, setConfig, stored] at hgone
    rw [stored, hgone] at hk
    cases hk
  | clear => exact .inl rfl

/-- What is held comes from an insertion, and no two names from insertions of one instant. -/
structure Stamped (ops : List CacheOp) (c : BoundedCache) : Prop where
  inserted : ∀ k e, c.stored k = some e → e.fetchedAt ∈ ops.filterMap CacheOp.insertedAt
  injective : ∀ k k' e e', c.stored k = some e → c.stored k' = some e' →
    e.fetchedAt = e'.fetchedAt → k = k'

/-- Each operation adds at most one entry, with the instant of its own insertion. -/
theorem stored_apply (h : (c.apply op).stored k = some e) :
    op.inserted = some k ∧ op.insertedAt = some e.fetchedAt ∨ c.stored k = some e := by
  cases op with
  | insert name value ttl now front =>
    rcases stored_insert h with ⟨rfl, rfl⟩ | hold
    · exact .inl ⟨rfl, rfl⟩
    · exact .inr hold
  | get name now => exact .inr (stored_get h)
  | setConfig => exact .inr h
  | clear => simp [apply, clear, stored] at h

theorem Stamped.apply (h : Stamped ops c) (hnew : ∀ now, op.insertedAt = some now →
    ∀ t ∈ ops.filterMap CacheOp.insertedAt, t < now) : Stamped (ops ++ [op]) (c.apply op) := by
  constructor
  · intro k e hk
    rw [List.filterMap_append, List.mem_append]
    rcases stored_apply hk with ⟨-, hat⟩ | hold
    · exact .inr (by simp [hat])
    · exact .inl (h.inserted k e hold)
  · intro k k' e e' hk hk' heq
    rcases stored_apply hk with ⟨hname, hat⟩ | hold <;>
      rcases stored_apply hk' with ⟨hname', hat'⟩ | hold'
    · rw [hname] at hname'
      exact Option.some.inj hname'
    · exact absurd heq.symm (hnew _ hat _ (h.inserted k' e' hold')).ne
    · exact absurd heq (hnew _ hat' _ (h.inserted k e hold)).ne
    · exact h.injective k k' e e' hold hold' heq

theorem strictInserts_concat (h : CacheOp.StrictInserts (ops ++ [op])) :
    CacheOp.StrictInserts ops ∧ ∀ now, op.insertedAt = some now →
      ∀ t ∈ ops.filterMap CacheOp.insertedAt, t < now := by
  unfold CacheOp.StrictInserts at h
  rw [List.filterMap_append, List.pairwise_append] at h
  exact ⟨h.1, fun now hnow t ht => h.2.2 t ht now (by simp [hnow])⟩

theorem runOps_stamped (h : CacheOp.StrictInserts ops) :
    Stamped ops ((new maxEntries defaultTtl).runOps ops) := by
  induction ops using List.reverseRecOn with
  | nil => exact ⟨fun k e hk => by simp [new, stored] at hk,
      fun k _ e _ hk => by simp [new, stored] at hk⟩
  | append_singleton ops op ih =>
    obtain ⟨hops, hnew⟩ := strictInserts_concat h
    rw [runOps_append]
    exact (ih hops).apply hnew

/-- With distinct instants a least one is less than all others. -/
theorem Stamped.oldest (h : Stamped ops c) (hk : c.stored k = some e)
    (hle : ∀ k' e', c.stored k' = some e' → e.fetchedAt ≤ e'.fetchedAt) : c.Oldest k e := by
  refine ⟨hk, fun k' e' hne hk' => lt_of_le_of_ne (hle k' e' hk') fun heq => ?_⟩
  exact hne (h.injective k' k e' e hk' hk heq.symm)

/-- The entry of `n` is held, and every name held with an entry no older is in `newer`. -/
structure Kept (n : String) (e : CacheEntry) (newer : Finset String) (c : BoundedCache) :
    Prop where
  stored : c.stored n = some e
  newer : ∀ k e', k ≠ n → c.stored k = some e' → e.fetchedAt ≤ e'.fetchedAt → k ∈ newer

theorem card_keys : c.map.keys.toFinset.card = c.len := by
  rw [List.toFinset_card_of_nodup c.map.keys_nodup]
  simp [len, AList.keys, List.keys]

theorem mem_keys_iff : k ∈ c.map.keys ↔ ∃ e, c.stored k = some e := by
  rw [← AList.mem_keys, ← AList.lookup_isSome, Option.isSome_iff_exists]
  rfl

/-- Where no entry is older, the names held and a new one are at most as many as the newer names
with the new one. -/
theorem Kept.len_le {newer : Finset String} (h : Kept n e newer c) (hm : c.stored m = none)
    (hle : ∀ k e', c.stored k = some e' → e.fetchedAt ≤ e'.fetchedAt) :
    c.len ≤ (Insert.insert m newer).card := by
  have hn : n ∈ c.map.keys.toFinset := List.mem_toFinset.mpr (mem_keys_iff.mpr ⟨e, h.stored⟩)
  have hmem : m ∉ c.map.keys.toFinset.erase n := fun hmem => by
    obtain ⟨e', he'⟩ := mem_keys_iff.mp (List.mem_toFinset.mp (Finset.mem_of_mem_erase hmem))
    rw [hm] at he'
    cases he'
  have hsub : c.map.keys.toFinset.erase n ⊆ newer := fun k hk => by
    obtain ⟨hne, hk⟩ := Finset.mem_erase.mp hk
    obtain ⟨e', he'⟩ := mem_keys_iff.mp (List.mem_toFinset.mp hk)
    exact h.newer k e' hne he' (hle k e' he')
  calc c.len = (c.map.keys.toFinset.erase n).card + 1 := by
        rw [Finset.card_erase_add_one hn, card_keys]
    _ = (Insert.insert m (c.map.keys.toFinset.erase n)).card :=
        (Finset.card_insert_of_notMem hmem).symm
    _ ≤ (Insert.insert m newer).card := Finset.card_le_card (Finset.insert_subset_insert m hsub)

theorem Kept.insert {newer : Finset String} {value front : String} {ttl : Option Duration}
    {now : Instant} (h : Kept n e newer c) (hm : m ≠ n)
    (hcard : (Insert.insert m newer).card < c.maxEntries) :
    Kept n e (Insert.insert m newer) (c.insert m value ttl now front) := by
  constructor
  · rcases stored_insert_cases (c := c) hm.symm with hsame | ⟨-, hnew, hfull, old, hold, holdest⟩
    · rw [hsame, h.stored]
    · rw [h.stored] at hold
      cases hold
      have := h.len_le hnew holdest
      omega
  · intro k e' hk hstored hle
    rcases stored_insert hstored with ⟨rfl, -⟩ | hold
    · exact Finset.mem_insert_self k newer
    · exact Finset.mem_insert_of_mem (h.newer k e' hk hold hle)

theorem Kept.get {newer : Finset String} {t : Instant} (h : Kept n e newer c)
    (hlive : m = n → e.isExpired t = false) : Kept n e newer (c.get m t).1 := by
  refine ⟨?_, fun k e' hk hstored hle => h.newer k e' hk (stored_get hstored) hle⟩
  rcases get_fst_cases (c := c) (n := m) (t := t) with hsame | ⟨old, hold, hexp, -⟩
  · rw [hsame, h.stored]
  · by_cases hm : m = n
    · subst hm
      rw [h.stored] at hold
      cases hold
      rw [hlive rfl] at hexp
      cases hexp
    · rw [stored_get_of_ne (Ne.symm hm), h.stored]

theorem insertedNames_cons {name value front : String} {ttl : Option Duration} {now : Instant} :
    CacheOp.insertedNames (.insert name value ttl now front :: rest) =
      Insert.insert name (CacheOp.insertedNames rest) := by
  simp [CacheOp.insertedNames, CacheOp.inserted]

/-- The entry stays through a run that inserts too few names to fill the cache with newer ones. -/
theorem Kept.runOps {newer : Finset String} (h : Kept n e newer c)
    (huse : ∀ op ∈ rest, op.IsUse) (hlast : ∀ op ∈ rest, ¬ op.Inserts n)
    (hlive : ∀ t, .get n t ∈ rest → e.isExpired t = false)
    (hcard : (newer ∪ CacheOp.insertedNames rest).card < c.maxEntries) :
    (c.runOps rest).stored n = some e := by
  induction rest generalizing c newer with
  | nil => exact h.stored
  | cons op rest ih =>
    have huse' := fun x hx => huse x (List.mem_cons_of_mem op hx)
    have hlast' := fun x hx => hlast x (List.mem_cons_of_mem op hx)
    have hlive' := fun t ht => hlive t (List.mem_cons_of_mem op ht)
    cases op with
    | insert name value ttl now front =>
      have hname : name ≠ n := hlast _ List.mem_cons_self
      rw [insertedNames_cons, Finset.union_insert, ← Finset.insert_union] at hcard
      have hsub : Insert.insert name newer ⊆
          Insert.insert name newer ∪ CacheOp.insertedNames rest := Finset.subset_union_left
      have hstep := (Finset.card_le_card hsub).trans_lt hcard
      exact ih (h.insert hname hstep) huse' hlast' hlive' hcard
    | get name t =>
      have hget : Kept n e newer (c.get name t).1 :=
        h.get fun hname => hlive t (by simp [hname])
      refine ih hget huse' hlast' hlive' ?_
      rw [apply_maxEntries (huse _ List.mem_cons_self)]
      exact hcard
    | setConfig => exact (huse _ List.mem_cons_self).elim
    | clear => exact (huse _ List.mem_cons_self).elim

theorem apply_defaultTtl (h : op.IsUse) : (c.apply op).defaultTtl = c.defaultTtl := by
  cases op with
  | insert => rfl
  | get => exact get_defaultTtl
  | setConfig => cases h
  | clear => cases h

theorem runOps_config (h : ∀ op ∈ ops, op.IsUse) :
    (c.runOps ops).maxEntries = c.maxEntries ∧ (c.runOps ops).defaultTtl = c.defaultTtl := by
  induction ops generalizing c with
  | nil => exact ⟨rfl, rfl⟩
  | cons op ops ih =>
    obtain ⟨hmax, httl⟩ := ih (c := c.apply op) fun x hx => h x (List.mem_cons_of_mem op hx)
    have hop := h op List.mem_cons_self
    exact ⟨hmax.trans (apply_maxEntries hop), httl.trans (apply_defaultTtl hop)⟩

/-- An insertion later than all that is held is kept, with no newer name yet. -/
theorem Kept.of_insert {value front : String} {ttl : Option Duration} {now : Instant}
    (hnew : ∀ k e, c.stored k = some e → e.fetchedAt < now) :
    Kept n ⟨value, now, ttl.getD c.defaultTtl⟩ ∅ (c.insert n value ttl now front) := by
  refine ⟨stored_insert_self, fun k e' hk hstored hle => ?_⟩
  rcases stored_insert hstored with ⟨heq, -⟩ | hold
  · exact absurd heq hk
  · exact absurd (hnew k e' hold) (Nat.not_lt.mpr hle)

/-- What the last insertion of a name wrote is held while it has not expired and fewer other names
than the bound have been inserted. -/
theorem stored_of_few {before : List CacheOp} {value front : String} {ttl : Option Duration}
    {now t : Instant} (huse : ∀ op ∈ before ++ .insert n value ttl now front :: rest, op.IsUse)
    (hstrict : CacheOp.StrictInserts (before ++ .insert n value ttl now front :: rest))
    (hlast : ∀ op ∈ rest, ¬ op.Inserts n)
    (hfew : (CacheOp.insertedNames rest).card < maxEntries)
    (hclock : ∀ t', .get n t' ∈ rest → t' ≤ t) (hlive : t - now < ttl.getD defaultTtl) :
    ((new maxEntries defaultTtl).runOps
      (before ++ .insert n value ttl now front :: rest)).stored n =
      some ⟨value, now, ttl.getD defaultTtl⟩ := by
  have husebefore : ∀ op ∈ before, op.IsUse := fun op hop =>
    huse op (List.mem_append_left _ hop)
  obtain ⟨hmax, httl⟩ := runOps_config (c := new maxEntries defaultTtl) husebefore
  have httl : ((new maxEntries defaultTtl).runOps before).defaultTtl = defaultTtl := httl
  have hsplit : CacheOp.StrictInserts (before ++ [.insert n value ttl now front]) := by
    refine List.Pairwise.sublist (List.Sublist.filterMap _ ?_) hstrict
    exact (List.Sublist.refl before).append (List.singleton_sublist.mpr List.mem_cons_self)
  obtain ⟨hbefore, hnew⟩ := strictInserts_concat hsplit
  have hkept : Kept n ⟨value, now, ttl.getD ((new maxEntries defaultTtl).runOps before).defaultTtl⟩
      ∅ (((new maxEntries defaultTtl).runOps before).insert n value ttl now front) :=
    Kept.of_insert fun k e hk => hnew now rfl _ ((runOps_stamped hbefore).inserted k e hk)
  rw [httl] at hkept
  rw [runOps_append, runOps_cons]
  refine hkept.runOps (fun op hop => huse op (by simp [hop])) hlast ?_ ?_
  · intro t' ht'
    have : t' - now ≤ t - now := Nat.sub_le_sub_right (hclock t' ht') now
    simpa [CacheEntry.isExpired] using this.trans_lt hlive
  · rw [Finset.empty_union]
    exact hfew.trans_eq hmax.symm

/-- With a fixed bound and insertions at increasing instants: the last insertion of a name is found
while it has not expired and fewer other names than the bound have been inserted since; a name
that is held is inserted again without an eviction; and an entry goes only when all are cleared,
when it is looked up after its time, or as the oldest one, when the cache is full and a new name
comes. -/
theorem oldest_write_eviction (maxEntries : Nat) (defaultTtl : Duration) (ops : List CacheOp)
    (huse : ∀ op ∈ ops, op.IsUse) (hstrict : CacheOp.StrictInserts ops) :
    (∀ before n value ttl now front rest t,
      ops = before ++ .insert n value ttl now front :: rest →
      (∀ op ∈ rest, ¬ op.Inserts n) → (CacheOp.insertedNames rest).card < maxEntries →
      (∀ t', .get n t' ∈ rest → t' ≤ t) → t - now < ttl.getD defaultTtl →
      ∃ hit, (((new maxEntries defaultTtl).runOps ops).get n t).2 = some hit ∧
        hit.value = value) ∧
    (∀ name value ttl now front, ((new maxEntries defaultTtl).runOps ops).stored name ≠ none →
      ∀ k ≠ name, (((new maxEntries defaultTtl).runOps ops).insert name value ttl now
        front).stored k = ((new maxEntries defaultTtl).runOps ops).stored k) ∧
    (∀ op k e, ((new maxEntries defaultTtl).runOps ops).stored k = some e →
      (((new maxEntries defaultTtl).runOps ops).apply op).stored k = none →
      op = .clear ∨ (∃ t, op = .get k t ∧ e.ttl ≤ t - e.fetchedAt) ∨
        ∃ name value ttl now front, op = .insert name value ttl now front ∧
          ((new maxEntries defaultTtl).runOps ops).stored name = none ∧
          maxEntries ≤ ((new maxEntries defaultTtl).runOps ops).len ∧
          ((new maxEntries defaultTtl).runOps ops).Oldest k e) := by
  refine ⟨?_, ?_, ?_⟩
  · rintro before n value ttl now front rest t rfl hlast hfew hclock hlive
    have hstored := stored_of_few huse hstrict hlast hfew hclock hlive
    have hfresh : ¬ CacheEntry.isExpired ⟨value, now, ttl.getD defaultTtl⟩ t := by
      simpa [CacheEntry.isExpired] using hlive
    rw [get_snd, hstored, Option.bind_some, if_neg hfresh]
    exact ⟨_, rfl, rfl⟩
  · intro name value ttl now front hheld k hk
    rcases stored_insert_cases hk with hsame | ⟨-, hnew, -⟩
    · exact hsame
    · exact absurd hnew hheld
  · intro op k e hk hgone
    rcases removed_cases hk hgone with hclear | hexp |
      ⟨name, value, ttl, now, front, hop, hnew, hfull, hle⟩
    · exact .inl hclear
    · exact .inr (.inl hexp)
    · refine .inr (.inr ⟨name, value, ttl, now, front, hop, hnew, ?_, ?_⟩)
      · exact (runOps_config (c := new maxEntries defaultTtl) huse).1.symm.trans_le hfull
      · exact (runOps_stamped hstrict).oldest hk hle

/-- A cache of two in which `A` is written again before `C` takes the place of `B`. -/
theorem oldest_write_eviction_rewritten : ∃ hit, (((new 2 100).runOps
    [.insert "A" "1" none 1 "", .insert "B" "2" none 2 "", .insert "A" "3" none 3 "",
      .insert "C" "4" none 4 ""]).get "A" 5).2 = some hit ∧ hit.value = "3" :=
  (oldest_write_eviction 2 100 _ (by simp [CacheOp.IsUse])
    (by simp [CacheOp.StrictInserts, CacheOp.insertedAt])).1
    [.insert "A" "1" none 1 "", .insert "B" "2" none 2 ""] "A" "3" none 3 ""
    [.insert "C" "4" none 4 ""] 5 rfl (by simp [CacheOp.Inserts])
    (by simp [CacheOp.insertedNames, CacheOp.inserted]) (by simp) (by decide)

end BoundedCache

end RemoBroker
