import RemoBroker.Cache.Retention

/-! The number of entries of a cache while its bound is changed.  An insertion evicts one entry at
most, so a cache above its bound never grows, and only lookups of expired entries make it
smaller. -/

namespace RemoBroker

namespace CacheOp

def newMaxEntries : CacheOp → Option Nat
  | .setConfig maxEntries _ => some maxEntries
  | _ => none

/-- The bounds that a cache made with `maxEntries` has had after the operations. -/
def configured (maxEntries : Nat) (ops : List CacheOp) : List Nat :=
  maxEntries :: ops.filterMap newMaxEntries

theorem configured_concat {maxEntries : Nat} {ops : List CacheOp} {op : CacheOp} :
    configured maxEntries (ops ++ [op]) = configured maxEntries ops ++ op.newMaxEntries.toList := by
  cases h : op.newMaxEntries <;> simp [configured, h]

end CacheOp

namespace BoundedCache

variable {c : BoundedCache} {op : CacheOp} {ops rest : List CacheOp} {n name value front : String}
  {ttl : Option Duration} {now t : Instant} {e : CacheEntry} {maxEntries cap : Nat}
  {defaultTtl : Duration}

theorem len_insert (hcap : 1 ≤ c.maxEntries) : (c.insert name value ttl now front).len =
    if c.stored name = none ∧ c.len < c.maxEntries then c.len + 1 else c.len := by
  obtain ⟨map, hroom, heq⟩ := insert_makesRoom c name value ttl now front
  rw [heq, hroom.len_insert]
  rcases hroom.length_cases hcap with ⟨hlen, hfull⟩ | ⟨hlen, hnew⟩
  · rw [hlen, if_neg]
    rintro ⟨hnew, hlt⟩
    rcases hfull with hheld | hfull
    · exact hheld hnew
    · omega
  · rw [hlen, if_pos hnew]

/-- A lookup that finds its entry expired. -/
def findsExpired (c : BoundedCache) : CacheOp → Bool
  | .get name now => (c.stored name).any (·.isExpired now)
  | _ => false

/-- An insertion of a name that is not held. -/
def insertsNew (c : BoundedCache) : CacheOp → Bool
  | .insert name _ _ _ _ => (c.stored name).isNone
  | _ => false

/-- How many of the operations meet `p` in the cache that they find. -/
def countAlong (p : BoundedCache → CacheOp → Bool) : BoundedCache → List CacheOp → Nat
  | _, [] => 0
  | c, op :: ops => (p c op).toNat + countAlong p (c.apply op) ops

theorem len_get : (c.get n t).1.len + (c.findsExpired (.get n t)).toNat = c.len := by
  unfold get findsExpired stored
  cases hn : c.map.lookup n with
  | none => simp [hn]
  | some e =>
    cases hexp : e.isExpired t with
    | false => simp [hexp, hn]
    | true => simpa [hexp, hn, len] using length_erase hn

/-- What one insertion or lookup does to the size. -/
theorem len_apply (hcap : 1 ≤ c.maxEntries) (hop : op.IsUse) :
    (c.apply op).len + (c.findsExpired op).toNat =
      if c.insertsNew op = true ∧ c.len < c.maxEntries then c.len + 1 else c.len := by
  cases op with
  | insert name value ttl now front =>
    simp [apply, len_insert hcap, findsExpired, insertsNew]
  | get name now => simpa [apply, insertsNew] using len_get
  | setConfig => exact hop.elim
  | clear => exact hop.elim

/-- An insertion or lookup, in a cache within its bound and in one above it. -/
theorem len_apply_cases (hcap : 1 ≤ c.maxEntries) (hop : op.IsUse) :
    c.len ≤ c.maxEntries ∧ (c.apply op).len ≤ c.maxEntries ∨
      c.maxEntries < c.len ∧ (c.apply op).len + (c.findsExpired op).toNat = c.len := by
  have hlen := len_apply hcap hop
  split at hlen <;> omega

/-- The cache comes within its bound exactly if enough lookups find their entry expired. -/
theorem len_runOps_le_iff (hcap : 1 ≤ c.maxEntries) (huse : ∀ op ∈ ops, op.IsUse) :
    (c.runOps ops).len ≤ c.maxEntries ↔ c.len ≤ c.maxEntries + countAlong findsExpired c ops := by
  induction ops generalizing c with
  | nil => rfl
  | cons op ops ih =>
    have hop := huse op List.mem_cons_self
    have hmax := apply_maxEntries (c := c) hop
    have hrest := ih (c := c.apply op) (hmax ▸ hcap) fun x hx =>
      huse x (List.mem_cons_of_mem op hx)
    rw [hmax] at hrest
    rw [runOps_cons, hrest, countAlong]
    rcases len_apply_cases hcap hop with ⟨hle, hle'⟩ | ⟨hlt, hlen⟩
    · omega
    · omega

theorem len_apply_le (hcap : 1 ≤ c.maxEntries) (hop : ∀ m d, op ≠ .setConfig m d) :
    (c.apply op).maxEntries = c.maxEntries ∧ (c.apply op).len ≤ max c.maxEntries c.len := by
  have huse (h : op.IsUse) :
      (c.apply op).maxEntries = c.maxEntries ∧ (c.apply op).len ≤ max c.maxEntries c.len := by
    refine ⟨apply_maxEntries h, ?_⟩
    rcases len_apply_cases hcap h with h | h <;> omega
  cases op with
  | insert => exact huse trivial
  | get => exact huse trivial
  | setConfig m d => exact absurd rfl (hop m d)
  | clear => exact ⟨rfl, Nat.zero_le _⟩

/-- Between two changes of the bound the size stays within the larger of the bound and the size
that the change found. -/
theorem len_runOps_le (hcap : 1 ≤ c.maxEntries) (hops : ∀ m d, .setConfig m d ∉ ops) :
    (c.runOps ops).maxEntries = c.maxEntries ∧ (c.runOps ops).len ≤ max c.maxEntries c.len := by
  induction ops generalizing c with
  | nil => exact ⟨rfl, le_max_right _ _⟩
  | cons op ops ih =>
    obtain ⟨hmax, hlen⟩ := len_apply_le hcap fun m d (heq : op = _) =>
      hops m d (heq ▸ List.mem_cons_self)
    obtain ⟨hmax', hlen'⟩ := ih (c := c.apply op) (hmax ▸ hcap) fun m d hmem =>
      hops m d (List.mem_cons_of_mem op hmem)
    rw [runOps_cons]
    exact ⟨hmax'.trans hmax, by omega⟩

theorem runOps_maxEntries_mem :
    ((new maxEntries defaultTtl).runOps ops).maxEntries ∈ CacheOp.configured maxEntries ops := by
  induction ops using List.reverseRecOn with
  | nil => exact List.mem_cons_self
  | append_singleton ops op ih =>
    rw [runOps_append, CacheOp.configured_concat, List.mem_append]
    cases op with
    | insert => exact .inl ih
    | get => exact .inl (get_maxEntries.symm ▸ ih)
    | setConfig m d => exact .inr (by simp [apply, setConfig, CacheOp.newMaxEntries])
    | clear => exact .inl ih

/-- The size never exceeds all the bounds that the cache has had. -/
theorem len_le_configured (hconf : ∀ m ∈ CacheOp.configured maxEntries ops, 1 ≤ m) :
    ∃ m ∈ CacheOp.configured maxEntries ops,
      ((new maxEntries defaultTtl).runOps ops).len ≤ m := by
  induction ops using List.reverseRecOn with
  | nil => exact ⟨maxEntries, List.mem_cons_self, Nat.zero_le _⟩
  | append_singleton ops op ih =>
    have hsub : CacheOp.configured maxEntries ops ⊆
        CacheOp.configured maxEntries (ops ++ [op]) := by
      rw [CacheOp.configured_concat]
      exact List.subset_append_left _ _
    obtain ⟨m, hm, hlen⟩ := ih fun m hm => hconf m (hsub hm)
    have hcurrent : ((new maxEntries defaultTtl).runOps ops).maxEntries ∈
        CacheOp.configured maxEntries ops := runOps_maxEntries_mem
    rw [runOps_append]
    by_cases hop : ∀ m d, op ≠ .setConfig m d
    · have hle := (len_apply_le (hconf _ (hsub hcurrent)) hop).2
      rcases le_max_iff.mp hle with h | h
      · exact ⟨_, hsub hcurrent, h⟩
      · exact ⟨m, hsub hm, h.trans hlen⟩
    · simp only [ne_eq, not_forall, not_not] at hop
      obtain ⟨m', d, rfl⟩ := hop
      exact ⟨m, hsub hm, hlen⟩

/-- The size is at most the current bound or the size right after the last change of the bound, so
it is never above all bounds so far; and an insertion adds to it only below the bound. -/
theorem len_bounded (maxEntries : Nat) (defaultTtl : Duration) (ops : List CacheOp)
    (hconf : ∀ m ∈ CacheOp.configured maxEntries ops, 1 ≤ m) :
    (∀ before m d rest, ops = before ++ .setConfig m d :: rest →
      (∀ m' d', .setConfig m' d' ∉ rest) →
      ((new maxEntries defaultTtl).runOps ops).len ≤
        max ((new maxEntries defaultTtl).runOps ops).maxEntries
          ((new maxEntries defaultTtl).runOps (before ++ [.setConfig m d])).len) ∧
    ((∀ m d, .setConfig m d ∉ ops) → ((new maxEntries defaultTtl).runOps ops).len ≤
      max ((new maxEntries defaultTtl).runOps ops).maxEntries (new maxEntries defaultTtl).len) ∧
    (∃ m ∈ CacheOp.configured maxEntries ops,
      ((new maxEntries defaultTtl).runOps ops).len ≤ m) ∧
    (∀ name value ttl now front, ((new maxEntries defaultTtl).runOps ops).len <
        (((new maxEntries defaultTtl).runOps ops).insert name value ttl now front).len →
      ((new maxEntries defaultTtl).runOps ops).len <
        ((new maxEntries defaultTtl).runOps ops).maxEntries) := by
  refine ⟨?_, ?_, len_le_configured hconf, ?_⟩
  · rintro before m d rest rfl hrest
    have hm : 1 ≤ m := hconf m (by simp [CacheOp.configured, CacheOp.newMaxEntries])
    have hsplit : before ++ CacheOp.setConfig m d :: rest =
        (before ++ [.setConfig m d]) ++ rest := by simp
    have hcap :
        1 ≤ ((new maxEntries defaultTtl).runOps (before ++ [.setConfig m d])).maxEntries := by
      rw [runOps_append]
      exact hm
    obtain ⟨hmax, hlen⟩ := len_runOps_le hcap hrest
    rw [hsplit, runOps_append, hmax]
    exact hlen
  · intro hops
    obtain ⟨hmax, hlen⟩ := len_runOps_le (c := new maxEntries defaultTtl)
      (hconf maxEntries List.mem_cons_self) hops
    rw [hmax]
    exact hlen
  · intro name value ttl now front hgrows
    rw [len_insert (hconf _ runOps_maxEntries_mem)] at hgrows
    split at hgrows
    · rename_i h
      exact h.2
    · exact absurd hgrows (Nat.lt_irrefl _)

/-- A cache whose bound goes down to one and up to three while it holds two entries. -/
theorem len_bounded_lowered : ∃ m ∈ CacheOp.configured 2
    [.insert "A" "1" none 0 "", .insert "B" "2" none 1 "", .setConfig 1 60, .setConfig 3 60],
    ((new 2 60).runOps [.insert "A" "1" none 0 "", .insert "B" "2" none 1 "", .setConfig 1 60,
      .setConfig 3 60]).len ≤ m :=
  (len_bounded 2 60 [.insert "A" "1" none 0 "", .insert "B" "2" none 1 "", .setConfig 1 60,
    .setConfig 3 60] (by decide)).2.2.1

/-- After the bound is set, whatever is inserted and looked up, the cache is within it exactly if
lookups found as many expired entries as there were too many. -/
theorem len_le_lowered_iff (c : BoundedCache) (cap : Nat) (defaultTtl : Duration)
    (ops : List CacheOp) (hcap : 1 ≤ cap) (huse : ∀ op ∈ ops, op.IsUse) :
    ((c.setConfig cap defaultTtl).runOps ops).len ≤ cap ↔
      c.len - cap ≤ countAlong findsExpired (c.setConfig cap defaultTtl) ops := by
  have hrun := len_runOps_le_iff (c := c.setConfig cap defaultTtl) hcap huse
  rw [Nat.sub_le_iff_le_add']
  exact hrun

/-- A lookup of the expired `A` makes room for good. -/
theorem len_le_lowered_expired :
    ((((new 2 60).runOps [.insert "A" "1" (some 5) 0 "", .insert "B" "2" none 1 ""]).setConfig
      1 60).runOps [.get "A" 10, .insert "C" "3" none 11 "", .insert "D" "4" none 12 ""]).len ≤ 1 :=
  (len_le_lowered_iff _ 1 60 _ (by decide) (by simp [CacheOp.IsUse])).mpr (by decide +kernel)

/-- Two entries, a bound of one, and two new names that are inserted: two entries still. -/
theorem len_above_lowered :
    ((new 2 60).runOps [.insert "A" "1" none 0 "", .insert "B" "2" none 1 ""]).len = 2 ∧
    countAlong insertsNew (((new 2 60).runOps
      [.insert "A" "1" none 0 "", .insert "B" "2" none 1 ""]).setConfig 1 60)
      [.insert "C" "3" none 2 "", .insert "D" "4" none 3 ""] = 2 ∧
    ((((new 2 60).runOps [.insert "A" "1" none 0 "", .insert "B" "2" none 1 ""]).setConfig
      1 60).runOps [.insert "C" "3" none 2 "", .insert "D" "4" none 3 ""]).len = 2 := by
  decide +kernel

end BoundedCache

end RemoBroker
