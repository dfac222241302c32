import RemoBroker.Manifest.Schema

/-! `Manifest::validate` accepts exactly the manifests that meet the documented rules, and its error
names the first rule that is not met. -/

namespace RemoBroker

namespace Manifest

/-- The rules, in the order in which they are checked. -/
structure Conforms (raw : RawManifest) (dir : Option String) : Prop where
  version : raw.schemaVersion ∈ supportedSchemaVersions
  name : raw.project.name.toList ∈ projectNamePattern
  dir : ∀ d, dir = some d → raw.project.name = d
  description : ∀ d, raw.project.description = some d → d.length ≤ descriptionMaxLen
  secrets : ∀ n ∈ raw.allowlist.secrets, n.toList ∈ secretNamePattern
  nodup : raw.allowlist.secrets.Nodup
  ttl : ∀ c, raw.cache = some c → InBounds cacheTtlMax c.ttlSeconds
  maxEntries : ∀ c, raw.cache = some c → InBounds cacheMaxEntriesMax c.maxEntries

/-- The rules before those of the allowlist. -/
structure Preamble (raw : RawManifest) (dir : Option String) : Prop where
  version : raw.schemaVersion ∈ supportedSchemaVersions
  name : raw.project.name.toList ∈ projectNamePattern
  dir : ∀ d, dir = some d → raw.project.name = d
  description : ∀ d, raw.project.description = some d → d.length ≤ descriptionMaxLen

/-- The error names the first rule that is not met.  In the allowlist that is about the first entry
that is no name or repeats one of the entries `before` it. -/
inductive FirstViolation (raw : RawManifest) (dir : Option String) : ManifestError → Prop
  | version (h : raw.schemaVersion ∉ supportedSchemaVersions) :
    FirstViolation raw dir (.unsupportedSchemaVersion raw.schemaVersion)
  | name (hversion : raw.schemaVersion ∈ supportedSchemaVersions)
      (h : raw.project.name.toList ∉ projectNamePattern) :
    FirstViolation raw dir (.invalidProjectName raw.project.name)
  | dir {d : String} (hversion : raw.schemaVersion ∈ supportedSchemaVersions)
      (hname : raw.project.name.toList ∈ projectNamePattern) (hdir : dir = some d)
      (h : raw.project.name ≠ d) :
    FirstViolation raw dir (.nameDirMismatch raw.project.name d)
  | description {d : String} (hversion : raw.schemaVersion ∈ supportedSchemaVersions)
      (hname : raw.project.name.toList ∈ projectNamePattern)
      (hdir : ∀ d, dir = some d → raw.project.name = d)
      (hdesc : raw.project.description = some d) (h : descriptionMaxLen < d.length) :
    FirstViolation raw dir (.descriptionTooLong d.length)
  | secret {before after : List String} {n : String} (hpre : Preamble raw dir)
      (hsplit : raw.allowlist.secrets = before ++ n :: after)
      (hbefore : ∀ n ∈ before, n.toList ∈ secretNamePattern) (hnodup : before.Nodup)
      (h : n.toList ∉ secretNamePattern) :
    FirstViolation raw dir (.invalidSecretName n)
  | duplicate {before after : List String} {n : String} (hpre : Preamble raw dir)
      (hsplit : raw.allowlist.secrets = before ++ n :: after)
      (hbefore : ∀ n ∈ before, n.toList ∈ secretNamePattern) (hnodup : before.Nodup)
      (hn : n.toList ∈ secretNamePattern) (h : n ∈ before) :
    FirstViolation raw dir (.duplicateSecret n)
  | ttl {c : RawCache} {v : UInt32} (hpre : Preamble raw dir)
      (hsecrets : ∀ n ∈ raw.allowlist.secrets, n.toList ∈ secretNamePattern)
      (hnodup : raw.allowlist.secrets.Nodup) (hcache : raw.cache = some c)
      (hv : c.ttlSeconds = some v) (h : ¬ InBounds cacheTtlMax c.ttlSeconds) :
    FirstViolation raw dir (.cacheTtlOutOfRange v)
  | maxEntries {c : RawCache} {v : UInt32} (hpre : Preamble raw dir)
      (hsecrets : ∀ n ∈ raw.allowlist.secrets, n.toList ∈ secretNamePattern)
      (hnodup : raw.allowlist.secrets.Nodup) (hcache : raw.cache = some c)
      (httl : InBounds cacheTtlMax c.ttlSeconds)
      (hv : c.maxEntries = some v) (h : ¬ InBounds cacheMaxEntriesMax c.maxEntries) :
    FirstViolation raw dir (.cacheMaxEntriesOutOfRange v)

variable {raw : RawManifest} {dir : Option String} {e : ManifestError}

theorem FirstViolation.not_conforms (h : FirstViolation raw dir e) : ¬ Conforms raw dir := by
  intro hc
  cases h with
  | version h => exact h hc.version
  | name _ h => exact h hc.name
  | dir _ _ hdir h => exact h (hc.dir _ hdir)
  | description _ _ _ hdesc h => exact Nat.not_lt.mpr (hc.description _ hdesc) h
  | secret _ hsplit _ _ h => exact h (hc.secrets _ (by simp [hsplit]))
  | duplicate _ hsplit _ _ _ h =>
    have hnodup := hsplit ▸ hc.nodup
    exact (List.nodup_append.mp hnodup).2.2 _ h _ (by simp) rfl
  | ttl _ _ _ hcache _ h => exact h (hc.ttl _ hcache)
  | maxEntries _ _ _ hcache _ _ h => exact h (hc.maxEntries _ hcache)

/-- What the loop over the allowlist stops at. -/
theorem checkSecrets_first {seen names : List String} (h : checkSecrets seen names = .error e) :
    ∃ before n after, names = before ++ n :: after ∧
      (∀ m ∈ before, isValidSecretName m = true) ∧ before.Nodup ∧ (∀ m ∈ before, m ∉ seen) ∧
      (isValidSecretName n = false ∧ e = .invalidSecretName n ∨
        isValidSecretName n = true ∧ (n ∈ before ∨ n ∈ seen) ∧ e = .duplicateSecret n) := by
  induction names generalizing seen with
  | nil => cases h
  | cons name rest ih =>
    rw [checkSecrets] at h
    split at h
    · rename_i hvalid
      cases h
      exact ⟨[], name, rest, rfl, by simp, by simp, by simp, .inl ⟨by simpa using hvalid, rfl⟩⟩
    · rename_i hvalid
      have hvalid : isValidSecretName name = true := by simpa using hvalid
      split at h
      · rename_i hseen
        cases h
        exact ⟨[], name, rest, rfl, by simp, by simp, by simp, .inr ⟨hvalid, .inr hseen, rfl⟩⟩
      · rename_i hseen
        obtain ⟨before, n, after, rfl, hall, hnodup, hnew, herror⟩ := ih h
        refine ⟨name :: before, n, after, rfl, by simpa [hvalid] using hall, ?_, ?_, ?_⟩
        · exact List.nodup_cons.mpr ⟨fun hmem => hnew name hmem (by simp), hnodup⟩
        · intro m hm
          rcases List.mem_cons.mp hm with rfl | hm
          · exact hseen
          · exact fun hs => hnew m hm (List.mem_cons_of_mem _ hs)
        · rcases herror with hinvalid | ⟨hn, hdup, rfl⟩
          · exact .inl hinvalid
          · refine .inr ⟨hn, ?_, rfl⟩
            simp only [List.mem_cons] at hdup ⊢
            tauto

theorem outOfRange_some {max v : UInt32} {value : Option UInt32}
    (h : outOfRange max value = some v) : value = some v ∧ ¬ InBounds max value := by
  refine ⟨(Option.filter_eq_some_iff.mp h).1, fun hin => ?_⟩
  rw [outOfRange_eq_none.mpr hin] at h
  cases h

theorem secrets_iff {names : List String} : (∀ n ∈ names, isValidSecretName n = true) ↔
    ∀ n ∈ names, n.toList ∈ secretNamePattern :=
  forall₂_congr fun _ _ => isValidSecretName_iff

theorem FirstViolation.of_checkSecrets (hpre : Preamble raw dir)
    (h : checkSecrets [] raw.allowlist.secrets = .error e) : FirstViolation raw dir e := by
  obtain ⟨before, n, after, hsplit, hall, hnodup, -, herror⟩ := checkSecrets_first h
  have hbefore := secrets_iff.mp hall
  rcases herror with ⟨hinvalid, rfl⟩ | ⟨hn, hdup, rfl⟩
  · refine .secret hpre hsplit hbefore hnodup fun hmem => ?_
    rw [isValidSecretName_iff.mpr hmem] at hinvalid
    cases hinvalid
  · exact .duplicate hpre hsplit hbefore hnodup (isValidSecretName_iff.mp hn)
      (by simpa using hdup)

theorem FirstViolation.of_checkCache (hpre : Preamble raw dir)
    (hvalid : ∀ n ∈ raw.allowlist.secrets, n.toList ∈ secretNamePattern)
    (hnodup : raw.allowlist.secrets.Nodup) (h : checkCache raw.cache = .error e) :
    FirstViolation raw dir e := by
  cases hc : raw.cache with
  | none => simp [hc, checkCache] at h
  | some c =>
    simp only [hc, checkCache] at h
    split at h
    · rename_i v hv
      cases h
      obtain ⟨hv, hout⟩ := outOfRange_some hv
      exact .ttl hpre hvalid hnodup hc hv hout
    rename_i httl
    split at h
    · rename_i v hv
      cases h
      obtain ⟨hv, hout⟩ := outOfRange_some hv
      exact .maxEntries hpre hvalid hnodup hc (outOfRange_eq_none.mp httl) hv hout
    · cases h

/-- The error of `validate` is about the first rule that is not met. -/
theorem validate_first (h : validate raw dir = .error e) : FirstViolation raw dir e := by
  unfold validate at h
  split at h
  · rename_i hversion
    cases h
    exact .version hversion
  rename_i hversion
  have hversion := not_not.mp hversion
  split at h
  · rename_i hname
    cases h
    exact .name hversion fun hmem => hname (isValidProjectName_iff.mpr hmem)
  rename_i hname
  have hname := isValidProjectName_iff.mp (not_not.mp hname)
  split at h
  · rename_i d hdir
    cases h
    obtain ⟨hdir, hne⟩ := Option.filter_eq_some_iff.mp hdir
    exact .dir hversion hname hdir (by simpa using hne)
  rename_i hdir
  have hdir : ∀ d, dir = some d → raw.project.name = d := fun d hd => by
    simpa using Option.filter_eq_none_iff.mp hdir d hd
  split at h
  · rename_i d hdesc
    cases h
    obtain ⟨hdesc, hlong⟩ := Option.filter_eq_some_iff.mp hdesc
    exact .description hversion hname hdir hdesc (by simpa using hlong)
  rename_i hdesc
  have hdesc : ∀ d, raw.project.description = some d → d.length ≤ descriptionMaxLen :=
    fun d hd => by simpa using Option.filter_eq_none_iff.mp hdesc d hd
  have hpre : Preamble raw dir := ⟨hversion, hname, hdir, hdesc⟩
  split at h
  · rename_i err hsecrets
    cases h
    exact .of_checkSecrets hpre hsecrets
  rename_i hsecrets
  obtain ⟨hvalid, hnodup, -⟩ := checkSecrets_ok hsecrets
  split at h
  · rename_i err hcache
    cases h
    exact .of_checkCache hpre (secrets_iff.mp hvalid) hnodup hcache
  · cases h

theorem validate_cache {m : Manifest} (h : validate raw dir = .ok m) :
    checkCache raw.cache = .ok m.cache := by
  unfold validate at h
  split at h
  · cases h
  split at h
  · cases h
  split at h
  · cases h
  split at h
  · cases h
  split at h
  · cases h
  split at h
  · cases h
  rename_i hcache
  cases h
  exact hcache

/-- A manifest that `validate` returns is the one that it read, and that one meets the rules. -/
theorem validate_conforms {m : Manifest} (h : validate raw dir = .ok m) : Conforms raw dir := by
  obtain ⟨hversion, hproject, hallow, hdir⟩ := validate_ok h
  obtain ⟨hrange, hcache⟩ := checkCache_ok (validate_cache h)
  have hbounds : ∀ c, raw.cache = some c →
      InBounds cacheTtlMax c.ttlSeconds ∧ InBounds cacheMaxEntriesMax c.maxEntries := by
    intro c hc
    rw [hcache, hc] at hrange
    exact ⟨hrange.ttl, hrange.entries⟩
  constructor
  · exact hversion ▸ m.version_supported
  · have hname := m.name_valid
    rw [hproject] at hname
    exact isValidProjectName_iff.mp hname
  · rw [hproject] at hdir
    exact hdir
  · have hdesc := m.description_short
    rw [hproject] at hdesc
    exact hdesc
  · have hsecrets := m.secrets_valid
    rw [hallow] at hsecrets
    exact secrets_iff.mp hsecrets
  · have hnodup := m.secrets_nodup
    rw [hallow] at hnodup
    exact hnodup
  · exact fun c hc => (hbounds c hc).1
  · exact fun c hc => (hbounds c hc).2

theorem validate_of_conforms (h : Conforms raw dir) : ∃ m, validate raw dir = .ok m := by
  cases hv : validate raw dir with
  | ok m => exact ⟨m, rfl⟩
  | error e => exact absurd h (validate_first hv).not_conforms

theorem conforms_iff_schema : Conforms raw dir ↔ manifestSchema raw.toValue ∧
    raw.allowlist.secrets.Nodup ∧ ∀ d, dir = some d → raw.project.name = d := by
  rw [manifestSchema_iff]
  constructor
  · intro h
    exact ⟨⟨h.version, h.name, h.description, h.secrets,
      fun c hc => ⟨h.ttl c hc, h.maxEntries c hc⟩⟩, h.nodup, h.dir⟩
  · rintro ⟨⟨hversion, hname, hdesc, hsecrets, hcache⟩, hnodup, hdir⟩
    exact ⟨hversion, hname, hdir, hdesc, hsecrets, hnodup, fun c hc => (hcache c hc).1,
      fun c hc => (hcache c hc).2⟩

/-- `validate` succeeds exactly on the manifests that meet the rules, which are those that are valid
against the published schema, repeat no secret and have the name of the directory.  It returns what
it read, or an error about the first rule that is not met. -/
theorem validate_exact (raw : RawManifest) (dir : Option String) :
    ((∃ m, validate raw dir = .ok m) ↔ Conforms raw dir) ∧
    (Conforms raw dir ↔ manifestSchema raw.toValue ∧ raw.allowlist.secrets.Nodup ∧
      ∀ d, dir = some d → raw.project.name = d) ∧
    (∀ m, validate raw dir = .ok m → m.schemaVersion = raw.schemaVersion ∧
      m.project.name = raw.project.name ∧ m.project.description = raw.project.description ∧
      m.allowlist.secrets = raw.allowlist.secrets ∧
      m.cache = (raw.cache.map fun c => ⟨c.ttlSeconds, c.maxEntries⟩).getD ⟨none, none⟩) ∧
    (∀ e, validate raw dir = .error e → FirstViolation raw dir e) := by
  refine ⟨⟨fun ⟨m, hm⟩ => validate_conforms hm, validate_of_conforms⟩, conforms_iff_schema, ?_,
    fun e => validate_first⟩
  intro m hm
  obtain ⟨hversion, hproject, hallow, -⟩ := validate_ok hm
  have hcache := (checkCache_ok (validate_cache hm)).2
  exact ⟨hversion, by rw [hproject], by rw [hproject], by rw [hallow], hcache⟩

/-- The third entry of this allowlist repeats the first, before the fourth, which is no name. -/
theorem validate_exact_duplicate : FirstViolation
    ⟨1, ⟨"web", none⟩, ⟨["A", "B", "A", "no name"]⟩, none⟩ (some "web") (.duplicateSecret "A") :=
  (validate_exact ⟨1, ⟨"web", none⟩, ⟨["A", "B", "A", "no name"]⟩, none⟩ (some "web")).2.2.2 _ rfl

end Manifest

end RemoBroker
