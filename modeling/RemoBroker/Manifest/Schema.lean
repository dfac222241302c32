import RemoBroker.Manifest.Grammar
import RemoBroker.Lib.JsonSchema

/-! The published schema of a manifest, `schema/remo-broker.v1.json`, with the definitions it refers
to, and what it says of a manifest that was read. -/

namespace RemoBroker

open JsonSchema

def rawAllowlistSchema : Schema := allOf [
  hasType [.object],
  required ["secrets"],
  properties [("secrets", allOf [
    hasType [.array],
    items (allOf [hasType [.string], pattern secretNamePattern]),
    minItems 0])],
  noAdditionalProperties ["secrets"]]

def rawCacheSchema : Schema := allOf [
  hasType [.object],
  properties [
    ("max_entries", allOf [hasType [.integer, .null], maximum 1024, minimum 1]),
    ("ttl_seconds", allOf [hasType [.integer, .null], maximum 86400, minimum 1])],
  noAdditionalProperties ["max_entries", "ttl_seconds"]]

def rawProjectSchema : Schema := allOf [
  hasType [.object],
  required ["name"],
  properties [
    ("description", allOf [hasType [.string, .null], maxLength 256]),
    ("name", allOf [hasType [.string], pattern projectNamePattern])],
  noAdditionalProperties ["description", "name"]]

/-- The root of the schema. -/
def manifestSchema : Schema := allOf [
  hasType [.object],
  required ["allowlist", "project", "schema_version"],
  properties [
    ("allowlist", rawAllowlistSchema),
    ("cache", anyOf [rawCacheSchema, allOf [hasType [.null]]]),
    ("project", rawProjectSchema),
    ("schema_version", allOf [hasType [.integer], maximum 1, minimum 1])],
  noAdditionalProperties ["allowlist", "cache", "project", "schema_version"]]

/-! The values that manifests are read from.  A field that is absent is `None`. -/

def u32Value (n : UInt32) : Value := .integer n.toNat

def optionalMember (name : String) (value : Option Value) : List (String × Value) :=
  value.toList.map fun v => (name, v)

def RawProject.toValue (p : RawProject) : Value :=
  .object (("name", .string p.name) :: optionalMember "description" (p.description.map .string))

def RawAllowlist.toValue (a : RawAllowlist) : Value :=
  .object [("secrets", .array (a.secrets.map .string))]

def RawCache.toValue (c : RawCache) : Value :=
  .object (optionalMember "ttl_seconds" (c.ttlSeconds.map u32Value) ++
    optionalMember "max_entries" (c.maxEntries.map u32Value))

def RawManifest.toValue (m : RawManifest) : Value :=
  .object ([("schema_version", u32Value m.schemaVersion), ("project", m.project.toValue),
    ("allowlist", m.allowlist.toValue)] ++ optionalMember "cache" (m.cache.map RawCache.toValue))

theorem rawProjectSchema_iff (p : RawProject) : rawProjectSchema p.toValue ↔
    p.name.toList ∈ projectNamePattern ∧
      ∀ d, p.description = some d → d.length ≤ descriptionMaxLen := by
  cases hd : p.description with
  | none => simp [rawProjectSchema, RawProject.toValue, hd, optionalMember]
  | some d => simp [rawProjectSchema, RawProject.toValue, hd, optionalMember, descriptionMaxLen]

theorem rawAllowlistSchema_iff (a : RawAllowlist) : rawAllowlistSchema a.toValue ↔
    ∀ n ∈ a.secrets, n.toList ∈ secretNamePattern := by
  simp [rawAllowlistSchema, RawAllowlist.toValue]

/-- An optional number of the cache block is within its bounds. -/
def InBounds (max : UInt32) (value : Option UInt32) : Prop := ∀ v, value = some v → 1 ≤ v ∧ v ≤ max

theorem inBounds_some {max v : UInt32} :
    InBounds max (some v) ↔ (v.toNat : Int) ≤ max.toNat ∧ (1 : Int) ≤ v.toNat := by
  have hone : (1 : UInt32).toNat = 1 := rfl
  simp only [InBounds, Option.some.injEq, forall_eq', UInt32.le_iff_toNat_le, hone]
  omega

theorem rawCacheSchema_iff (c : RawCache) : rawCacheSchema c.toValue ↔
    InBounds cacheTtlMax c.ttlSeconds ∧ InBounds cacheMaxEntriesMax c.maxEntries := by
  have hnone : ∀ max, InBounds max none := fun max v hv => nomatch hv
  cases httl : c.ttlSeconds <;> cases hmax : c.maxEntries <;>
    simp [rawCacheSchema, RawCache.toValue, httl, hmax, optionalMember, u32Value, inBounds_some,
      hnone, cacheTtlMax, cacheMaxEntriesMax]

theorem schemaVersion_iff (v : UInt32) :
    v ∈ supportedSchemaVersions ↔ (v.toNat : Int) ≤ 1 ∧ (1 : Int) ≤ v.toNat := by
  rw [supportedSchemaVersions, List.mem_singleton, ← UInt32.toNat_inj]
  have hone : (1 : UInt32).toNat = 1 := rfl
  omega

/-- The manifests that are valid against the published schema. -/
theorem manifestSchema_iff (raw : RawManifest) : manifestSchema raw.toValue ↔
    raw.schemaVersion ∈ supportedSchemaVersions ∧
    raw.project.name.toList ∈ projectNamePattern ∧
    (∀ d, raw.project.description = some d → d.length ≤ descriptionMaxLen) ∧
    (∀ n ∈ raw.allowlist.secrets, n.toList ∈ secretNamePattern) ∧
    ∀ c, raw.cache = some c →
      InBounds cacheTtlMax c.ttlSeconds ∧ InBounds cacheMaxEntriesMax c.maxEntries := by
  rw [schemaVersion_iff]
  cases hc : raw.cache with
  | none =>
    simp [manifestSchema, RawManifest.toValue, hc, optionalMember, u32Value, rawProjectSchema_iff,
      rawAllowlistSchema_iff]
    tauto
  | some c =>
    simp [manifestSchema, RawManifest.toValue, hc, optionalMember, u32Value, rawProjectSchema_iff,
      rawAllowlistSchema_iff, rawCacheSchema_iff]
    tauto

end RemoBroker
