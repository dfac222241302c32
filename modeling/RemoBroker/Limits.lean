import RemoBroker.Daemon.Records
import RemoBroker.Framing.Handler
import RemoBroker.Wire

/-! How long the responses are that the two sockets write.  A response carries texts of any length:
secret values, allowlists, names that the client chose, errors of libraries. -/

namespace RemoBroker

open Json (newline)

/-- The bytes that a text takes inside a JSON string. -/
@[irreducible] def textSize (s : String) : Nat := (Json.escaped (bytes s)).length

/-- The bytes that a list of texts takes, with the quotation marks and commas. -/
def listSize (l : List String) : Nat := (l.map fun s => textSize s + 3).sum

@[simp] theorem bytes_append (s t : String) : bytes (s ++ t) = bytes s ++ bytes t := by
  simp [bytes]

@[simp] theorem textSize_append (s t : String) : textSize (s ++ t) = textSize s + textSize t := by
  simp [textSize]

section
variable {name value : String}

/-- An object whose field names and punctuation take `k` bytes. -/
theorem length_object {fields : List Field} (k : Nat)
    (h : (Json.object (fields.map fun f => (f.1, []))).length = k) :
    (Json.object fields).length = k + (fields.map fun f => f.2.length).sum := by
  rw [Json.length_object, h]

theorem length_okField {ok : Bool} : (okField ok).2.length ≤ 5 := by
  cases ok <;> decide

theorem length_textField : (textField name value).2.length = textSize value + 2 := by
  rw [textSize]
  exact Json.length_string

theorem length_numberField {n : UInt32} : (numberField name n.toNat).2.length ≤ 10 := by
  apply Json.length_number_le (by decide)
  have := n.toNat_lt
  omega

theorem length_textsField {values : List String} :
    (textsField name values).2.length ≤ listSize values + 2 := by
  have hsum : ((values.map fun v => Json.string (bytes v)).map List.length).sum +
      (values.length - 1) ≤ listSize values := by
    induction values with
    | nil => simp [listSize]
    | cons v values ih =>
      simp only [listSize, List.map_cons, List.sum_cons, List.length_cons, Json.length_string,
        textSize] at ih ⊢
      omega
  rw [textsField, Json.length_array, List.length_map]
  omega

end

theorem length_error {Code : Type} {wire : Code → String} {code : Code} {message : String} :
    ((ErrorResponse.new code message).toJson wire).length ≤
      textSize (wire code) + textSize message + 35 := by
  have hok : (okField false).2.length ≤ 5 := length_okField
  rw [ErrorResponse.toJson, length_object 26 rfl]
  simp only [ErrorResponse.new, optionField, Option.toList_none, List.map_nil, List.append_nil,
    List.map_cons, List.sum_cons, List.sum_nil, length_textField]
  omega

theorem length_get {value : String} {ttlSeconds : UInt32} :
    (GetResponse.utf8 value ttlSeconds).toJson.length =
      textSize value + (Json.number ttlSeconds.toNat).length + 37 := by
  have hok : (okField true).2.length = 4 := by decide
  rw [GetResponse.toJson, length_object 31 rfl]
  simp only [GetResponse.utf8, optionField, Option.toList_some, Option.toList_none, List.map_cons,
    List.map_nil, List.cons_append, List.nil_append, List.append_nil, List.sum_cons, List.sum_nil,
    length_textField, numberField]
  omega

theorem length_ping {version project : String} {protocol : UInt32} :
    (ProjectResponse.ping version protocol project).toJson.length ≤
      textSize version + textSize project + 75 := by
  have hok : (okField true).2.length ≤ 5 := length_okField
  have hprotocol : (numberField "protocol_version" protocol.toNat).2.length ≤ 10 :=
    length_numberField
  rw [ProjectResponse.toJson, length_object 56 rfl]
  simp only [List.map_cons, List.map_nil, List.sum_cons, List.sum_nil, length_textField]
  omega

theorem length_info {project : String} {allowlist : List String} {schema : UInt32} :
    (ProjectResponse.info project allowlist schema).toJson.length ≤
      textSize project + listSize allowlist + 68 := by
  have hok : (okField true).2.length ≤ 5 := length_okField
  have hschema : (numberField "schema_version" schema.toNat).2.length ≤ 10 := length_numberField
  have hlist : (textsField "allowlist" allowlist).2.length ≤ listSize allowlist + 2 :=
    length_textsField
  rw [ProjectResponse.toJson, length_object 49 rfl]
  simp only [List.map_cons, List.map_nil, List.sum_cons, List.sum_nil, length_textField]
  omega

theorem length_registered {socketPath : String} :
    (AdminResponse.registered socketPath).toJson.length ≤ textSize socketPath + 29 := by
  have hok : (okField true).2.length ≤ 5 := length_okField
  rw [AdminResponse.toJson, length_object 22 rfl]
  simp only [List.map_cons, List.map_nil, List.sum_cons, List.sum_nil, length_textField]
  omega

theorem length_reloaded {allowlist : List String} :
    (AdminResponse.reloaded allowlist).toJson.length ≤ listSize allowlist + 27 := by
  have hok : (okField true).2.length ≤ 5 := length_okField
  have hlist : (textsField "allowlist" allowlist).2.length ≤ listSize allowlist + 2 :=
    length_textsField
  rw [AdminResponse.toJson, length_object 20 rfl]
  simp only [List.map_cons, List.map_nil, List.sum_cons, List.sum_nil]
  omega

/-- The bytes that the status of some projects takes, with 96 for the rest of each entry. -/
def statusSize (l : List ProjectStatus) : Nat :=
  (l.map fun p => textSize p.name + textSize p.socketPath + 96).sum

theorem length_projectStatus (p : ProjectStatus) :
    p.toJson.length ≤ textSize p.name + textSize p.socketPath + 83 := by
  have hsize : (numberField "allowlist_size" p.allowlistSize.toNat).2.length ≤ 10 :=
    length_numberField
  have hentries : (numberField "cache_entries" p.cacheEntries.toNat).2.length ≤ 10 :=
    length_numberField
  rw [ProjectStatus.toJson, length_object 59 rfl]
  simp only [List.map_cons, List.map_nil, List.sum_cons, List.sum_nil, length_textField]
  omega

theorem length_projects (l : List ProjectStatus) :
    (Json.array (l.map ProjectStatus.toJson)).length ≤ statusSize l + 2 := by
  have hsum : ((l.map ProjectStatus.toJson).map List.length).sum + (l.length - 1) ≤
      statusSize l := by
    induction l with
    | nil => simp [statusSize]
    | cons p l ih =>
      have hp := length_projectStatus p
      simp only [statusSize, List.map_cons, List.sum_cons, List.length_cons] at ih ⊢
      omega
  rw [Json.length_array, List.length_map]
  omega

theorem length_status (r : StatusResponse) :
    r.toJson.length ≤ textSize r.brokerVersion + (Json.number r.uptimeSeconds.toNat).length +
      statusSize r.projects + 118 := by
  have hok : (okField true).2.length ≤ 5 := length_okField
  have hprotocol : (numberField "protocol_version" r.protocolVersion.toNat).2.length ≤ 10 :=
    length_numberField
  have hmode : textSize r.bootstrapMode.wire ≤ 4 := by
    cases r.bootstrapMode <;> decide +kernel
  have hprojects := length_projects r.projects
  rw [StatusResponse.toJson, length_object 93 rfl]
  simp only [List.map_cons, List.map_nil, List.sum_cons, List.sum_nil, length_textField]
  rw [show (numberField "uptime_seconds" r.uptimeSeconds.toNat).2 =
    Json.number r.uptimeSeconds.toNat from rfl]
  omega

/-! The texts of the errors. -/

theorem textSize_digit {c : Char} (h : c.isDigit = true) : textSize (String.ofList [c]) = 1 := by
  have hall : ∀ n : Fin 58, 48 ≤ n → textSize (String.ofList [Char.ofNat n]) = 1 := by
    decide +kernel
  have hdigit : 48 ≤ c.val ∧ c.val ≤ 57 := by simpa [Char.isDigit] using h
  have hlow : 48 ≤ c.val.toNat := UInt32.le_iff_toNat_le.mp hdigit.1
  have hhigh : c.val.toNat < 58 := Nat.lt_succ_of_le (UInt32.le_iff_toNat_le.mp hdigit.2)
  rw [← Char.ofNat_toNat c]
  exact hall ⟨c.val.toNat, hhigh⟩ hlow

theorem textSize_ofList {l : List Char} (h : ∀ c ∈ l, textSize (String.ofList [c]) = 1) :
    textSize (String.ofList l) = l.length := by
  induction l with
  | nil => decide +kernel
  | cons c l ih =>
    have hsplit : String.ofList (c :: l) = String.ofList [c] ++ String.ofList l := by
      apply String.toList_inj.mp
      simp
    rw [hsplit, textSize_append, h c List.mem_cons_self,
      ih fun d hd => h d (List.mem_cons_of_mem _ hd), List.length_cons, Nat.add_comm]

theorem textSize_toString_le {n k : Nat} (hk : 0 < k) (h : n < 10 ^ k) :
    textSize (toString n) ≤ k := by
  rw [Nat.toString_eq_ofList_toDigits, textSize_ofList fun c hc =>
    textSize_digit (Nat.isDigit_of_mem_toDigits (by decide) (by decide) hc)]
  exact (Nat.length_toDigits_le_iff (by decide) hk).mpr h

theorem textSize_toString_u32 (n : UInt32) : textSize (toString n) ≤ 10 := by
  have hlt := n.toNat_lt
  exact textSize_toString_le (by decide) (show n.toNat < 10 ^ 10 by omega)

section
variable {debug : String → String}

/-- The bytes of the texts that the message of an error quotes. -/
def ManifestError.quoted (debug : String → String) : ManifestError → Nat
  | .notFound path => textSize path
  | .io path source | .parse path source => textSize path + textSize source
  | .invalidProjectName name | .invalidSecretName name | .duplicateSecret name =>
    textSize (debug name)
  | .nameDirMismatch name dir => textSize (debug name) + textSize (debug dir)
  | .descriptionTooLong len => textSize (toString len)
  | _ => 0

def RegistryError.quoted (debug : String → String) : RegistryError → Nat
  | .projectExists name | .projectUnknown name => textSize (debug name)
  | .manifestNotFound e | .manifestInvalid e => e.quoted debug
  | .bindSocket path source | .socketPerms path source => textSize path + textSize source

/-! A message is fixed text around the texts that it quotes. -/

theorem size_after {a x : String} {n : Nat} (h : textSize a ≤ n) :
    textSize (a ++ x) ≤ textSize x + n := by
  rw [textSize_append a x]
  omega

theorem size_between {a x b : String} {n : Nat} (h : textSize a + textSize b ≤ n) :
    textSize (a ++ x ++ b) ≤ textSize x + n := by
  rw [textSize_append (a ++ x) b, textSize_append a x]
  omega

theorem size_twice {a x b y : String} {n : Nat} (h : textSize a + textSize b ≤ n) :
    textSize (a ++ x ++ b ++ y) ≤ textSize x + textSize y + n := by
  rw [textSize_append (a ++ x ++ b) y]
  have := size_between (x := x) h
  omega

theorem size_limit {a x b c d : String} {n : Nat}
    (h : textSize a + textSize b + textSize c + textSize d ≤ n) :
    textSize (a ++ x ++ b ++ c ++ d) ≤ textSize x + n := by
  have hbetween : textSize (a ++ x ++ b) ≤ textSize x + (textSize a + textSize b) :=
    size_between (Nat.le_refl _)
  rw [textSize_append (a ++ x ++ b ++ c) d, textSize_append (a ++ x ++ b) c]
  omega

theorem ManifestError.message_size (e : ManifestError) :
    textSize (e.message debug) ≤ e.quoted debug + 100 := by
  cases e with
  | notFound path => exact size_between (by decide +kernel)
  | io path source => exact size_twice (by decide +kernel)
  | parse path source => exact size_twice (by decide +kernel)
  | unsupportedSchemaVersion v =>
    have hv := textSize_toString_u32 v
    exact (size_limit (n := 90) (by decide +kernel)).trans (Nat.add_le_add_right hv 90)
  | invalidProjectName name => exact size_between (by decide +kernel)
  | nameDirMismatch name dir => exact size_twice (by decide +kernel)
  | descriptionTooLong len => exact size_limit (by decide +kernel)
  | invalidSecretName name => exact size_between (by decide +kernel)
  | duplicateSecret name => exact size_after (by decide +kernel)
  | cacheTtlOutOfRange value =>
    have hv := textSize_toString_u32 value
    exact (size_limit (n := 90) (by decide +kernel)).trans (Nat.add_le_add_right hv 90)
  | cacheMaxEntriesOutOfRange value =>
    have hv := textSize_toString_u32 value
    exact (size_limit (n := 90) (by decide +kernel)).trans (Nat.add_le_add_right hv 90)

theorem RegistryError.message_size (e : RegistryError) :
    textSize (e.message debug) ≤ e.quoted debug + 120 := by
  cases e with
  | projectExists name => exact size_between (by decide +kernel)
  | projectUnknown name => exact size_between (by decide +kernel)
  | manifestNotFound e =>
    exact (size_after (n := 20) (by decide +kernel)).trans (Nat.add_le_add_right e.message_size 20)
  | manifestInvalid e =>
    exact (size_after (n := 20) (by decide +kernel)).trans (Nat.add_le_add_right e.message_size 20)
  | bindSocket path source => exact size_twice (by decide +kernel)
  | socketPerms path source => exact size_twice (by decide +kernel)

def maxSize (l : List Nat) : Nat := l.foldr max 0

theorem le_maxSize {l : List Nat} {n : Nat} (h : n ∈ l) : n ≤ maxSize l := by
  induction l with
  | nil => cases h
  | cons m l ih =>
    rcases List.mem_cons.mp h with rfl | h
    · exact Nat.le_max_left _ _
    · exact (ih h).trans (Nat.le_max_right _ _)

/-- The most that an error of the validation of a manifest may quote. -/
def rawSize (debug : String → String) (raw : RawManifest) (name : String) (dir : Option String) :
    Nat :=
  maxSize ([textSize (debug raw.project.name) + textSize (debug name),
      textSize (debug raw.project.name) + dir.elim 0 fun d => textSize (debug d),
      raw.project.description.elim 0 fun d => textSize (toString d.length)] ++
    raw.allowlist.secrets.map fun n => textSize (debug n))

theorem checkSecrets_error {seen names : List String} {e : ManifestError}
    (h : Manifest.checkSecrets seen names = .error e) :
    ∃ n ∈ names, e = .invalidSecretName n ∨ e = .duplicateSecret n := by
  induction names generalizing seen with
  | nil => cases h
  | cons name rest ih =>
    simp only [Manifest.checkSecrets] at h
    split at h
    · cases h
      exact ⟨name, List.mem_cons_self, .inl rfl⟩
    · split at h
      · cases h
        exact ⟨name, List.mem_cons_self, .inr rfl⟩
      · obtain ⟨n, hn, he⟩ := ih h
        exact ⟨n, List.mem_cons_of_mem _ hn, he⟩

theorem checkCache_error {raw : Option RawCache} {e : ManifestError}
    (h : Manifest.checkCache raw = .error e) : e.quoted debug = 0 := by
  cases raw with
  | none => cases h
  | some c =>
    simp only [Manifest.checkCache] at h
    split at h
    · cases h
      rfl
    · split at h
      · cases h
        rfl
      · cases h

theorem validate_error {raw : RawManifest} {dir : Option String} {e : ManifestError}
    (name : String) (h : Manifest.validate raw dir = .error e) :
    e.quoted debug ≤ rawSize debug raw name dir := by
  unfold Manifest.validate at h
  split at h
  · cases h
    exact Nat.zero_le _
  split at h
  · cases h
    have hname : textSize (debug raw.project.name) + textSize (debug name) ≤
        rawSize debug raw name dir := le_maxSize (by simp)
    exact (Nat.le_add_right _ _).trans hname
  split at h
  · rename_i d hdir
    cases h
    rw [Option.eq_some_of_filter_eq_some hdir]
    exact le_maxSize (by simp [ManifestError.quoted])
  split at h
  · rename_i d hdesc
    cases h
    exact le_maxSize (by simp [ManifestError.quoted, Option.eq_some_of_filter_eq_some hdesc])
  split at h
  · rename_i e' hsecrets
    cases h
    obtain ⟨n, hn, he⟩ := checkSecrets_error hsecrets
    have hquoted : e.quoted debug = textSize (debug n) := by
      rcases he with rfl | rfl <;> rfl
    rw [hquoted]
    exact le_maxSize (List.mem_append_right _ (List.mem_map_of_mem hn))
  split at h
  · rename_i e' hcache
    cases h
    rw [checkCache_error hcache]
    exact Nat.zero_le _
  · cases h

/-- The most that an error about the manifest file at a path may quote. -/
def sourceSize (env : Env) (disk : Disk) (name projectPath path : String) : Nat :=
  match disk.readToString path with
  | .error e => textSize path + textSize e
  | .ok src =>
    match env.toml src with
    | .error e => textSize path + textSize e
    | .ok raw => rawSize env.debug raw name (Path.fileName projectPath)

/-- The most that an error of the loading of a manifest may quote. -/
def manifestSize (env : Env) (disk : Disk) (name projectPath : String) : Nat :=
  maxSize (textSize projectPath :: (manifestCandidates.map (Path.join projectPath)).map
    (sourceSize env disk name projectPath))

theorem sourceSize_le {env : Env} {disk : Disk} {name projectPath path : String}
    (h : path ∈ manifestCandidates.map (Path.join projectPath)) :
    sourceSize env disk name projectPath path ≤ manifestSize env disk name projectPath :=
  le_maxSize (List.mem_cons_of_mem _ (List.mem_map_of_mem h))

theorem load_error {env : Env} {disk : Disk} {projectPath : String} {e : ManifestError}
    (name : String) (h : Manifest.load env.toml disk projectPath = .error e) :
    e.quoted env.debug ≤ manifestSize env disk name projectPath := by
  unfold Manifest.load at h
  cases hpath : discover disk projectPath with
  | none =>
    simp only [hpath, bind, Except.bind] at h
    cases h
    exact le_maxSize List.mem_cons_self
  | some path =>
    refine le_trans ?_ (sourceSize_le (List.mem_of_find?_eq_some hpath))
    unfold sourceSize
    simp only [hpath, bind, Except.bind, pure, Except.pure] at h
    cases hread : disk.readToString path with
    | error source =>
      simp only [hread, Except.mapError] at h ⊢
      cases h
      exact Nat.le_refl _
    | ok src =>
      simp only [hread, Except.mapError] at h ⊢
      cases hraw : env.toml src with
      | error source =>
        simp only [hraw] at h ⊢
        cases h
        exact Nat.le_refl _
      | ok raw =>
        simp only [hraw] at h ⊢
        split at h
        · rename_i hvalid
          cases h
          exact validate_error name hvalid
        · cases h

theorem loadNamed_error {env : Env} {disk : Disk} {name projectPath : String} {e : RegistryError}
    (h : loadNamed env.toml disk name projectPath = .error e) :
    e.quoted env.debug ≤ manifestSize env disk name projectPath := by
  unfold loadNamed loadManifest at h
  cases hload : Manifest.load env.toml disk projectPath with
  | error e' =>
    have hquoted := load_error name hload
    simp only [hload, Except.mapError] at h
    cases h
    cases e' <;> exact hquoted
  | ok r =>
    simp only [hload, Except.mapError] at h
    split at h
    · cases h
      obtain ⟨src, raw, hmem, hread, hraw, hvalid⟩ := Manifest.load_source hload
      have hname : r.1.project.name = raw.project.name := by
        rw [(Manifest.validate_ok hvalid).2.1]
      have hsource : sourceSize env disk name projectPath r.2 =
          rawSize env.debug raw name (Path.fileName projectPath) := by
        simp only [sourceSize, hread, hraw]
      refine le_trans ?_ (hsource ▸ sourceSize_le hmem)
      rw [hname]
      exact le_maxSize (List.mem_append_left _ List.mem_cons_self)
    · cases h

end

end RemoBroker
