import RemoBroker.Lib.JsonText.Render
import RemoBroker.Manifest.Grammar
import RemoBroker.Wire

/-! The responses of the two sockets as JSON values.  What is written for a response is a text of
its value, and the value has all of the response in it. -/

namespace RemoBroker

open JsonText (NumberFormat Text IsText FieldText maxDepth)

abbrev Member := String × JsonValue

def textMember (name value : String) : Member := (name, .string value)

def numberMember (name : String) (value : Nat) : Member := (name, .number (Json.number value))

def okMember (ok : Bool) : Member := ("ok", .bool ok)

def textsMember (name : String) (values : List String) : Member :=
  (name, .array (values.map .string))

def optionMember {α : Type} (member : α → Member) (value : Option α) : List Member :=
  value.toList.map member

def ErrorResponse.toValue {Code : Type} (wire : Code → String) (e : ErrorResponse Code) :
    JsonValue :=
  .object ([okMember false, textMember "code" (wire e.code), textMember "message" e.message] ++
    optionMember (fun s : UInt32 => numberMember "retry_after_seconds" s.toNat)
      e.retryAfterSeconds)

def GetResponse.toValue (g : GetResponse) : JsonValue :=
  .object ([okMember true] ++ optionMember (textMember "value") g.value ++
    optionMember (textMember "value_b64") g.valueB64 ++
    [numberMember "ttl_seconds" g.ttlSeconds.toNat])

def ProjectResponse.toValue : ProjectResponse → JsonValue
  | .get response => response.toValue
  | .ping brokerVersion protocolVersion project =>
    .object [okMember true, textMember "broker_version" brokerVersion,
      numberMember "protocol_version" protocolVersion.toNat, textMember "project" project]
  | .info project allowlist schemaVersion =>
    .object [okMember true, textMember "project" project, textsMember "allowlist" allowlist,
      numberMember "schema_version" schemaVersion.toNat]
  | .error e => e.toValue ProjectErrorCode.wire

def ProjectStatus.toValue (p : ProjectStatus) : JsonValue :=
  .object [textMember "name" p.name, textMember "socket_path" p.socketPath,
    numberMember "allowlist_size" p.allowlistSize.toNat,
    numberMember "cache_entries" p.cacheEntries.toNat]

def StatusResponse.toValue (r : StatusResponse) : JsonValue :=
  .object [okMember true, textMember "broker_version" r.brokerVersion,
    numberMember "protocol_version" r.protocolVersion.toNat,
    numberMember "uptime_seconds" r.uptimeSeconds.toNat,
    textMember "bootstrap_mode" r.bootstrapMode.wire,
    ("projects", .array (r.projects.map ProjectStatus.toValue))]

def AdminResponse.toValue : AdminResponse → JsonValue
  | .registered socketPath => .object [okMember true, textMember "socket_path" socketPath]
  | .ok => .object [okMember true]
  | .reloaded allowlist => .object [okMember true, textsMember "allowlist" allowlist]
  | .status response => response.toValue
  | .rotated => .object [okMember true, textMember "backend_auth" "ok"]
  | .error e => e.toValue AdminErrorCode.wire

/-! ### The text of a response -/

variable {numbers : NumberFormat} {depth n : Nat} {name value : String}

theorem text_string (s : String) :
    Text numbers.inRange depth (.string s) (Json.string (bytes s)) := by
  rw [bytes_eq_encode]
  cases depth <;> exact JsonText.stringText_string

theorem text_number (h : numbers.inRange (Json.number n) = true) :
    Text numbers.inRange depth (.number (Json.number n)) (Json.number n) := by
  have hscalar : JsonText.ScalarText numbers.inRange (.number (Json.number n)) (Json.number n) :=
    ⟨rfl, JsonText.numberText_number, h⟩
  cases depth <;> exact hscalar

theorem fieldText_text :
    FieldText numbers.inRange depth (textMember name value) (textField name value) :=
  ⟨bytes_eq_encode name, text_string value⟩

theorem fieldText_number (h : numbers.inRange (Json.number n) = true) :
    FieldText numbers.inRange depth (numberMember name n) (numberField name n) :=
  ⟨bytes_eq_encode name, text_number h⟩

theorem fieldText_u32 (u : UInt32) :
    FieldText numbers.inRange depth (numberMember name u.toNat) (numberField name u.toNat) :=
  fieldText_number (numbers.inRange_number _ (u.toNat_lt.trans (by decide)))

theorem fieldText_u64 (u : UInt64) :
    FieldText numbers.inRange depth (numberMember name u.toNat) (numberField name u.toNat) :=
  fieldText_number (numbers.inRange_number _ u.toNat_lt)

theorem fieldText_ok {ok : Bool} : FieldText numbers.inRange depth (okMember ok) (okField ok) := by
  refine ⟨bytes_eq_encode "ok", ?_⟩
  cases depth <;> exact rfl

theorem fieldText_texts {values : List String} :
    FieldText numbers.inRange (depth + 1) (textsMember name values) (textsField name values) := by
  refine ⟨bytes_eq_encode name, JsonText.text_array ?_⟩
  rw [List.forall₂_map_left_iff, List.forall₂_map_right_iff]
  exact List.forall₂_same.mpr fun s _ => text_string s

theorem fieldText_option {α : Type} {member : α → Member} {field : α → Field} (value : Option α)
    (h : ∀ a, FieldText numbers.inRange depth (member a) (field a)) :
    List.Forall₂ (FieldText numbers.inRange depth) (optionMember member value)
      (optionField field value) := by
  rw [optionMember, optionField, List.forall₂_map_left_iff, List.forall₂_map_right_iff]
  exact List.forall₂_same.mpr fun a _ => h a

theorem ErrorResponse.text_toJson {Code : Type} {wire : Code → String} (e : ErrorResponse Code) :
    Text numbers.inRange (depth + 1) (e.toValue wire) (e.toJson wire) := by
  apply JsonText.text_object
  refine List.rel_append ?_ (fieldText_option _ fieldText_u32)
  exact .cons fieldText_ok (.cons fieldText_text (.cons fieldText_text .nil))

theorem GetResponse.text_toJson (g : GetResponse) :
    Text numbers.inRange (depth + 1) g.toValue g.toJson := by
  apply JsonText.text_object
  refine List.rel_append (List.rel_append (List.rel_append ?_ ?_) ?_) ?_
  · exact .cons fieldText_ok .nil
  · exact fieldText_option _ fun _ => fieldText_text
  · exact fieldText_option _ fun _ => fieldText_text
  · exact .cons (fieldText_u32 _) .nil

theorem ProjectResponse.text_toJson (r : ProjectResponse) :
    Text numbers.inRange maxDepth r.toValue r.toJson := by
  cases r with
  | get response => exact response.text_toJson
  | ping brokerVersion protocolVersion project =>
    exact JsonText.text_object (.cons fieldText_ok (.cons fieldText_text
      (.cons (fieldText_u32 _) (.cons fieldText_text .nil))))
  | info project allowlist schemaVersion =>
    exact JsonText.text_object (.cons fieldText_ok (.cons fieldText_text
      (.cons fieldText_texts (.cons (fieldText_u32 _) .nil))))
  | error e => exact e.text_toJson

theorem ProjectStatus.text_toJson (p : ProjectStatus) :
    Text numbers.inRange (depth + 1) p.toValue p.toJson :=
  JsonText.text_object (.cons fieldText_text (.cons fieldText_text
    (.cons (fieldText_u32 _) (.cons (fieldText_u32 _) .nil))))

theorem StatusResponse.text_toJson (r : StatusResponse) :
    Text numbers.inRange maxDepth r.toValue r.toJson := by
  have hprojects : List.Forall₂ (Text numbers.inRange 125) (r.projects.map ProjectStatus.toValue)
      (r.projects.map ProjectStatus.toJson) := by
    rw [List.forall₂_map_left_iff, List.forall₂_map_right_iff]
    exact List.forall₂_same.mpr fun p _ => p.text_toJson
  have hmember : FieldText numbers.inRange 126 ("projects", _) (bytes "projects", _) :=
    ⟨bytes_eq_encode _, JsonText.text_array hprojects⟩
  exact JsonText.text_object (.cons fieldText_ok (.cons fieldText_text (.cons (fieldText_u32 _)
    (.cons (fieldText_u64 _) (.cons fieldText_text (.cons hmember .nil))))))

theorem AdminResponse.text_toJson (r : AdminResponse) :
    Text numbers.inRange maxDepth r.toValue r.toJson := by
  cases r with
  | registered socketPath =>
    exact JsonText.text_object (.cons fieldText_ok (.cons fieldText_text .nil))
  | ok => exact JsonText.text_object (.cons fieldText_ok .nil)
  | reloaded allowlist =>
    exact JsonText.text_object (.cons fieldText_ok (.cons fieldText_texts .nil))
  | status response => exact response.text_toJson
  | rotated => exact JsonText.text_object (.cons fieldText_ok (.cons fieldText_text .nil))
  | error e => exact e.text_toJson

/-! ### A value has all of its response -/

theorem number_injective : Function.Injective Json.number := by
  intro m n h
  have hnatural := congrArg JsonText.natural h
  rw [JsonText.natural_number, JsonText.natural_number] at hnatural
  exact Option.some.inj hnatural

@[simp] theorem textMember_inj {a b : String} :
    textMember name a = textMember name b ↔ a = b := by
  simp [textMember]

@[simp] theorem numberMember_inj {m : Nat} :
    numberMember name m = numberMember name n ↔ m = n := by
  simp [numberMember, number_injective.eq_iff]

@[simp] theorem okMember_inj {a b : Bool} : okMember a = okMember b ↔ a = b := by
  simp [okMember]

@[simp] theorem textsMember_inj {a b : List String} :
    textsMember name a = textsMember name b ↔ a = b := by
  have hinj : Function.Injective JsonValue.string := fun _ _ => JsonValue.string.inj
  simp [textsMember, (List.map_injective_iff.mpr hinj).eq_iff]

theorem ProjectErrorCode.wire_injective : Function.Injective ProjectErrorCode.wire := by
  intro a b h
  cases a <;> cases b <;> first | rfl | exact absurd h (by decide)

theorem AdminErrorCode.wire_injective : Function.Injective AdminErrorCode.wire := by
  intro a b h
  cases a <;> cases b <;> first | rfl | exact absurd h (by decide)

theorem BootstrapMode.wire_injective : Function.Injective BootstrapMode.wire := by
  intro a b h
  cases a <;> cases b <;> first | rfl | exact absurd h (by decide)

theorem optionMember_inj {α : Type} {member : α → Member} (h : Function.Injective member)
    {a b : Option α} : optionMember member a = optionMember member b ↔ a = b := by
  cases a <;> cases b <;> simp [optionMember, h.eq_iff]

theorem ErrorResponse.toValue_injective {Code : Type} {wire : Code → String}
    (hwire : Function.Injective wire) :
    Function.Injective (ErrorResponse.toValue wire) := by
  intro a b h
  have hmember : Function.Injective fun s : UInt32 =>
      numberMember "retry_after_seconds" s.toNat := by
    intro s t hst
    exact UInt32.toNat_inj.mp (numberMember_inj.mp hst)
  simp only [toValue, JsonValue.object.injEq, List.cons_append, List.nil_append, List.cons.injEq,
    textMember_inj, true_and, optionMember_inj hmember, hwire.eq_iff] at h
  obtain ⟨hcode, hmessage, hretry⟩ := h
  cases a
  cases b
  simp_all

theorem GetResponse.toValue_injective : Function.Injective GetResponse.toValue := by
  rintro ⟨value, valueB64, ttl⟩ ⟨value', valueB64', ttl'⟩ h
  cases value <;> cases value' <;> cases valueB64 <;> cases valueB64' <;>
    simp_all [toValue, optionMember, textMember, numberMember, okMember, number_injective.eq_iff,
      UInt32.toNat_inj]

/-- The name of the last member of an object. -/
def lastName : JsonValue → Option String
  | .object members => members.getLast?.map Prod.fst
  | _ => none

def ErrorResponse.lastField {Code : Type} (e : ErrorResponse Code) : String :=
  if e.retryAfterSeconds.isSome then "retry_after_seconds" else "message"

/-- The field that a response ends with, which tells the kinds of responses apart. -/
def ProjectResponse.lastField : ProjectResponse → String
  | .get _ => "ttl_seconds"
  | .ping _ _ _ => "project"
  | .info _ _ _ => "schema_version"
  | .error e => e.lastField

def AdminResponse.lastField : AdminResponse → String
  | .registered _ => "socket_path"
  | .ok => "ok"
  | .reloaded _ => "allowlist"
  | .status _ => "projects"
  | .rotated => "backend_auth"
  | .error e => e.lastField

theorem ErrorResponse.lastName_toValue {Code : Type} {wire : Code → String}
    (e : ErrorResponse Code) : lastName (e.toValue wire) = some e.lastField := by
  obtain ⟨code, message, retry⟩ := e
  cases retry <;> rfl

theorem ProjectResponse.lastName_toValue (r : ProjectResponse) :
    lastName r.toValue = some r.lastField := by
  cases r with
  | get g =>
    rw [toValue, GetResponse.toValue, lastName, List.getLast?_concat]
    rfl
  | ping brokerVersion protocolVersion project => rfl
  | info project allowlist schemaVersion => rfl
  | error e => exact e.lastName_toValue

theorem AdminResponse.lastName_toValue (r : AdminResponse) :
    lastName r.toValue = some r.lastField := by
  cases r with
  | error e => exact e.lastName_toValue
  | _ => rfl

theorem ProjectResponse.toValue_injective : Function.Injective ProjectResponse.toValue := by
  intro a b h
  have hlast : a.lastField = b.lastField := by
    have := congrArg lastName h
    rwa [lastName_toValue, lastName_toValue, Option.some.injEq] at this
  cases a <;> cases b
  case get.get => exact congrArg _ (GetResponse.toValue_injective h)
  case ping.ping => simpa [toValue, UInt32.toNat_inj] using h
  case info.info => simpa [toValue, UInt32.toNat_inj] using h
  case error.error =>
    exact congrArg _ (ErrorResponse.toValue_injective ProjectErrorCode.wire_injective h)
  all_goals
    simp only [lastField, ErrorResponse.lastField] at hlast
    try split at hlast
    all_goals exact absurd hlast (by decide)

theorem ProjectStatus.toValue_injective : Function.Injective ProjectStatus.toValue := by
  rintro ⟨_, _, _, _⟩ ⟨_, _, _, _⟩ h
  simpa [toValue, UInt32.toNat_inj] using h

theorem StatusResponse.toValue_injective : Function.Injective StatusResponse.toValue := by
  rintro ⟨_, _, _, _, _⟩ ⟨_, _, _, _, _⟩ h
  simpa [toValue, UInt32.toNat_inj, UInt64.toNat_inj, BootstrapMode.wire_injective.eq_iff,
    (List.map_injective_iff.mpr ProjectStatus.toValue_injective).eq_iff] using h

theorem AdminResponse.toValue_injective : Function.Injective AdminResponse.toValue := by
  intro a b h
  have hlast : a.lastField = b.lastField := by
    have := congrArg lastName h
    rwa [lastName_toValue, lastName_toValue, Option.some.injEq] at this
  cases a <;> cases b
  case registered.registered => simpa [toValue] using h
  case ok.ok => rfl
  case reloaded.reloaded => simpa [toValue] using h
  case status.status => exact congrArg _ (StatusResponse.toValue_injective h)
  case rotated.rotated => rfl
  case error.error =>
    exact congrArg _ (ErrorResponse.toValue_injective AdminErrorCode.wire_injective h)
  all_goals
    simp only [lastField, ErrorResponse.lastField] at hlast
    try split at hlast
    all_goals exact absurd hlast (by decide)

theorem fromSlice_of_text {v : JsonValue} {t : List UInt8} (h : Text numbers.inRange maxDepth v t) :
    JsonText.fromSlice numbers.inRange t = some v := by
  rw [JsonText.fromSlice_eq_some]
  simpa using JsonText.isText_line (w := []) h (by simp [JsonText.Space])

/-- A format without a bound on the numbers. -/
def everyNumber : NumberFormat := ⟨fun _ => true, fun _ _ => rfl, fun _ _ => rfl⟩

theorem responses_readable (numbers : NumberFormat) (r : ProjectResponse) (a : AdminResponse) :
    JsonText.fromSlice numbers.inRange r.toJson = some r.toValue ∧
    JsonText.fromSlice numbers.inRange a.toJson = some a.toValue ∧
    (∀ r' : ProjectResponse, r'.toJson = r.toJson → r' = r) ∧
    ∀ a' : AdminResponse, a'.toJson = a.toJson → a' = a := by
  refine ⟨fromSlice_of_text r.text_toJson, fromSlice_of_text a.text_toJson, ?_, ?_⟩
  · intro r' h
    have hvalue := @fromSlice_of_text numbers _ _ r.text_toJson
    have hvalue' := @fromSlice_of_text numbers _ _ r'.text_toJson
    rw [h, hvalue] at hvalue'
    exact ProjectResponse.toValue_injective (Option.some.inj hvalue'.symm)
  · intro a' h
    have hvalue := @fromSlice_of_text numbers _ _ a.text_toJson
    have hvalue' := @fromSlice_of_text numbers _ _ a'.text_toJson
    rw [h, hvalue] at hvalue'
    exact AdminResponse.toValue_injective (Option.some.inj hvalue'.symm)

theorem responses_readable_reload :
    JsonText.fromSlice everyNumber.inRange
      (ProjectResponse.get (GetResponse.utf8 "a\"b" 542)).toJson = some (.object
        [("ok", .bool true), ("value", .string "a\"b"), ("ttl_seconds", .number [53, 52, 50])]) ∧
    JsonText.fromSlice everyNumber.inRange (AdminResponse.reloaded ["A", "B"]).toJson =
      some (.object [("ok", .bool true), ("allowlist", .array [.string "A", .string "B"])]) :=
  let h := responses_readable everyNumber (.get (GetResponse.utf8 "a\"b" 542))
    (.reloaded ["A", "B"])
  ⟨h.1, h.2.1⟩

end RemoBroker
