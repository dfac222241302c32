import RemoBroker.AuditLog.Json
import RemoBroker.AuditLog.Torn
import RemoBroker.Lib.JsonOpening
import RemoBroker.Wire.Response

/-! The lines of the audit log as JSON texts, and what can be read back from the log file. -/

namespace RemoBroker

open JsonText (NumberFormat Text FieldText maxDepth)

def integerMember (name : String) (value : Int) : Member := (name, .number (Json.integer value))

section
variable (stamp : Rfc3339)

def FetchEvent.members (e : FetchEvent) : List Member :=
  [textMember "timestamp" (stamp.format e.timestamp), textMember "project" e.project,
    textMember "secret_name" e.secretName, textMember "decision" e.decision.wire,
    textMember "outcome" e.outcome.wire] ++ optionMember (integerMember "peer_pid") e.peerPid ++
  optionMember (fun u : UInt32 => numberMember "peer_uid" u.toNat) e.peerUid ++
  [numberMember "latency_ms" e.latencyMs.toNat] ++ optionMember (textMember "backend") e.backend ++
  optionMember (textMember "reason") e.reason

def AuditEvent.members : AuditEvent → List Member
  | .fetch e => textMember "event" "fetch" :: e.members stamp
  | .manifestInvalid timestamp project manifestPath error =>
    [textMember "event" "manifest.invalid", textMember "timestamp" (stamp.format timestamp),
      textMember "project" project, textMember "manifest_path" manifestPath,
      textMember "error" error]
  | .socketRecovered timestamp project socketPath =>
    [textMember "event" "socket.recovered", textMember "timestamp" (stamp.format timestamp),
      textMember "project" project, textMember "socket_path" socketPath]
  | .shutdown timestamp reason eventsDropped eventsInDegradedBuffer =>
    [textMember "event" "shutdown", textMember "timestamp" (stamp.format timestamp),
      textMember "reason" reason, numberMember "events_dropped" eventsDropped.toNat,
      numberMember "events_in_degraded_buffer" eventsInDegradedBuffer.toNat]

/-- The event as a JSON value. -/
def AuditEvent.toValue (e : AuditEvent) : JsonValue := .object (e.members stamp)

end

/-- The process id of the peer is an `i32`. -/
def AuditEvent.Fits : AuditEvent → Prop
  | .fetch e => ∀ pid ∈ e.peerPid, -2 ^ 31 ≤ pid ∧ pid < 2 ^ 31
  | _ => True

variable {stamp : Rfc3339} {numbers : NumberFormat}

/-! ### One line -/

theorem integerField_inline {name : String} {value : Int} :
    Json.newline ∉ (integerField name value).2 :=
  Json.integer_inline value

/-- A property of the values of all fields of an event. -/
theorem AuditEvent.forall_jsonFields {P : Field → Prop} (e : AuditEvent)
    (htext : ∀ name value, P (textField name value))
    (hnumber : ∀ name value, P (numberField name value))
    (hinteger : ∀ name value, P (integerField name value)) : ∀ f ∈ e.jsonFields stamp, P f := by
  have hoption : ∀ {α : Type} {field : α → Field} {value : Option α}, (∀ a, P (field a)) →
      ∀ f ∈ optionField field value, P f := by
    intro α field value h f hf
    obtain ⟨a, -, rfl⟩ := List.mem_map.mp hf
    exact h a
  cases e with
  | fetch e =>
    simp only [jsonFields, FetchEvent.jsonFields, List.cons_append, List.nil_append,
      List.append_assoc, List.forall_mem_cons, List.forall_mem_append]
    exact ⟨htext _ _, htext _ _, htext _ _, htext _ _, htext _ _, htext _ _,
      hoption (hinteger _), hoption fun _ => hnumber _ _, hnumber _ _, hoption (htext _),
      hoption (htext _)⟩
  | manifestInvalid => simp [jsonFields, htext]
  | socketRecovered => simp [jsonFields, htext]
  | shutdown => simp [jsonFields, htext, hnumber]

theorem AuditEvent.toJson_inline (e : AuditEvent) : 10 ∉ e.toJson stamp :=
  Json.object_inline (e.forall_jsonFields (fun _ _ => textField_inline)
    (fun _ _ => numberField_inline) fun _ _ => integerField_inline)

theorem AuditEvent.toJson_opening (e : AuditEvent) : Json.opening 101 <+: e.toJson stamp := by
  have hname : (Json.escaped (bytes "event")).head? = some 101 := by decide
  cases e <;> exact Json.opening_prefix hname

/-- No line ends with another one. -/
theorem AuditEvent.toJson_suffix {e e' : AuditEvent} {text : List UInt8}
    (h : text ++ e.toJson stamp = e'.toJson stamp) : text = [] := by
  have hletter : Json.isLetter 101 := ⟨by decide, by decide⟩
  refine Json.eq_nil_of_object_suffix hletter ?_ e.toJson_opening h
  exact e'.forall_jsonFields (fun _ _ => Json.free_string (by decide))
    (fun _ _ => Json.free_number) fun _ _ => Json.free_integer _

/-! ### The value of a line -/

theorem fieldText_integer {depth : Nat} {name : String} {value : Int} (hlow : -2 ^ 31 ≤ value)
    (hhigh : value < 2 ^ 31) :
    FieldText numbers.inRange depth (integerMember name value) (integerField name value) := by
  have hrange : numbers.inRange (Json.integer value) = true := by
    unfold Json.integer
    split
    · exact numbers.inRange_negative _ (by omega)
    · exact numbers.inRange_number _ (by omega)
  have hscalar : JsonText.ScalarText numbers.inRange (.number (Json.integer value))
      (Json.integer value) := ⟨rfl, JsonText.numberText_integer value, hrange⟩
  refine ⟨bytes_eq_encode name, ?_⟩
  cases depth <;> exact hscalar

theorem AuditEvent.text_toJson {e : AuditEvent} (h : e.Fits) :
    Text numbers.inRange maxDepth (e.toValue stamp) (e.toJson stamp) := by
  apply JsonText.text_object
  cases e with
  | fetch e =>
    have hpid : List.Forall₂ (FieldText numbers.inRange 126)
        (optionMember (integerMember "peer_pid") e.peerPid)
        (optionField (integerField "peer_pid") e.peerPid) := by
      rw [optionMember, optionField, List.forall₂_map_left_iff, List.forall₂_map_right_iff]
      refine List.forall₂_same.mpr fun pid hpid => ?_
      obtain ⟨hlow, hhigh⟩ := h pid (Option.mem_toList.mp hpid)
      exact fieldText_integer hlow hhigh
    refine .cons fieldText_text (List.rel_append (List.rel_append (List.rel_append (List.rel_append
      (List.rel_append ?_ hpid) ?_) ?_) ?_) ?_)
    · exact .cons fieldText_text (.cons fieldText_text (.cons fieldText_text (.cons fieldText_text
        (.cons fieldText_text .nil))))
    · exact fieldText_option _ fieldText_u32
    · exact .cons (fieldText_u32 _) .nil
    · exact fieldText_option _ fun _ => fieldText_text
    · exact fieldText_option _ fun _ => fieldText_text
  | manifestInvalid =>
    exact .cons fieldText_text (.cons fieldText_text (.cons fieldText_text (.cons fieldText_text
      (.cons fieldText_text .nil))))
  | socketRecovered =>
    exact .cons fieldText_text (.cons fieldText_text (.cons fieldText_text (.cons fieldText_text
      .nil)))
  | shutdown =>
    exact .cons fieldText_text (.cons fieldText_text (.cons fieldText_text (.cons (fieldText_u64 _)
      (.cons (fieldText_u64 _) .nil))))

/-! ### A value has all of its event -/

theorem integer_injective : Function.Injective Json.integer := by
  intro a b h
  have hsign : ∀ {m n : Nat}, 45 :: Json.number m ≠ Json.number n := by
    intro m n heq
    have hminus : (45 : UInt8) ∈ Json.number n := heq ▸ List.mem_cons_self
    exact absurd (JsonText.isDigit_of_mem_number hminus) (by decide)
  unfold Json.integer at h
  split at h <;> split at h
  · have habs := number_injective (List.cons.inj h).2
    omega
  · exact absurd h hsign
  · exact absurd h.symm hsign
  · have habs := number_injective h
    omega

theorem Decision.wire_injective : Function.Injective Decision.wire := by
  intro a b h
  cases a <;> cases b <;> first | rfl | exact absurd h (by decide)

theorem Outcome.wire_injective : Function.Injective Outcome.wire := by
  intro a b h
  cases a <;> cases b <;> first | rfl | exact absurd h (by decide)

/-- A field that may be missing, before others that do not start with one of its name. -/
theorem optionMember_append_inj {α : Type} {member : α → Member}
    (hmember : Function.Injective member) {a b : Option α} {x y : List Member}
    (hx : ∀ c, x.head? ≠ some (member c)) (hy : ∀ c, y.head? ≠ some (member c))
    (h : optionMember member a ++ x = optionMember member b ++ y) : a = b ∧ x = y := by
  cases a with
  | none =>
    cases b with
    | none => exact ⟨rfl, h⟩
    | some b => exact absurd (congrArg List.head? h) (hx b)
  | some a =>
    cases b with
    | none => exact absurd (congrArg List.head? h).symm (hy a)
    | some b =>
      obtain ⟨hab, hxy⟩ := List.cons.inj h
      exact ⟨congrArg some (hmember hab), hxy⟩

theorem FetchEvent.members_injective : Function.Injective (FetchEvent.members stamp) := by
  rintro ⟨t, project, name, decision, outcome, pid, uid, latency, backend, reason⟩
    ⟨t', project', name', decision', outcome', pid', uid', latency', backend', reason'⟩ h
  simp only [members, List.cons_append, List.nil_append, List.append_assoc, List.cons.injEq,
    textMember_inj, stamp.injective.eq_iff, Decision.wire_injective.eq_iff,
    Outcome.wire_injective.eq_iff] at h
  obtain ⟨rfl, rfl, rfl, rfl, rfl, h⟩ := h
  have hpid : Function.Injective (integerMember "peer_pid") := fun a b hab =>
    integer_injective (JsonValue.number.inj (Prod.mk.inj hab).2)
  have huid : Function.Injective fun u : UInt32 => numberMember "peer_uid" u.toNat :=
    fun a b hab => UInt32.toNat_inj.mp (numberMember_inj.mp hab)
  have htext : ∀ name, Function.Injective (textMember name) := fun name a b => textMember_inj.mp
  obtain ⟨rfl, hafterPid⟩ := optionMember_append_inj hpid
    (by cases uid <;> simp [optionMember, integerMember, numberMember])
    (by cases uid' <;> simp [optionMember, integerMember, numberMember]) h
  obtain ⟨rfl, hafterUid⟩ := optionMember_append_inj huid
    (by simp [numberMember]) (by simp [numberMember]) hafterPid
  obtain ⟨hlatency, hafterLatency⟩ := List.cons.inj hafterUid
  obtain ⟨rfl, hreason⟩ := optionMember_append_inj (htext "backend")
    (by cases reason <;> simp [optionMember, textMember])
    (by cases reason' <;> simp [optionMember, textMember]) hafterLatency
  cases UInt32.toNat_inj.mp (numberMember_inj.mp hlatency)
  cases (optionMember_inj (htext "reason")).mp hreason
  rfl

theorem AuditEvent.toValue_injective : Function.Injective (AuditEvent.toValue stamp) := by
  intro a b h
  have hmembers : a.members stamp = b.members stamp := JsonValue.object.inj h
  cases a <;> cases b <;>
    simp only [members, List.cons.injEq, textMember_inj, numberMember_inj, stamp.injective.eq_iff,
      UInt64.toNat_inj, and_true, true_and, String.reduceEq, false_and] at hmembers
  case fetch.fetch => exact congrArg _ (FetchEvent.members_injective hmembers)
  case manifestInvalid.manifestInvalid => simp [hmembers]
  case socketRecovered.socketRecovered => simp [hmembers]
  case shutdown.shutdown => simp [hmembers]

/-! ### The log file -/

/-- What the complete lines of the log are texts of: some of the received events, and of these
events only. -/
def Readable (stamp : Rfc3339) (numbers : NumberFormat) (received : List AuditEvent)
    (log : List UInt8) : Prop :=
  ∃ es, List.Subperm es received ∧ Lines.complete 10 log = es.map (·.toJson stamp) ∧
    ∀ es', (Lines.complete 10 log).mapM (JsonText.fromSlice numbers.inRange) =
      some (es'.map (·.toValue stamp)) ↔ es' = es

theorem mapM_fromSlice {es : List AuditEvent} (h : ∀ e ∈ es, e.Fits) :
    (es.map (·.toJson stamp)).mapM (JsonText.fromSlice numbers.inRange) =
      some (es.map (·.toValue stamp)) := by
  induction es with
  | nil => rfl
  | cons e es ih =>
    have he : JsonText.fromSlice numbers.inRange (e.toJson stamp) = some (e.toValue stamp) :=
      fromSlice_of_text (AuditEvent.text_toJson (h e List.mem_cons_self))
    simp [he, ih fun e' he' => h e' (List.mem_cons_of_mem _ he')]

/-- The lines of some events can be read as these events, and as no others. -/
theorem mapM_fromSlice_iff {es es' : List AuditEvent} (h : ∀ e ∈ es, e.Fits) :
    (es.map (·.toJson stamp)).mapM (JsonText.fromSlice numbers.inRange) =
      some (es'.map (·.toValue stamp)) ↔ es' = es := by
  rw [mapM_fromSlice h, Option.some.injEq]
  constructor
  · intro heq
    exact (List.map_injective_iff.mpr AuditEvent.toValue_injective heq).symm
  · rintro rfl
    rfl

theorem readable_of_jsonl {received : List AuditEvent} {log : List UInt8}
    (hfits : ∀ e ∈ received, e.Fits) (h : Jsonl (·.toJson stamp) received log) :
    Readable stamp numbers received log := by
  obtain ⟨es, hes, hlines⟩ := h
  refine ⟨es, hes, hlines, fun es' => ?_⟩
  rw [hlines]
  exact mapM_fromSlice_iff fun e he => hfits e (hes.subset he)

/-- The log can be read at any time as the events that were written, and as no others, exactly if
no write succeeds after one that failed part way. -/
theorem auditLog_readable_iff (stamp : Rfc3339) (numbers : NumberFormat) (xs : List Receipt)
    (hfits : ∀ x ∈ xs, x.1.Fits) :
    (∀ log ∈ logStates (·.toJson stamp) xs, Readable stamp numbers (xs.map Prod.fst) log) ↔
      NoWriteAfterTorn (·.toJson stamp) (writerCalls (·.toJson stamp) .start xs) := by
  have hreceived : ∀ e ∈ xs.map Prod.fst, e.Fits := by
    intro e he
    obtain ⟨x, hx, rfl⟩ := List.mem_map.mp he
    exact hfits x hx
  constructor
  · intro h
    refine noWriteAfterTorn_of_jsonl (xs.map Prod.fst) AuditEvent.toJson_inline
      (fun _ _ _ => AuditEvent.toJson_suffix) fun calls hcalls => ?_
    obtain ⟨es, hes, hlines, -⟩ := h _ (mem_logStates.mpr ⟨calls, hcalls, rfl⟩)
    exact ⟨es, hes, hlines⟩
  · intro h log hlog
    exact readable_of_jsonl hreceived
      (jsonl_of_noWriteAfterTorn AuditEvent.toJson_inline h log hlog)

/-- A line that is written, and one that is cut after eight bytes. -/
def cutLines : List Receipt := [(recovered 0, [.ok]), (recovered (-1), [.error 8])]

theorem auditLog_readable_iff_cut :
    NoWriteAfterTorn (·.toJson epochStamp)
      (writerCalls (·.toJson epochStamp) .start cutLines) ∧
    ∀ log ∈ logStates (·.toJson epochStamp) cutLines,
      Readable epochStamp everyNumber (cutLines.map Prod.fst) log :=
  have hcut : NoWriteAfterTorn (·.toJson epochStamp)
      (writerCalls (·.toJson epochStamp) .start cutLines) := by decide +kernel
  ⟨hcut, (auditLog_readable_iff _ everyNumber cutLines
    (by simp [cutLines, recovered, AuditEvent.Fits])).mpr hcut⟩

end RemoBroker
