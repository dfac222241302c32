import RemoBroker.Framing.Exact
import RemoBroker.Wire.Request
import RemoBroker.Wire.Response

/-! A whole connection as its client sees it: lines of JSON go in, however they are cut into reads,
and lines of JSON come out, one for each, with the value of the dispatcher's response. -/

namespace RemoBroker

open Json (newline)
open JsonText (NumberFormat)

/-- A line states this request, or it states none and the parser has this error for it. -/
def Means {Request : Type} (serde : Serde.TextEnum Request) (numbers : NumberFormat)
    (parse : List UInt8 → Except String Request) (line : List UInt8) : Except String Request → Prop
  | .ok request => Says serde numbers line request
  | .error e => (∀ request, ¬Says serde numbers line request) ∧ parse line = .error e

section
variable {σ Request Response : Type} {serde : Serde.TextEnum Request} {numbers : NumberFormat}
  {parse : List UInt8 → Except String Request} {line : List UInt8}

theorem Parses.eq_iff (h : Parses serde numbers parse) {message : Except String Request} :
    parse line = message ↔ Means serde numbers parse line message := by
  cases message with
  | ok request => exact h line request
  | error e =>
    refine ⟨fun herror => ⟨fun request hsays => ?_, herror⟩, And.right⟩
    rw [← h, herror] at hsays
    cases hsays

namespace Service

variable (v : Service σ Request Response)

/-- The response to a message, and the state after it. -/
def reply (s : σ) : Except String Request → σ × Response
  | .ok request => v.dispatch s request
  | .error e => (s, v.malformed e)

/-- The responses to some messages, and the state after them. -/
def replies (s : σ) : List (Except String Request) → σ × List Response
  | [] => (s, [])
  | m :: ms => ((replies (v.reply s m).1 ms).1, (v.reply s m).2 :: (replies (v.reply s m).1 ms).2)

variable {v} {s : σ} {write : Nat → Except IoError Unit} {n : Nat} {r : BufReader}

theorem handle_state : (v.handle write s n r).state = v.state s (v.handle write s n r).handed := by
  fun_induction handle v write s n r with
  | case1 s n r e hread => rfl
  | case2 s n r r' hread => rfl
  | case3 s n r line r' hread hline e hwrite => rfl
  | case4 s n r line r' hread hline hwrite ih => exact ih

theorem replies_of_means {lines : List (List UInt8)} {messages : List (Except String Request)}
    (hparse : Parses serde numbers v.parse)
    (h : List.Forall₂ (Means serde numbers v.parse) lines messages) :
    v.replies s messages = (v.state s lines, v.answers s lines) := by
  induction h generalizing s with
  | nil => rfl
  | @cons line message lines messages hmeans _ ih =>
    have hreply : v.reply s message = v.respond s line := by
      rw [respond, hparse.eq_iff.mpr hmeans]
      cases message <;> rfl
    rw [replies, hreply, ih]
    rfl

end Service

/-- What a client has of a connection: one line for each of its messages, which is a text of the
response that the message gets after the ones before it, and the daemon in the state after all of
them. -/
structure Conversed (v : Service σ Request Response) (toValue : Response → JsonValue)
    (numbers : NumberFormat) (s : σ) (messages : List (Except String Request))
    (out : Handled σ Response) : Prop where
  result : out.result = .ok ()
  state : out.state = (v.replies s messages).1
  lines : ∃ texts, Lines.split newline (v.output out) = (texts, []) ∧
    List.Forall₂ (fun text response => JsonText.fromSlice numbers.inRange text =
      some (toValue response)) texts (v.replies s messages).2

/-- The handler takes the messages of some lines one after the other. -/
theorem Service.handled_of_means {v : Service σ Request Response} {s : σ}
    (hparse : Parses serde numbers v.parse) {reads lines : List (List UInt8)}
    (hne : [] ∉ reads) (hstream : reads.flatten = lines.flatMap fun l => l ++ [newline])
    (hlines : ∀ l ∈ lines, newline ∉ l ∧ l.length + 1 ≤ maxMessageBytes)
    {messages : List (Except String Request)}
    (hmeans : List.Forall₂ (Means serde numbers v.parse) (lines.map (· ++ [newline])) messages) :
    Exact v s reads.flatten (v.handleConnection s (.delivering reads hne)) ∧
      (v.handleConnection s (.delivering reads hne)).state = (v.replies s messages).1 ∧
      (v.handleConnection s (.delivering reads hne)).written = (v.replies s messages).2 := by
  have hsplit : Lines.split newline reads.flatten = (lines, []) := by
    have hids : Lines.split newline (lines.flatMap fun l => id l ++ [newline]) =
        (lines.map id, []) :=
      Lines.split_lines fun l hl => (hlines l hl).1
    rw [hstream]
    simpa using hids
  have hcomplete : Lines.complete newline reads.flatten = lines := congrArg Prod.fst hsplit
  have hrest : Lines.rest newline reads.flatten = [] := congrArg Prod.snd hsplit
  have hframes : Lines.frames newline reads.flatten = lines.map (· ++ [newline]) := by
    rw [Lines.frames, hcomplete, hrest, if_pos rfl, List.append_nil]
  have hexact := Service.handleConnection_exact (v := v) (s := s) hne
    (by rw [hcomplete]; exact fun l hl => (hlines l hl).2) (by rw [hrest]; decide)
  have hreplies := Service.replies_of_means (s := s) hparse hmeans
  refine ⟨hexact, ?_, ?_⟩
  · rw [hreplies, ← hframes, ← hexact.handed]
    exact Service.handle_state
  · rw [hexact.written, hexact.handed, hframes, hreplies]

theorem Service.conversed {v : Service σ Request Response} {toValue : Response → JsonValue} {s : σ}
    (hparse : Parses serde numbers v.parse) {reads lines : List (List UInt8)}
    (hne : [] ∉ reads) (hstream : reads.flatten = lines.flatMap fun l => l ++ [newline])
    (hlines : ∀ l ∈ lines, newline ∉ l ∧ l.length + 1 ≤ maxMessageBytes)
    {messages : List (Except String Request)}
    (hmeans : List.Forall₂ (Means serde numbers v.parse) (lines.map (· ++ [newline])) messages)
    (htext : ∀ response ∈ (v.replies s messages).2,
      JsonText.Text numbers.inRange JsonText.maxDepth (toValue response) (v.toJson response)) :
    Conversed v toValue numbers s messages (v.handleConnection s (.delivering reads hne)) := by
  obtain ⟨hexact, hstate, hwritten⟩ := Service.handled_of_means hparse hne hstream hlines hmeans
  refine ⟨hexact.result, hstate, _, hexact.lines, ?_⟩
  rw [hwritten, List.forall₂_map_left_iff]
  refine List.forall₂_same.mpr fun response hresponse => ?_
  exact fromSlice_of_text (htext response hresponse)

end

/-- A handler has refused the foreign lines among those that it took: each is answered with a
`protocol_error`, and the state and the other responses are those of the other lines alone. -/
structure Apart {σ Request Response : Type} (v : Service σ Request Response)
    (foreign : List UInt8 → Bool) (s : σ) (out : Handled σ Response) : Prop where
  refused : ∀ x ∈ out.handed.zip out.written, foreign x.1 = true → v.isProtocolError x.2 = true
  state : out.state = v.state s (out.handed.filter (!foreign ·))
  written : ((out.handed.zip out.written).filter (!foreign ·.1)).map Prod.snd <+:
    v.answers s (out.handed.filter (!foreign ·))

namespace Service

variable {σ Request Response : Type} {v : Service σ Request Response} {foreign : List UInt8 → Bool}
  {s : σ} {frame : List UInt8} {frames : List (List UInt8)} {written : List Response}

theorem respond_foreign (hforeign : ∀ l, foreign l = true → ∃ e, v.parse l = .error e)
    (h : foreign frame = true) :
    (v.respond s frame).1 = s ∧ v.isProtocolError (v.respond s frame).2 = true := by
  obtain ⟨e, he⟩ := hforeign frame h
  rw [respond, he]
  exact ⟨rfl, v.malformed_isProtocolError e⟩

theorem state_foreign (hforeign : ∀ l, foreign l = true → ∃ e, v.parse l = .error e) :
    v.state s frames = v.state s (frames.filter (!foreign ·)) := by
  induction frames generalizing s with
  | nil => rfl
  | cons frame frames ih =>
    have hcons : v.state s (frame :: frames) = v.state (v.respond s frame).1 frames := rfl
    rw [hcons, ih]
    by_cases h : foreign frame = true
    · rw [(respond_foreign hforeign h).1, List.filter_cons_of_neg (by simpa using h)]
    · rw [List.filter_cons_of_pos (by simpa using h)]
      rfl

/-- The responses that are written are those of `answers`, as far as they go. -/
theorem answers_foreign (hforeign : ∀ l, foreign l = true → ∃ e, v.parse l = .error e)
    (hwritten : written <+: v.answers s frames) :
    (∀ x ∈ frames.zip written, foreign x.1 = true → v.isProtocolError x.2 = true) ∧
      ((frames.zip written).filter (!foreign ·.1)).map Prod.snd <+:
        v.answers s (frames.filter (!foreign ·)) := by
  induction frames generalizing s written with
  | nil => simp
  | cons frame frames ih =>
    cases written with
    | nil => simp
    | cons response written =>
      obtain ⟨rfl, hrest⟩ := List.cons_prefix_cons.mp hwritten
      obtain ⟨hrefused, hothers⟩ := ih hrest
      rw [List.zip_cons_cons]
      by_cases h : foreign frame = true
      · obtain ⟨hstate, herror⟩ := respond_foreign (s := s) hforeign h
        rw [hstate] at hothers
        refine ⟨List.forall_mem_cons.mpr ⟨fun _ => herror, hrefused⟩, ?_⟩
        rw [List.filter_cons_of_neg (by simpa using h), List.filter_cons_of_neg (by simpa using h)]
        exact hothers
      · refine ⟨List.forall_mem_cons.mpr ⟨fun hforeign => absurd hforeign h, hrefused⟩, ?_⟩
        rw [List.filter_cons_of_pos (by simpa using h), List.filter_cons_of_pos (by simpa using h)]
        exact List.cons_prefix_cons.mpr ⟨rfl, hothers⟩

theorem apart (hforeign : ∀ l, foreign l = true → ∃ e, v.parse l = .error e) (c : Connection) :
    Apart v foreign s (v.handleConnection s c) := by
  obtain ⟨hrefused, hothers⟩ := answers_foreign hforeign (handleConnection_sound (s := s) c).written
  exact ⟨hrefused, handle_state.trans (state_foreign hforeign), hothers⟩

end Service

section
variable {σ τ : Type} {numbers : NumberFormat} {parse : List UInt8 → Except String ProjectRequest}
  {adminParse : List UInt8 → Except String AdminRequest}
  {dispatch : σ → ProjectRequest → σ × ProjectResponse}
  {adminDispatch : τ → AdminRequest → τ × AdminResponse}

theorem connections_conversed (hparse : Parses ProjectRequest.serde numbers parse)
    (hadminParse : Parses AdminRequest.serde numbers adminParse) (s : σ) (t : τ)
    (lines : List (List UInt8)) {reads : List (List UInt8)} (hne : [] ∉ reads)
    (hstream : reads.flatten = lines.flatMap fun l => l ++ [newline])
    (hlines : ∀ l ∈ lines, newline ∉ l ∧ l.length + 1 ≤ maxMessageBytes)
    {messages : List (Except String ProjectRequest)}
    {adminMessages : List (Except String AdminRequest)}
    (hmeans : List.Forall₂ (Means ProjectRequest.serde numbers parse)
      (lines.map (· ++ [newline])) messages)
    (hadmin : List.Forall₂ (Means AdminRequest.serde numbers adminParse)
      (lines.map (· ++ [newline])) adminMessages) :
    Conversed (projectService parse dispatch) ProjectResponse.toValue numbers s messages
      (handleProjectConnection parse dispatch s (.delivering reads hne)) ∧
    Conversed (adminService adminParse adminDispatch) AdminResponse.toValue numbers t adminMessages
      (handleAdminConnection adminParse adminDispatch t (.delivering reads hne)) :=
  ⟨Service.conversed hparse hne hstream hlines hmeans fun response _ => response.text_toJson,
    Service.conversed hadminParse hne hstream hlines hadmin fun response _ => response.text_toJson⟩

end

/-- A request with an escape, white space and a member that is ignored, and a request as an
array. -/
def clientLines : List (List UInt8) :=
  [bytes "\x7b \"op\" : \"get\", \"v\":[1.5e3, null],\"name\":\"A\\u0042\"\x7d",
    bytes "[\"status\"]"]

/-- What the parser of the project socket says of the second line. -/
def unknownStatus : String :=
  "unknown variant `status`, expected one of `get`, `ping`, `info` at line 1 column 9"

/-- What the parser of the admin socket says of the first line. -/
def unknownGet : String :=
  "unknown variant `get`, expected one of `register`, `unregister`, `reload`, `status`, " ++
    "`rotate-bootstrap` at line 1 column 14"

abbrev clientParse : List UInt8 → Except String ProjectRequest :=
  parseLine ProjectRequest.serde everyNumber fun _ => unknownStatus

abbrev clientAdminParse : List UInt8 → Except String AdminRequest :=
  parseLine AdminRequest.serde everyNumber fun _ => unknownGet

theorem clientLines_project : List.Forall₂ (Means ProjectRequest.serde everyNumber clientParse)
    (clientLines.map (· ++ [newline])) [.ok (.get "AB"), .error unknownStatus] :=
  .cons (parses_parseLine.eq_iff.mp (by decide +kernel))
    (.cons (parses_parseLine.eq_iff.mp (by decide +kernel)) .nil)

theorem clientLines_admin : List.Forall₂ (Means AdminRequest.serde everyNumber clientAdminParse)
    (clientLines.map (· ++ [newline])) [.error unknownGet, .ok .status] :=
  .cons (parses_parseLine.eq_iff.mp (by decide +kernel))
    (.cons (parses_parseLine.eq_iff.mp (by decide +kernel)) .nil)

theorem connections_conversed_client :
    Conversed (projectService clientParse (counting pong)) ProjectResponse.toValue everyNumber 0
      [.ok (.get "AB"), .error unknownStatus]
      (handleProjectConnection clientParse (counting pong) 0
        (.delivering (clientLines.map (· ++ [newline])) (by decide))) ∧
    Conversed (adminService clientAdminParse (counting .ok)) AdminResponse.toValue everyNumber 0
      [.error unknownGet, .ok .status]
      (handleAdminConnection clientAdminParse (counting .ok) 0
        (.delivering (clientLines.map (· ++ [newline])) (by decide))) :=
  connections_conversed parses_parseLine parses_parseLine 0 0 clientLines (by decide) (by decide)
    (by decide) clientLines_project clientLines_admin

end RemoBroker
