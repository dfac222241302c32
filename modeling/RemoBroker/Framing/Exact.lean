import RemoBroker.Framing.Handler
import RemoBroker.Lib.Machine

/-! What the two sockets do with a stream of frames: the frames that fit are handled one by one and
answered in their order, however they arrive; a frame that does not fit ends the connection. -/

namespace RemoBroker

open Json (newline)

variable {σ τ Request Response : Type}

/-- A handler took exactly the frames of a stream, and wrote one line for each of them.  A frame
that does not parse is answered with a `protocol_error`, and leaves the other responses what they
are without it. -/
structure Exact (v : Service σ Request Response) (s : σ) (stream : List UInt8)
    (out : Handled σ Response) : Prop where
  handed : out.handed = Lines.frames newline stream
  lossless : out.handed.flatten = stream
  written : out.written = v.answers s out.handed
  count : out.written.length = out.handed.length
  lines : Lines.split newline (v.output out) = (out.written.map v.toJson, [])
  result : out.result = .ok ()
  malformed : ∀ before bad after e, out.handed = before ++ bad :: after → v.parse bad = .error e →
    ∃ response l r, v.isProtocolError response = true ∧ out.written = l ++ response :: r ∧
      l.length = before.length ∧ v.answers s (before ++ after) = l ++ r

namespace Service

variable {v : Service σ Request Response} {s : σ}

theorem answers_malformed {before after : List (List UInt8)} {bad : List UInt8} {e : String}
    (h : v.parse bad = .error e) :
    v.answers s (before ++ bad :: after) =
      v.answers s before ++ v.malformed e :: v.answers (v.state s before) after := by
  have hrespond : v.respond (v.state s before) bad = (v.state s before, v.malformed e) := by
    rw [respond, h]
  rw [answers_append, answers_cons, hrespond]

theorem exact_of_finished {stream : List UInt8} {out : Handled σ Response}
    (h : v.Sound s stream out) (hresult : out.result = .ok ()) : Exact v s stream out := by
  obtain ⟨hhanded, hwritten⟩ := h.finished hresult
  refine ⟨hhanded, ?_, hwritten, ?_, ?_, hresult, ?_⟩
  · rw [hhanded, Lines.flatten_frames]
  · rw [hwritten, length_answers]
  · exact Lines.split_lines fun r _ => v.toJson_inline r
  · intro before bad after e hframes hparse
    refine ⟨v.malformed e, _, _, v.malformed_isProtocolError e, ?_, length_answers, answers_append⟩
    rw [hwritten, hframes, answers_malformed hparse]

theorem handleConnection_exact {reads : List (List UInt8)} (hne : [] ∉ reads)
    (hlines : ∀ l ∈ Lines.complete newline reads.flatten, l.length + 1 ≤ maxMessageBytes)
    (hrest : (Lines.rest newline reads.flatten).length < maxMessageBytes) :
    Exact v s reads.flatten (v.handleConnection s (.delivering reads hne)) := by
  have hfits : ∀ f ∈ Lines.frames newline reads.flatten, Fits maxMessageBytes f := by
    intro f hf
    rcases List.mem_append.mp hf with hf | hf
    · obtain ⟨l, hl, rfl⟩ := List.mem_map.mp hf
      have hlength := hlines l hl
      rcases Nat.lt_or_eq_of_le hlength with hlt | heq
      · exact .inl (by simpa using hlt)
      · exact .inr ⟨by simpa using heq, List.getLast?_concat⟩
    · split at hf
      · cases hf
      · rw [List.mem_singleton.mp hf]
        exact .inl hrest
  have hsound : v.Sound s reads.flatten (v.handleConnection s (.delivering reads hne)) :=
    handleConnection_sound (.delivering reads hne)
  exact exact_of_finished hsound (handle_completes (fun _ => rfl) rfl hfits)

end Service

theorem connections_exact {parse : List UInt8 → Except String ProjectRequest}
    {dispatch : σ → ProjectRequest → σ × ProjectResponse}
    {adminParse : List UInt8 → Except String AdminRequest}
    {adminDispatch : τ → AdminRequest → τ × AdminResponse} (s : σ) (t : τ)
    {reads : List (List UInt8)} (hne : [] ∉ reads)
    (hlines : ∀ l ∈ Lines.complete newline reads.flatten, l.length + 1 ≤ maxMessageBytes)
    (hrest : (Lines.rest newline reads.flatten).length < maxMessageBytes) :
    Exact (projectService parse dispatch) s reads.flatten
      (handleProjectConnection parse dispatch s (.delivering reads hne)) ∧
    Exact (adminService adminParse adminDispatch) t reads.flatten
      (handleAdminConnection adminParse adminDispatch t (.delivering reads hne)) :=
  ⟨Service.handleConnection_exact hne hlines hrest, Service.handleConnection_exact hne hlines hrest⟩

def pingLine : List UInt8 := bytes "\x7b\"op\":\"ping\"\x7d"

/-- A parser that knows one request. -/
def pingParse {Request : Type} (request : Request) (line : List UInt8) : Except String Request :=
  if line = pingLine ++ [newline] then .ok request else .error "expected value"

/-- A dispatcher that counts the requests. -/
def counting {Request Response : Type} (response : Response) (n : Nat) (_ : Request) :
    Nat × Response :=
  (n + 1, response)

def pong : ProjectResponse := .ping "0.1.0" protocolVersion "web"

/-- An empty frame, a request that is cut in the middle, and a frame without its newline. -/
def cutReads : List (List UInt8) := [[newline] ++ pingLine.take 5, pingLine.drop 5, [newline, 120]]

theorem connections_exact_cut :
    Lines.frames newline cutReads.flatten = [[newline], pingLine ++ [newline], [120]] ∧
    Exact (projectService (pingParse .ping) (counting pong)) 0 cutReads.flatten
      (handleProjectConnection (pingParse .ping) (counting pong) 0
        (.delivering cutReads (by decide))) ∧
    Exact (adminService (pingParse .status) (counting .ok)) 0 cutReads.flatten
      (handleAdminConnection (pingParse .status) (counting .ok) 0
        (.delivering cutReads (by decide))) :=
  ⟨by decide, connections_exact 0 0 (by decide) (by decide) (by decide)⟩

/-- What should become of a frame that is too long: one `protocol_error` after the responses to
the frames before it, and nothing else is taken for a request. -/
structure OversizedAnswered (v : Service σ Request Response) (s : σ) (before : List (List UInt8))
    (out : Handled σ Response) : Prop where
  written : ∃ response, v.isProtocolError response = true ∧
    out.written = v.answers s before ++ [response]
  handed : out.handed = before

/-- What becomes of it: the handler returns an error and writes no response after those to the
frames before it, all of which it has written where the writes succeed. -/
structure OversizedDropped (v : Service σ Request Response) (s : σ) (c : Connection)
    (before : List (List UInt8)) (out : Handled σ Response) : Prop where
  unanswered : ¬OversizedAnswered v s before out
  handed : out.handed <+: before
  closed : ∃ e, out.result = .error e
  dropped : (∀ n, c.write n = .ok ()) → out.written = v.answers s before ∧
    out.handed = before ∧ out.result = .error (tooLarge maxMessageBytes)

theorem Service.handleConnection_dropped {v : Service σ Request Response} {s : σ} {c : Connection}
    {before after : List (List UInt8)} {f : List UInt8}
    (hframes : Lines.frames newline c.stream = before ++ f :: after)
    (hbefore : ∀ g ∈ before, g.length ≤ maxMessageBytes) (hf : maxMessageBytes < f.length) :
    OversizedDropped v s c before (v.handleConnection s c) := by
  have hsound : v.Sound s c.stream (v.handleConnection s c) := handleConnection_sound c
  have hlong : ¬Fits maxMessageBytes f := by
    rintro (hlt | ⟨heq, _⟩) <;> omega
  have hfits : ∀ g ∈ before, Fits maxMessageBytes g := by
    intro g hg
    rcases Nat.lt_or_eq_of_le (hbefore g hg) with hlt | heq
    · exact .inl hlt
    · exact .inr ⟨heq, Lines.getLast?_of_frames hframes hg⟩
  -- the frame that is too long is not handed over, so neither is any later one
  have hhanded : (v.handleConnection s c).handed <+: before := by
    rcases Machine.prefix_append_cases (hframes ▸ hsound.handed) with h | ⟨rest, hrest, hprefix⟩
    · exact h
    · cases rest with
      | nil => exact (hrest.trans (List.append_nil before)) ▸ List.prefix_rfl
      | cons x rest =>
        obtain ⟨rfl, _⟩ := List.cons_prefix_cons.mp hprefix
        exact absurd (hsound.fits x (hrest ▸ by simp)) hlong
  refine ⟨?_, hhanded, ?_, ?_⟩
  · rintro ⟨⟨response, _, hwritten⟩, _⟩
    have hcount :=
      hsound.written.length_le.trans (Service.length_answers.trans_le hhanded.length_le)
    rw [hwritten, List.length_append, Service.length_answers] at hcount
    exact absurd hcount (by simp)
  · cases hresult : (v.handleConnection s c).result with
    | error e => exact ⟨e, rfl⟩
    | ok u =>
      have hmem : f ∈ (v.handleConnection s c).handed := by
        rw [(hsound.finished hresult).1, hframes]
        simp
      exact absurd (hsound.fits f hmem) hlong
  · intro hwrite
    obtain ⟨hhanded, hwritten, hresult⟩ := Service.handle_interrupted (n := 0) (s := s) (v := v)
      (r := c.reader) hwrite hframes hfits hlong
    exact ⟨hwritten, hhanded, hresult⟩

theorem oversized_dropped {parse : List UInt8 → Except String ProjectRequest}
    {dispatch : σ → ProjectRequest → σ × ProjectResponse}
    {adminParse : List UInt8 → Except String AdminRequest}
    {adminDispatch : τ → AdminRequest → τ × AdminResponse} (s : σ) (t : τ) {c : Connection}
    {before after : List (List UInt8)} {f : List UInt8}
    (hframes : Lines.frames newline c.stream = before ++ f :: after)
    (hbefore : ∀ g ∈ before, g.length ≤ maxMessageBytes) (hf : maxMessageBytes < f.length) :
    OversizedDropped (projectService parse dispatch) s c before
      (handleProjectConnection parse dispatch s c) ∧
    OversizedDropped (adminService adminParse adminDispatch) t c before
      (handleAdminConnection adminParse adminDispatch t c) :=
  ⟨Service.handleConnection_dropped hframes hbefore hf,
    Service.handleConnection_dropped hframes hbefore hf⟩

/-- A request, a frame of one byte too many, and another request. -/
def longReads : List (List UInt8) :=
  [pingLine ++ [newline], List.replicate maxMessageBytes 97, [newline], pingLine ++ [newline]]

def longFrame : List UInt8 := List.replicate maxMessageBytes 97 ++ [newline]

theorem longReads_nonempty : [] ∉ longReads := by
  have hpos : maxMessageBytes ≠ 0 := by decide
  simp [longReads, hpos]

theorem frames_longReads : Lines.frames newline longReads.flatten =
    [pingLine ++ [newline]] ++ longFrame :: [pingLine ++ [newline]] := by
  have hping : newline ∉ pingLine := by decide
  have hlong : newline ∉ List.replicate maxMessageBytes 97 := by
    simp [newline]
  have hstream : longReads.flatten = pingLine ++ newline ::
      (List.replicate maxMessageBytes 97 ++ newline :: (pingLine ++ newline :: [])) := by
    simp [longReads]
  rw [hstream, Lines.frames_line hping, Lines.frames_line hlong, Lines.frames_line hping]
  rfl

def longConnection : Connection := .delivering longReads longReads_nonempty

theorem oversized_dropped_long :
    OversizedDropped (projectService (pingParse .ping) (counting pong)) 0 longConnection
      [pingLine ++ [newline]]
      (handleProjectConnection (pingParse .ping) (counting pong) 0 longConnection) ∧
    OversizedDropped (adminService (pingParse .status) (counting .ok)) 0 longConnection
      [pingLine ++ [newline]]
      (handleAdminConnection (pingParse .status) (counting .ok) 0 longConnection) :=
  oversized_dropped 0 0 frames_longReads (by decide) (by simp [longFrame])

/-- The request before the long frame is answered, the long frame and what follows it are not. -/
theorem oversized_unanswered :
    Lines.frames newline longConnection.stream =
      [pingLine ++ [newline]] ++ longFrame :: [pingLine ++ [newline]] ∧
    (pingLine ++ [newline]).length ≤ maxMessageBytes ∧ longFrame.length = maxMessageBytes + 1 ∧
    (handleProjectConnection (pingParse .ping) (counting pong) 0 longConnection).written = [pong] ∧
    ¬OversizedAnswered (projectService (pingParse .ping) (counting pong)) 0
      [pingLine ++ [newline]]
      (handleProjectConnection (pingParse .ping) (counting pong) 0 longConnection) ∧
    (handleAdminConnection (pingParse .status) (counting .ok) 0 longConnection).written = [.ok] ∧
    ¬OversizedAnswered (adminService (pingParse .status) (counting .ok)) 0
      [pingLine ++ [newline]]
      (handleAdminConnection (pingParse .status) (counting .ok) 0 longConnection) := by
  have hbefore : ∀ g ∈ [pingLine ++ [newline]], g.length ≤ maxMessageBytes := by decide
  have hlong : maxMessageBytes < longFrame.length := by simp [longFrame]
  have hproject := Service.handleConnection_dropped
    (v := projectService (pingParse .ping) (counting pong)) (s := 0) (c := longConnection)
    frames_longReads hbefore hlong
  have hadmin := Service.handleConnection_dropped
    (v := adminService (pingParse .status) (counting .ok)) (s := 0) (c := longConnection)
    frames_longReads hbefore hlong
  refine ⟨frames_longReads, by decide, by simp [longFrame], ?_, hproject.unanswered, ?_,
    hadmin.unanswered⟩
  · exact (hproject.dropped fun _ => rfl).1.trans (by decide)
  · exact (hadmin.dropped fun _ => rfl).1.trans (by decide)

end RemoBroker
