import RemoBroker.Daemon.Conn
import RemoBroker.Framing.Reader
import RemoBroker.Wire

/-! The loop of `handle_admin_connection` and `handle_project_connection`: read a line, parse and
dispatch it, write one response.  What the dispatcher does to the rest of the daemon, and what the
rest of the daemon does meanwhile, is its state. -/

namespace RemoBroker

open Json (newline)

/-- One of the two sockets: how it parses a line, what it does with a request, what it answers to
a line that does not parse, and the text of its responses, each of which is one line. -/
structure Service (σ Request Response : Type) where
  parse : List UInt8 → Except String Request
  dispatch : σ → Request → σ × Response
  malformed : String → Response
  isProtocolError : Response → Bool
  toJson : Response → List UInt8
  malformed_isProtocolError : ∀ e, isProtocolError (malformed e) = true
  toJson_inline : ∀ r, newline ∉ toJson r

/-- A connection as a handler meets it: what its reads return and how they end, and how the write
of each response ends. -/
structure Connection where
  reads : List (List UInt8)
  ending : Except IoError Unit
  write : Nat → Except IoError Unit
  nonempty : [] ∉ reads

namespace Connection

def stream (c : Connection) : List UInt8 := c.reads.flatten

/-- The reads come to the end of the stream and every response can be written. -/
def delivering (reads : List (List UInt8)) (nonempty : [] ∉ reads) : Connection :=
  ⟨reads, .ok (), fun _ => .ok (), nonempty⟩

def reader (c : Connection) : BufReader := ⟨[], c.reads, c.ending, c.nonempty⟩

end Connection

/-- What a handler leaves behind: the lines that it handed to the parser, the responses that it
wrote, and what it returned. -/
structure Handled (σ Response : Type) where
  state : σ
  handed : List (List UInt8)
  written : List Response
  result : Except IoError Unit

/-- The handler went through one more line before. -/
def Handled.after {σ Response : Type} (out : Handled σ Response) (line : List UInt8)
    (response : Response) : Handled σ Response :=
  { out with handed := line :: out.handed, written := response :: out.written }

namespace Service

variable {σ Request Response : Type} (v : Service σ Request Response)

/-- The response to a line, and the state after it. -/
def respond (s : σ) (line : List UInt8) : σ × Response :=
  match v.parse line with
  | .ok request => v.dispatch s request
  | .error e => (s, v.malformed e)

/-- The loop, from the `n`-th line on. -/
def handle (write : Nat → Except IoError Unit) (s : σ) (n : Nat) (r : BufReader) :
    Handled σ Response :=
  match _hread : readLineCapped r maxMessageBytes with
  | .error e => ⟨s, [], [], .error e⟩
  | .ok (line, r') =>
    if _hline : line = [] then ⟨s, [], [], .ok ()⟩
    else
      match write n with
      | .error e => ⟨(v.respond s line).1, [line], [], .error e⟩
      | .ok () => (handle write (v.respond s line).1 (n + 1) r').after line (v.respond s line).2
termination_by r.stream.length
decreasing_by exact readLineCapped_shorter _hread _hline

def handleConnection (s : σ) (c : Connection) : Handled σ Response := v.handle c.write s 0 c.reader

/-- The bytes that reach the socket. -/
def output (out : Handled σ Response) : List UInt8 :=
  out.written.flatMap fun r => v.toJson r ++ [newline]

/-- The state after some frames. -/
def state (s : σ) (frames : List (List UInt8)) : σ := frames.foldl (fun s f => (v.respond s f).1) s

/-- The responses to some frames, one each. -/
def answers (s : σ) : List (List UInt8) → List Response
  | [] => []
  | f :: fs => (v.respond s f).2 :: answers (v.respond s f).1 fs

variable {v} {write : Nat → Except IoError Unit} {s : σ} {n : Nat} {r : BufReader}
  {before after : List (List UInt8)} {f : List UInt8}

@[simp] theorem answers_cons : v.answers s (f :: before) =
    (v.respond s f).2 :: v.answers (v.respond s f).1 before := rfl

theorem answers_append :
    v.answers s (before ++ after) = v.answers s before ++ v.answers (v.state s before) after := by
  induction before generalizing s with
  | nil => rfl
  | cons f before ih => rw [List.cons_append, answers_cons, answers_cons, ih]; rfl

@[simp] theorem length_answers : (v.answers s before).length = before.length := by
  induction before generalizing s with
  | nil => rfl
  | cons f before ih => rw [answers_cons, List.length_cons, ih, List.length_cons]

/-- What holds of a handler on any connection: it hands over frames of the stream, from the first
on and none that is too long, it writes at most one response to each, and it returns without an
error only when it has done so for all of them. -/
structure Sound (v : Service σ Request Response) (s : σ) (stream : List UInt8)
    (out : Handled σ Response) : Prop where
  handed : out.handed <+: Lines.frames newline stream
  fits : ∀ f ∈ out.handed, Fits maxMessageBytes f
  written : out.written <+: v.answers s out.handed
  finished : out.result = .ok () →
    out.handed = Lines.frames newline stream ∧ out.written = v.answers s out.handed

theorem handle_sound : v.Sound s r.stream (v.handle write s n r) := by
  fun_induction handle v write s n r with
  | case1 s n r e hread =>
    exact ⟨List.nil_prefix, by simp, List.nil_prefix, nofun⟩
  | case2 s n r r' hread =>
    have hstream : r.stream = [] := frames_of_line hread
    exact ⟨List.nil_prefix, by simp, List.nil_prefix, fun _ => ⟨by simp [hstream], rfl⟩⟩
  | case3 s n r line r' hread hline e hwrite =>
    have hframes := frames_of_line hread
    rw [if_neg hline] at hframes
    refine ⟨?_, ?_, List.nil_prefix, nofun⟩
    · exact hframes ▸ List.prefix_append [line] _
    · simpa using (readLineCapped_ok hread).2.1
  | case4 s n r line r' hread hline hwrite ih =>
    have hframes := frames_of_line hread
    rw [if_neg hline] at hframes
    refine ⟨?_, ?_, ?_, ?_⟩
    · rw [hframes]
      exact (List.prefix_cons_inj line).mpr ih.handed
    · intro f hf
      rcases List.mem_cons.mp hf with rfl | hf
      · exact (readLineCapped_ok hread).2.1
      · exact ih.fits f hf
    · exact (List.prefix_cons_inj _).mpr ih.written
    · intro hresult
      obtain ⟨hhanded, hwritten⟩ := ih.finished hresult
      refine ⟨?_, ?_⟩
      · rw [hframes]
        exact congrArg (line :: ·) hhanded
      · exact congrArg ((v.respond s line).2 :: ·) hwritten

theorem handleConnection_sound (c : Connection) :
    v.Sound s c.stream (v.handleConnection s c) :=
  show v.Sound s c.reader.stream (v.handle c.write s 0 c.reader) from handle_sound

/-- On a connection that delivers, frames that fit are all handed over. -/
theorem handle_completes (hwrite : ∀ n, write n = .ok ()) (hending : r.ending = .ok ())
    (hfits : ∀ f ∈ Lines.frames newline r.stream, Fits maxMessageBytes f) :
    (v.handle write s n r).result = .ok () := by
  fun_induction handle v write s n r with
  | case1 s n r e hread =>
    have hcases : LineRead maxMessageBytes r (readLineCapped r maxMessageBytes) :=
      readLineCapped_cases
    rw [hread] at hcases
    cases hcases with
    | failed _ _ ending =>
      rw [ending] at hending
      cases hending
    | oversized long =>
      by_cases hstream : r.stream = []
      · exact absurd (.inl (by simp [hstream, Lines.first, maxMessageBytes])) long
      · rw [Lines.frames_eq_cons hstream] at hfits
        exact absurd (hfits _ List.mem_cons_self) long
  | case2 s n r r' hread => rfl
  | case3 s n r line r' hread hline e hfail =>
    rw [hwrite] at hfail
    cases hfail
  | case4 s n r line r' hread hline _ ih =>
    have hframes := frames_of_line hread
    rw [if_neg hline] at hframes
    apply ih ((readLineCapped_ok hread).2.2.2.trans hending)
    intro f hf
    exact hfits f (hframes ▸ List.mem_cons_of_mem _ hf)

/-- Where the writes succeed, a frame that does not fit ends the handler, which has answered the
frames before it. -/
theorem handle_interrupted (hwrite : ∀ n, write n = .ok ())
    (hframes : Lines.frames newline r.stream = before ++ f :: after)
    (hbefore : ∀ g ∈ before, Fits maxMessageBytes g) (hf : ¬Fits maxMessageBytes f) :
    (v.handle write s n r).handed = before ∧
      (v.handle write s n r).written = v.answers s before ∧
      (v.handle write s n r).result = .error (tooLarge maxMessageBytes) := by
  fun_induction handle v write s n r generalizing before with
  | case1 s n r e hread =>
    obtain ⟨rfl, rfl⟩ := oversized_of_error hread hframes hbefore hf
    exact ⟨rfl, rfl, rfl⟩
  | case2 s n r r' hread =>
    have hstream : r.stream = [] := frames_of_line hread
    simp [hstream] at hframes
  | case3 s n r line r' hread hline e hfail =>
    rw [hwrite] at hfail
    cases hfail
  | case4 s n r line r' hread hline _ ih =>
    have hline' := frames_of_line hread
    rw [if_neg hline, hframes] at hline'
    cases before with
    | nil =>
      obtain ⟨rfl, _⟩ := List.cons.inj hline'
      exact absurd (readLineCapped_ok hread).2.1 hf
    | cons g before =>
      obtain ⟨rfl, hrest⟩ := List.cons.inj hline'
      obtain ⟨hhanded, hwritten, hresult⟩ :=
        ih hrest.symm fun g' hg' => hbefore g' (List.mem_cons_of_mem _ hg')
      exact ⟨congrArg (g :: ·) hhanded, congrArg ((v.respond s g).2 :: ·) hwritten, hresult⟩

end Service

/-- The data-plane socket.  Its dispatcher is `dispatch_project`. -/
def projectService {σ : Type} (parse : List UInt8 → Except String ProjectRequest)
    (dispatch : σ → ProjectRequest → σ × ProjectResponse) :
    Service σ ProjectRequest ProjectResponse where
  parse
  dispatch
  malformed := protocolErrorResponse
  isProtocolError r := r.code = some .protocolError
  toJson := ProjectResponse.toJson
  malformed_isProtocolError _ := rfl
  toJson_inline _ := ProjectResponse.toJson_inline

def AdminResponse.code : AdminResponse → Option AdminErrorCode
  | .error e => some e.code
  | .registered _ | .ok | .reloaded _ | .status _ | .rotated => none

def adminProtocolErrorResponse (e : String) : AdminResponse :=
  .error (ErrorResponse.new .protocolError ("malformed request: " ++ e))

/-- The control-plane socket.  Its dispatcher is `dispatch_admin`. -/
def adminService {σ : Type} (parse : List UInt8 → Except String AdminRequest)
    (dispatch : σ → AdminRequest → σ × AdminResponse) :
    Service σ AdminRequest AdminResponse where
  parse
  dispatch
  malformed := adminProtocolErrorResponse
  isProtocolError r := r.code = some .protocolError
  toJson := AdminResponse.toJson
  malformed_isProtocolError _ := rfl
  toJson_inline _ := AdminResponse.toJson_inline

def handleProjectConnection {σ : Type} (parse : List UInt8 → Except String ProjectRequest)
    (dispatch : σ → ProjectRequest → σ × ProjectResponse) (s : σ) (c : Connection) :
    Handled σ ProjectResponse :=
  (projectService parse dispatch).handleConnection s c

def handleAdminConnection {σ : Type} (parse : List UInt8 → Except String AdminRequest)
    (dispatch : σ → AdminRequest → σ × AdminResponse) (s : σ) (c : Connection) :
    Handled σ AdminResponse :=
  (adminService parse dispatch).handleConnection s c

end RemoBroker
