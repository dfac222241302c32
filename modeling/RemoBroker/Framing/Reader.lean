import RemoBroker.Lib.Json
import RemoBroker.Lib.Lines
import RemoBroker.Proto

/-! The reading side of a connection: what tokio's `BufReader`, `take` and `read_until` do with the
reads of a socket, and `read_line_capped` over them.  What a line is depends on the bytes that come
and not on how the reads cut them. -/

namespace RemoBroker

open Json (newline)

inductive IoError where
  | transport (message : String)
  | invalidData (message : String)
deriving DecidableEq

/-- A `BufReader`: the bytes that were read ahead, what the next reads of the socket return, each
at least one byte, and how the reads end, with the end of the stream or with an error. -/
structure BufReader where
  buffer : List UInt8
  reads : List (List UInt8)
  ending : Except IoError Unit
  nonempty : [] ∉ reads

namespace BufReader

/-- The bytes that are still to come. -/
def stream (r : BufReader) : List UInt8 := r.buffer ++ r.reads.flatten

/-- `fill_buf`: read once where the buffer is empty.  It stays empty at the end of the stream. -/
def fillBuf (r : BufReader) : Except IoError BufReader :=
  match r with
  | ⟨[], [], ending, h⟩ => ending.map fun _ => ⟨[], [], ending, h⟩
  | ⟨[], read :: reads, ending, h⟩ =>
    .ok ⟨read, reads, ending, fun hmem => h (List.mem_cons_of_mem _ hmem)⟩
  | r => .ok r

def consume (r : BufReader) (n : Nat) : BufReader := { r with buffer := r.buffer.drop n }

/-- `read_until` on a reader that `take` limits.  At the limit the inner reader is not asked. -/
def readUntil (delimiter : UInt8) (limit : Nat) (r : BufReader) (buf : List UInt8) :
    Except IoError (List UInt8 × BufReader) :=
  if limit = 0 then .ok (buf, r)
  else match r.fillBuf with
    | .error e => .error e
    | .ok r =>
      let available := r.buffer.take limit
      if delimiter ∈ available then
        let used := Lines.first delimiter available
        .ok (buf ++ used, r.consume used.length)
      else if available = [] then .ok (buf, r)
      else readUntil delimiter (limit - available.length) (r.consume available.length)
        (buf ++ available)
termination_by limit
decreasing_by
  rename_i hne
  have hpos : 0 < (List.take limit r.buffer).length := List.length_pos_iff.mpr hne
  omega

end BufReader

def tooLarge (maxBytes : Nat) : IoError :=
  .invalidData ("admin request exceeds max message size of " ++ toString maxBytes ++ " bytes")

def readLineCapped (r : BufReader) (maxBytes : Nat) : Except IoError (List UInt8 × BufReader) :=
  match r.readUntil newline maxBytes [] with
  | .error e => .error e
  | .ok (line, r) =>
    if line.length = maxBytes ∧ line.getLast? ≠ some newline then .error (tooLarge maxBytes)
    else .ok (line, r)

namespace BufReader

variable {r r' : BufReader} {limit n : Nat} {delimiter : UInt8} {e : IoError}

theorem fillBuf_ok (h : r.fillBuf = .ok r') :
    r'.stream = r.stream ∧ r'.ending = r.ending ∧
      (r'.buffer = [] → r.stream = [] ∧ r.ending = .ok ()) := by
  obtain ⟨buffer, reads, ending, hne⟩ := r
  cases buffer with
  | cons b bs =>
    cases h
    exact ⟨rfl, rfl, nofun⟩
  | nil =>
    cases reads with
    | nil =>
      cases ending with
      | error e => cases h
      | ok u =>
        cases h
        exact ⟨rfl, rfl, fun _ => ⟨rfl, rfl⟩⟩
    | cons read reads =>
      cases h
      refine ⟨rfl, rfl, fun hread => ?_⟩
      exact absurd List.mem_cons_self (hread ▸ hne)

theorem fillBuf_error (h : r.fillBuf = .error e) : r.stream = [] ∧ r.ending = .error e := by
  obtain ⟨buffer, reads, ending, hne⟩ := r
  cases buffer with
  | cons b bs => cases h
  | nil =>
    cases reads with
    | nil =>
      cases ending with
      | error e' =>
        cases h
        exact ⟨rfl, rfl⟩
      | ok u => cases h
    | cons read reads => cases h

theorem stream_consume (h : n ≤ r.buffer.length) : (r.consume n).stream = r.stream.drop n := by
  simp [stream, consume, List.drop_append_of_le_length h]

/-- What `take` shows of the buffer, and what follows when it is consumed. -/
theorem stream_eq (r : BufReader) (n : Nat) :
    r.stream = r.buffer.take n ++ (r.consume (r.buffer.take n).length).stream := by
  simp only [stream, consume]
  rw [← List.append_assoc, List.prefix_iff_eq_append.mp (List.take_prefix n r.buffer)]

/-- Where the first line ends within the limit, or the limit or the end of the stream comes before
it does, that is what is read. -/
theorem readUntil_ok (r : BufReader) (delimiter : UInt8) (buf : List UInt8)
    (h : delimiter ∈ r.stream ∨ limit ≤ r.stream.length ∨ r.ending = .ok ()) :
    ∃ r', r.readUntil delimiter limit buf = .ok
        (buf ++ (Lines.first delimiter r.stream).take limit, r') ∧
      r'.stream = r.stream.drop ((Lines.first delimiter r.stream).take limit).length ∧
      r'.ending = r.ending := by
  fun_induction readUntil delimiter limit r buf with
  | case1 r buf => exact ⟨r, by simp, by simp, rfl⟩
  | case2 limit r buf hlimit e hfill =>
    obtain ⟨hstream, hending⟩ := fillBuf_error hfill
    rw [hstream, hending] at h
    simp [hlimit] at h
  | case3 limit r buf hlimit r' hfill available hmem used =>
    obtain ⟨hstream, hending, _⟩ := fillBuf_ok hfill
    have hfirst : Lines.first delimiter r.stream = used := by
      rw [← hstream, stream_eq r' limit, Lines.first_append_of_mem hmem]
    have hused : used.length ≤ available.length := Lines.first_prefix.length_le
    have havailable : available.length = min limit r'.buffer.length := List.length_take
    rw [hfirst, List.take_of_length_le (by omega)]
    exact ⟨_, rfl, by rw [stream_consume (by omega), hstream], hending⟩
  | case4 limit r buf hlimit r' hfill available hmem hnil =>
    obtain ⟨hstream, hending, hend⟩ := fillBuf_ok hfill
    have hbuffer : r'.buffer = [] := by simpa [available, hlimit] using hnil
    have hr := (hend hbuffer).1
    exact ⟨r', by simp [hr, Lines.first], by simp [hstream, hr], hending⟩
  | case5 limit r buf hlimit r' hfill available hmem hnil ih =>
    obtain ⟨hstream, hending, hend⟩ := fillBuf_ok hfill
    have hsplit : r.stream = available ++ (r'.consume available.length).stream := by
      rw [← hstream]
      exact stream_eq r' limit
    have havailable : available.length ≤ limit := by simp [available]
    have hmore : delimiter ∈ (r'.consume available.length).stream ∨
        limit - available.length ≤ (r'.consume available.length).stream.length ∨
        (r'.consume available.length).ending = .ok () := by
      rw [hsplit, List.mem_append, List.length_append] at h
      rcases h with (h | h) | h | h
      · exact absurd h hmem
      · exact .inl h
      · exact .inr (.inl (by omega))
      · exact .inr (.inr (hending.trans h))
    have hfirst : (Lines.first delimiter r.stream).take limit = available ++
        (Lines.first delimiter (r'.consume available.length).stream).take
          (limit - available.length) := by
      rw [hsplit, Lines.first_append_of_not_mem hmem, List.take_append,
        List.take_of_length_le havailable]
    obtain ⟨r'', hread, hrest, hending'⟩ := ih hmore
    refine ⟨r'', ?_, ?_, hending'.trans hending⟩
    · rw [hread, hfirst, List.append_assoc]
    · rw [hrest, hfirst, hsplit, List.length_append, List.drop_length_add_append]

/-- A transport that fails before the first line ends and before the limit fails the read. -/
theorem readUntil_error (buf : List UInt8) (hmem : delimiter ∉ r.stream)
    (hlimit : r.stream.length < limit) (hending : r.ending = .error e) :
    r.readUntil delimiter limit buf = .error e := by
  fun_induction readUntil delimiter limit r buf with
  | case1 => cases hlimit
  | case2 limit r buf _ e' hfill =>
    rw [(fillBuf_error hfill).2] at hending
    cases hending
    rfl
  | case3 limit r buf _ r' hfill available hfound =>
    rw [← (fillBuf_ok hfill).1, stream_eq r' limit] at hmem
    exact absurd (List.mem_append_left _ hfound) hmem
  | case4 limit r buf hpos r' hfill available _ hnil =>
    have hbuffer : r'.buffer = [] := by simpa [available, hpos] using hnil
    rw [((fillBuf_ok hfill).2.2 hbuffer).2] at hending
    cases hending
  | case5 limit r buf _ r' hfill available _ hnil ih =>
    obtain ⟨hstream, hsame, _⟩ := fillBuf_ok hfill
    have hpos : 0 < available.length := List.length_pos_iff.mpr hnil
    have hsplit : r.stream = available ++ (r'.consume available.length).stream := by
      rw [← hstream]
      exact stream_eq r' limit
    rw [hsplit] at hmem hlimit
    rw [List.length_append] at hlimit
    apply ih (fun hfound => hmem (List.mem_append_right _ hfound)) (by omega)
    exact hsame.trans hending

end BufReader

/-- The frames that `read_line_capped` lets through. -/
def Fits (maxBytes : Nat) (frame : List UInt8) : Prop :=
  frame.length < maxBytes ∨ frame.length = maxBytes ∧ frame.getLast? = some newline

/-- How `read_line_capped` ends: with the first frame of the bytes to come; with the error of a
transport that fails before the frame ends; or with its own error. -/
inductive LineRead (maxBytes : Nat) (r : BufReader) :
    Except IoError (List UInt8 × BufReader) → Prop where
  | line {r'} (fits : Fits maxBytes (Lines.first newline r.stream))
      (stream : r'.stream = r.stream.drop (Lines.first newline r.stream).length)
      (ending : r'.ending = r.ending) : LineRead maxBytes r (.ok (Lines.first newline r.stream, r'))
  | failed {e} (fits : Fits maxBytes (Lines.first newline r.stream))
      (unended : newline ∉ r.stream) (ending : r.ending = .error e) : LineRead maxBytes r (.error e)
  | oversized (long : ¬Fits maxBytes (Lines.first newline r.stream)) :
      LineRead maxBytes r (.error (tooLarge maxBytes))

section
variable {maxBytes : Nat} {r : BufReader}

theorem not_fits (h : ¬Fits maxBytes (Lines.first newline r.stream)) :
    ((Lines.first newline r.stream).take maxBytes).length = maxBytes ∧
      ((Lines.first newline r.stream).take maxBytes).getLast? ≠ some newline := by
  rw [Fits, not_or, Nat.not_lt, not_and] at h
  refine ⟨List.length_take_of_le h.1, fun hlast => ?_⟩
  rcases Nat.lt_or_eq_of_le h.1 with hlong | heq
  · exact Lines.not_mem_take_first hlong (List.mem_of_getLast? hlast)
  · rw [List.take_of_length_le heq.ge] at hlast
    exact h.2 heq.symm hlast

theorem readLineCapped_cases : LineRead maxBytes r (readLineCapped r maxBytes) := by
  unfold readLineCapped
  by_cases hfits : Fits maxBytes (Lines.first newline r.stream)
  · by_cases hends : newline ∈ r.stream ∨ r.ending = .ok ()
    · obtain ⟨r', hread, hstream, hending⟩ := r.readUntil_ok newline []
        (hends.elim .inl fun h => .inr (.inr h : maxBytes ≤ r.stream.length ∨ _))
      have hwhole : (Lines.first newline r.stream).take maxBytes = Lines.first newline r.stream :=
        List.take_of_length_le (hfits.elim Nat.le_of_lt fun h => h.1.le)
      rw [hwhole] at hread hstream
      simp only [hread, List.nil_append]
      rw [if_neg fun h => hfits.elim (fun hlt => hlt.ne h.1) fun heq => h.2 heq.2]
      exact .line hfits hstream hending
    · obtain ⟨hunended, hending⟩ := not_or.mp hends
      have hshort : r.stream.length < maxBytes := by
        rw [Fits, Lines.getLast?_first, Lines.first_of_not_mem hunended] at hfits
        exact hfits.resolve_right fun h => hunended h.2
      cases hr : r.ending with
      | ok u => exact absurd hr hending
      | error e =>
        simp only [BufReader.readUntil_error [] hunended hshort hr]
        exact .failed hfits hunended hr
  · obtain ⟨hlength, hlast⟩ := not_fits hfits
    have hlimit : maxBytes ≤ r.stream.length := by
      have hle : (Lines.first newline r.stream).length ≤ r.stream.length :=
        Lines.first_prefix.length_le
      rw [List.length_take] at hlength
      omega
    obtain ⟨r', hread, _⟩ := r.readUntil_ok newline [] (.inr (.inl hlimit))
    simp only [hread, List.nil_append]
    rw [if_pos ⟨hlength, hlast⟩]
    exact .oversized hfits

/-- A line that is returned is the first frame, unless the stream has ended. -/
theorem readLineCapped_ok {r' : BufReader} {line : List UInt8}
    (h : readLineCapped r maxBytes = .ok (line, r')) :
    line = Lines.first newline r.stream ∧ Fits maxBytes line ∧
      r'.stream = r.stream.drop line.length ∧ r'.ending = r.ending := by
  have hcases : LineRead maxBytes r (readLineCapped r maxBytes) := readLineCapped_cases
  rw [h] at hcases
  cases hcases with
  | line fits stream ending => exact ⟨rfl, fits, stream, ending⟩

theorem frames_of_line {r' : BufReader} {line : List UInt8}
    (h : readLineCapped r maxBytes = .ok (line, r')) :
    if line = [] then r.stream = []
    else Lines.frames newline r.stream = line :: Lines.frames newline r'.stream := by
  obtain ⟨hfirst, _, hstream, _⟩ := readLineCapped_ok h
  have hnil : line = [] ↔ r.stream = [] := hfirst ▸ Lines.first_eq_nil
  split
  · exact hnil.mp ‹_›
  · rename_i hline
    rw [Lines.frames_eq_cons (hnil.not.mp hline), hstream, hfirst]

/-- Where the frames before one that is too long are not, only that one is refused. -/
theorem oversized_of_error {e : IoError} {before after : List (List UInt8)} {f : List UInt8}
    (h : readLineCapped r maxBytes = .error e)
    (hframes : Lines.frames newline r.stream = before ++ f :: after)
    (hbefore : ∀ g ∈ before, Fits maxBytes g) (hf : ¬Fits maxBytes f) :
    before = [] ∧ e = tooLarge maxBytes := by
  have hstream : r.stream ≠ [] := by
    intro hnil
    simp [hnil] at hframes
  rw [Lines.frames_eq_cons hstream] at hframes
  have hcases : LineRead maxBytes r (readLineCapped r maxBytes) := readLineCapped_cases
  rw [h] at hcases
  cases hcases with
  | failed fits unended ending =>
    -- the first frame is the whole stream, so it is the one that is too long
    rw [Lines.first_of_not_mem unended, List.drop_length, Lines.frames_nil] at hframes
    rw [Lines.first_of_not_mem unended] at fits
    cases before with
    | nil =>
      obtain ⟨rfl, _⟩ := List.cons.inj hframes
      exact absurd fits hf
    | cons g before => simp at hframes
  | oversized long =>
    cases before with
    | nil => exact ⟨rfl, rfl⟩
    | cons g before =>
      obtain ⟨rfl, _⟩ := List.cons.inj hframes
      exact absurd (hbefore _ List.mem_cons_self) long

theorem readLineCapped_shorter {r' : BufReader} {line : List UInt8}
    (h : readLineCapped r maxBytes = .ok (line, r')) (hline : line ≠ []) :
    r'.stream.length < r.stream.length := by
  obtain ⟨hfirst, _, hstream, _⟩ := readLineCapped_ok h
  have hpos : 0 < line.length := List.length_pos_iff.mpr hline
  have hle : line.length ≤ r.stream.length := hfirst ▸ Lines.first_prefix.length_le
  rw [hstream, List.length_drop]
  omega

end

end RemoBroker
