import RemoBroker.Daemon.Request
import RemoBroker.Wire.Conversation

/-! A connection of a project socket in a run of the whole daemon.  Its lines and responses take
turns, whatever the other tasks do in between, so the handler of `Framing.Handler`, whose dispatcher
has the daemon to itself, writes to the client's bytes what the run wrote. -/

namespace RemoBroker

open Json (newline)
open JsonText (NumberFormat)

/-- What a client sees of its connection: a line is taken, or a response has been written. -/
inductive Turn where
  | asked (line : ProjectLine)
  | told (response : ProjectResponse)
deriving DecidableEq

def Obs.turn (c : ConnId) : Obs → Option (Nat × Turn)
  | .received q line => if q.conn = c then some (q.seq, .asked line) else none
  | .answered q response => if q.conn = c then some (q.seq, .told response) else none
  | .stored .. | .file .. | .replied .. | .served .. | .dispatched .. | .lookedUp .. | .called ..
  | .inserted .. | .recorded .. | .writing .. => none

def turns (c : ConnId) (tr : List Obs) : List (Nat × Turn) := tr.filterMap (Obs.turn c)

/-- The bytes that have been written on a connection. -/
def sent (c : ConnId) (tr : List Obs) : List UInt8 :=
  (turns c tr).flatMap fun
    | (_, .asked _) => []
    | (_, .told response) => response.toJson ++ [newline]

/-- The turns of some lines with their responses, from the `n`-th request on. -/
def exchanged (n : Nat) : List (ProjectLine × ProjectResponse) → List (Nat × Turn)
  | [] => []
  | (line, response) :: xs => (n, .asked line) :: (n, .told response) :: exchanged (n + 1) xs

/-- The response is one that the line calls for, on a socket of the project `n`. -/
inductive Suits (env : Env) (n : String) : ProjectLine → ProjectResponse → Prop where
  | malformed {e} : Suits env n (.error e) (protocolErrorResponse e)
  | ping : Suits env n (.ok .ping) (.ping env.version protocolVersion n)
  | info {m : Manifest} : Suits env n (.ok .info) (.info n m.allowlist.secrets m.schemaVersion)
  | value {name value ttl} : Suits env n (.ok (.get name)) (.get (GetResponse.utf8 value ttl))
  | denied {name} : Suits env n (.ok (.get name)) (deniedResponse env.debug name)
  | notFound {name} : Suits env n (.ok (.get name)) (notFoundResponse env.debug name)
  | noSession {name} : Suits env n (.ok (.get name)) noSessionResponse
  | failed {name msg} : Suits env n (.ok (.get name)) (backendErrorResponse msg)

/-- A connection has answered the lines of `xs` one after the other, and has taken at most one line
more. -/
structure Conversation (env : Env) (c : ConnId) (tr : List Obs)
    (xs : List (ProjectLine × ProjectResponse)) (pending : Option ProjectLine) : Prop where
  alternate : turns c tr = exchanged 0 xs ++ pending.toList.map fun line => (xs.length, .asked line)
  suits : ∀ x ∈ xs, Suits env c.reg.name x.1 x.2

/-- A dispatcher that gives the responses of a list, in their order. -/
def replay : List ProjectResponse → ProjectRequest → List ProjectResponse × ProjectResponse
  | [], _ => ([], noSessionResponse)
  | response :: responses, _ => (responses, response)

/-- The responses to the lines that parse, which are the dispatcher's. -/
def fromDispatcher : List (ProjectLine × ProjectResponse) → List ProjectResponse
  | [] => []
  | (.ok _, response) :: xs => response :: fromDispatcher xs
  | (.error _, _) :: xs => fromDispatcher xs

/-- The handler that reads lines with the meaning of those in `xs`, and whose dispatcher answers as
in `xs`, comes to the end of them and has then written what the run wrote on the connection. -/
def Replayed (c : ConnId) (tr : List Obs) (xs : List (ProjectLine × ProjectResponse)) : Prop :=
  ∀ (numbers : NumberFormat) (parse : List UInt8 → Except String ProjectRequest)
    (lines reads : List (List UInt8)) (hne : [] ∉ reads),
    Parses ProjectRequest.serde numbers parse →
    reads.flatten = lines.flatMap (fun l => l ++ [newline]) →
    (∀ l ∈ lines, newline ∉ l ∧ l.length + 1 ≤ maxMessageBytes) →
    List.Forall₂ (Means ProjectRequest.serde numbers parse) (lines.map (· ++ [newline]))
      (xs.map Prod.fst) →
    let out := handleProjectConnection parse replay (fromDispatcher xs) (.delivering reads hne)
    out.result = .ok () ∧ out.state = [] ∧ (projectService parse replay).output out = sent c tr

/-- The line that a connection at a program point has taken and not answered. -/
def ConnPc.Serves (env : Env) (n : String) : ConnPc → Option ProjectLine → Prop
  | .reading, pending => pending = none
  | .closed, _ => True
  | .dispatching line _, pending => pending = some line
  | .lookingUp name _, pending | .calling name _, pending | .awaiting name _ _, pending
  | .inserting name _ _, pending | .readingTtl name _ _, pending => pending = some (.ok (.get name))
  | .emitting _ r, pending | .responding r, pending | .writing r, pending =>
    ∃ line, pending = some line ∧ Suits env n line r

/-- The conversation on a connection that may be there, which carries the induction. -/
inductive Talks (env : Env) (c : ConnId) (tr : List Obs) : Option Conn → Prop where
  | unborn (conversation : Conversation env c tr [] none) : Talks env c tr none
  | conn {conn xs pending} (conversation : Conversation env c tr xs pending)
      (served : xs.length = conn.served) (serves : conn.pc.Serves env c.reg.name pending) :
      Talks env c tr (some conn)

section
variable {env : Env} {c : ConnId} {s t : Daemon} {tr o : List Obs}
  {xs : List (ProjectLine × ProjectResponse)} {pending : Option ProjectLine}

@[simp] theorem turns_append : turns c (tr ++ o) = turns c tr ++ turns c o :=
  List.filterMap_append

theorem exchanged_concat {n : Nat} {line : ProjectLine} {response : ProjectResponse} :
    exchanged n (xs ++ [(line, response)]) =
      exchanged n xs ++ [(n + xs.length, .asked line), (n + xs.length, .told response)] := by
  induction xs generalizing n with
  | nil => rfl
  | cons x xs ih =>
    have hlength : n + (x :: xs).length = n + 1 + xs.length := by
      rw [List.length_cons]
      omega
    rw [List.cons_append, exchanged, exchanged, ih, hlength]
    rfl

theorem Obs.turn_eq_none {x : Obs} (h : ∀ seq, x.request ≠ some ⟨c, seq⟩) : x.turn c = none := by
  cases x with
  | received q line =>
    have hne : q.conn ≠ c := fun heq => h q.seq (by rw [← heq]; rfl)
    exact if_neg hne
  | answered q response =>
    have hne : q.conn ≠ c := fun heq => h q.seq (by rw [← heq]; rfl)
    exact if_neg hne
  | _ => rfl

theorem turns_eq_nil (h : ∀ q : RequestId, q.conn = c → ofRequest q o = []) : turns c o = [] := by
  refine List.filterMap_eq_nil_iff.mpr fun x hx => Obs.turn_eq_none fun seq hreq => ?_
  have hmem : x ∈ ofRequest ⟨c, seq⟩ o := mem_ofRequest.mpr ⟨hx, hreq⟩
  rw [h ⟨c, seq⟩ rfl] at hmem
  cases hmem

theorem Conversation.frame (h : Conversation env c tr xs pending) (ho : turns c o = []) :
    Conversation env c (tr ++ o) xs pending :=
  ⟨by rw [turns_append, ho, List.append_nil, h.alternate], h.suits⟩

theorem Conversation.asked {line : ProjectLine} (h : Conversation env c tr xs none)
    (ho : turns c o = [(xs.length, .asked line)]) :
    Conversation env c (tr ++ o) xs (some line) := by
  refine ⟨?_, h.suits⟩
  rw [turns_append, h.alternate, ho]
  simp

theorem Conversation.told {line : ProjectLine} {response : ProjectResponse}
    (h : Conversation env c tr xs (some line)) (hsuits : Suits env c.reg.name line response)
    (ho : turns c o = [(xs.length, .told response)]) :
    Conversation env c (tr ++ o) (xs ++ [(line, response)]) none := by
  refine ⟨?_, ?_⟩
  · rw [turns_append, h.alternate, ho, exchanged_concat]
    simp
  · intro x hx
    rcases List.mem_append.mp hx with hx | hx
    · exact h.suits x hx
    · cases List.mem_singleton.mp hx
      exact hsuits

theorem dispatchProject_serves {p : Project} {line : ProjectLine} {start : Instant} :
    (dispatchProject env p line start).Serves env p.name (some line) := by
  unfold dispatchProject
  split
  · exact ⟨_, rfl, .malformed⟩
  · exact ⟨_, rfl, .ping⟩
  · exact ⟨_, rfl, .info⟩
  · split
    · rfl
    · exact ⟨_, rfl, .denied⟩

theorem afterLookup_serves {n name : String} {start : Instant} {hit : Option CacheHit} :
    (afterLookup name start hit).Serves env n (some (.ok (.get name))) := by
  cases hit with
  | none => rfl
  | some hit => exact ⟨_, rfl, .value⟩

theorem afterReturn_serves {n name : String} {start : Instant}
    {answer : Except String (Option String)} :
    (afterReturn env name start answer).Serves env n (some (.ok (.get name))) := by
  rcases answer with msg | _ | value
  · exact ⟨_, rfl, .failed⟩
  · exact ⟨_, rfl, .notFound⟩
  · rfl

/-- A step of a connection takes its next line, answers the line it has, or leaves the conversation
where it is. -/
theorem Conversation.step {p p' : Project} {conn conn' : Conn} {a : ConnAction}
    {backend : Option Session} (h : Conversation env c tr xs pending)
    (served : xs.length = conn.served) (serves : conn.pc.Serves env c.reg.name pending)
    (hname : p.name = c.reg.name)
    (step : ConnStep env backend ⟨c, conn.served⟩ p conn a p' conn' o) :
    Talks env c (tr ++ o) (some conn') := by
  cases step with
  | received pc =>
    rw [pc] at serves
    cases serves
    exact .conn (h.asked (by simp [turns, Obs.turn, served])) served rfl
  | answered pc =>
    rw [pc] at serves
    obtain ⟨line, rfl, hsuits⟩ := serves
    refine .conn (h.told hsuits (by simp [turns, Obs.turn, served])) ?_ rfl
    simp [served]
  | dispatched pc =>
    rw [pc] at serves
    cases serves
    exact .conn (h.frame rfl) served (hname ▸ dispatchProject_serves)
  | lookedUp pc =>
    rw [pc] at serves
    cases serves
    exact .conn (h.frame rfl) served afterLookup_serves
  | returned pc =>
    rw [pc] at serves
    cases serves
    exact .conn (h.frame rfl) served afterReturn_serves
  | noSession pc =>
    rw [pc] at serves
    cases serves
    exact .conn (h.frame rfl) served ⟨_, rfl, .noSession⟩
  | readTtl pc =>
    rw [pc] at serves
    cases serves
    exact .conn (h.frame rfl) served ⟨_, rfl, .value⟩
  | called pc | inserted pc | emitted pc | started pc =>
    rw [pc] at serves
    exact .conn (h.frame rfl) served serves
  | closed => exact .conn (h.frame rfl) served trivial

/-- What the other tasks do to a connection does not touch its conversation. -/
theorem Talks.frame {old new : Option Conn} (h : Talks env c tr old) (ho : turns c o = [])
    (hchange : ConnChange old new) : Talks env c (tr ++ o) new := by
  cases hchange with
  | same =>
    cases h with
    | unborn conversation => exact .unborn (conversation.frame ho)
    | conn conversation served serves => exact .conn (conversation.frame ho) served serves
  | marked =>
    cases h with
    | conn conversation served serves => exact .conn (conversation.frame ho) served serves
  | dropped =>
    cases h with
    | conn conversation served serves => exact .conn (conversation.frame ho) served trivial
  | opened =>
    cases h with
    | unborn conversation => exact .conn (conversation.frame ho) rfl rfl

theorem Talks.step {a : Action} (h : Talks env c tr (s.conns c)) (hrecords : Records env s)
    (step : DaemonStep env s a t o) : Talks env c (tr ++ o) (t.conns c) := by
  rcases a.conn_or with ⟨c', b, rfl⟩ | hother
  · cases step with
    | @conn _ _ conn p p' conn' _ task project step =>
      by_cases hc : c = c'
      · subst hc
        rw [task] at h
        show Talks env c (tr ++ o) (Function.update s.conns c (some conn') c)
        rw [Function.update_self]
        cases h with
        | conn conversation served serves =>
          exact conversation.step served serves (hrecords.project _ _ project).1 step
      · have ho : turns c o = [] := turns_eq_nil fun q hq => step.ofRequest_other fun heq =>
          hc (by rw [← hq, heq])
        refine h.frame ho ?_
        show ConnChange (s.conns c) (Function.update s.conns c' (some conn') c)
        rw [Function.update_of_ne hc]
        exact .same
  · exact h.frame (turns_eq_nil fun q _ => step.ofRequest_eq hother) (step.connChange hother c)

theorem run_talks {backend : Option Session} {stale : Daemon.Stale} {as : List Action}
    (hrun : run env backend stale as = some (s, tr)) (c : ConnId) :
    Talks env c tr (s.conns c) := by
  have h : Records env s ∧ Talks env c tr (s.conns c) := by
    refine Machine.exec_induction (I := fun tr s => Records env s ∧ Talks env c tr (s.conns c))
      ⟨Records.initial, .unborn ⟨rfl, by simp⟩⟩ ?_ hrun
    intro tr s a t o h hs
    exact ⟨h.1.step (step_cases hs), h.2.step h.1 (step_cases hs)⟩
  exact h.2

theorem sent_exchanged {n : Nat} :
    ((exchanged n xs).flatMap fun
      | (_, .asked _) => []
      | (_, .told response) => response.toJson ++ [newline]) =
      (xs.map Prod.snd).flatMap fun r => r.toJson ++ [newline] := by
  induction xs generalizing n with
  | nil => rfl
  | cons x xs ih => simp [exchanged, ih]

theorem Conversation.sent_eq (h : Conversation env c tr xs pending) :
    sent c tr = (xs.map Prod.snd).flatMap fun r => r.toJson ++ [newline] := by
  rw [sent, h.alternate, List.flatMap_append, sent_exchanged]
  cases pending <;> simp

/-- The responses of a conversation are those of a dispatcher that replays its own. -/
theorem replies_replay {n : String} (parse : List UInt8 → Except String ProjectRequest)
    (hsuits : ∀ x ∈ xs, Suits env n x.1 x.2) :
    (projectService parse replay).replies (fromDispatcher xs) (xs.map Prod.fst) =
      ([], xs.map Prod.snd) := by
  induction xs with
  | nil => rfl
  | cons x xs ih =>
    have hrest := ih fun y hy => hsuits y (List.mem_cons_of_mem x hy)
    have hreply : (projectService parse replay).reply (fromDispatcher (x :: xs)) x.1 =
        (fromDispatcher xs, x.2) := by
      have hsuit := hsuits x List.mem_cons_self
      obtain ⟨line, response⟩ := x
      cases line with
      | ok request => rfl
      | error e =>
        -- The handler answers such a line itself, as the daemon did.
        cases hsuit
        rfl
    rw [List.map_cons, Service.replies, hreply, hrest, List.map_cons]

theorem Conversation.replayed (h : Conversation env c tr xs pending) : Replayed c tr xs := by
  intro numbers parse lines reads hne hparse hstream hlines hmeans out
  obtain ⟨hexact, hstate, hwritten⟩ := Service.handled_of_means (v := projectService parse replay)
    (s := fromDispatcher xs) hparse hne hstream hlines hmeans
  have hreplies := replies_replay parse h.suits
  have hresponses : out.written = xs.map Prod.snd := hwritten.trans (congrArg Prod.snd hreplies)
  refine ⟨hexact.result, hstate.trans (congrArg Prod.fst hreplies), ?_⟩
  rw [h.sent_eq, ← hresponses]
  rfl

/-- In every run a connection answers its lines one after the other, each with a response that it
calls for, and what it has written is what its handler writes to lines with these meanings. -/
theorem connection_replayed {backend : Option Session} {stale : Daemon.Stale} {as : List Action}
    (hrun : run env backend stale as = some (s, tr)) (c : ConnId) :
    ∃ xs pending, Conversation env c tr xs pending ∧ Replayed c tr xs ∧
      ∀ conn, s.conns c = some conn → xs.length = conn.served ∧
        (conn.pc = .reading → pending = none) := by
  have htalks := run_talks hrun c
  generalize s.conns c = found at htalks
  cases htalks with
  | unborn conversation => exact ⟨[], none, conversation, conversation.replayed, by simp⟩
  | @conn conn xs pending conversation served serves =>
    refine ⟨xs, pending, conversation, conversation.replayed, ?_⟩
    intro conn' hconn
    obtain rfl := Option.some.inj hconn
    refine ⟨served, fun hpc => ?_⟩
    rw [hpc] at serves
    exact serves

end

/-- Two connections of a project at the same time: one asks for a secret that is not allowed and
then sends a line that does not parse, the other has a line that is not answered yet. -/
def interleavedRun : List Action :=
  Action.register ⟨"web", 0⟩ "/srv/web" "web" 0 ++ Action.connect ⟨⟨"web", 0⟩, 0⟩ ++
    Action.connect ⟨⟨"web", 0⟩, 1⟩ ++
    [.conn ⟨⟨"web", 0⟩, 0⟩ (.receive (.ok (.get "AB")) 0),
      .conn ⟨⟨"web", 0⟩, 1⟩ (.receive (.ok .ping) 0)] ++
    (Action.denied ⟨⟨"web", 0⟩, 0⟩ "AB" 0).tail ++
    [.receive (.error unknownStatus) 0, .dispatch, .startWrite, .finishWrite].map
      (.conn ⟨⟨"web", 0⟩, 0⟩)

theorem connection_replayed_interleaved : ∃ s tr xs,
    run webEnv (some 0) (fun _ => none) interleavedRun = some (s, tr) ∧
    xs.map Prod.fst = [.ok (.get "AB"), .error unknownStatus] ∧
    Conversation webEnv ⟨⟨"web", 0⟩, 0⟩ tr xs none ∧
    (projectService clientParse replay).output
      (handleProjectConnection clientParse replay (fromDispatcher xs)
        (.delivering (clientLines.map (· ++ [newline])) (by decide))) =
      sent ⟨⟨"web", 0⟩, 0⟩ tr := by
  have hfacts : (run webEnv (some 0) (fun _ => none) interleavedRun).map (fun r =>
      turns ⟨⟨"web", 0⟩, 0⟩ r.2) = some
        [(0, .asked (.ok (.get "AB"))), (0, .told (deniedResponse webEnv.debug "AB")),
          (1, .asked (.error unknownStatus)),
          (1, .told (protocolErrorResponse unknownStatus))] := by
    decide +kernel
  obtain ⟨⟨s, tr⟩, hrun, hturns⟩ := Option.map_eq_some_iff.mp hfacts
  obtain ⟨xs, pending, hconversation, hreplayed, -⟩ :=
    connection_replayed hrun ⟨⟨"web", 0⟩, 0⟩
  have halternate := hturns.symm.trans hconversation.alternate
  obtain ⟨hlines, rfl⟩ : xs.map Prod.fst = [.ok (.get "AB"), .error unknownStatus] ∧
      pending = none := by
    rcases xs with _ | ⟨x, _ | ⟨y, _ | ⟨z, xs⟩⟩⟩ <;> cases pending <;>
      simp [exchanged] at halternate ⊢
    exact ⟨halternate.1.symm, halternate.2.2.1.symm⟩
  have hmeans : List.Forall₂ (Means ProjectRequest.serde everyNumber clientParse)
      (clientLines.map (· ++ [newline])) (xs.map Prod.fst) := hlines ▸ clientLines_project
  exact ⟨s, tr, xs, hrun, hlines, hconversation, (hreplayed everyNumber clientParse clientLines _ _
    parses_parseLine (by decide) (by decide) hmeans).2.2⟩

end RemoBroker
