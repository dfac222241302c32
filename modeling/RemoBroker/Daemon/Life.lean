import RemoBroker.Daemon.Conn
import RemoBroker.Lib.Machine

/-! The life of a request on a project socket.  `Fetch` pairs the branches of `dispatch_get` with
their audit event and response, `Stage` relates the program point of a connection to what has been
observed of the request it serves, and `Life` is what may be observed of a request at any time. -/

namespace RemoBroker

def Obs.request : Obs → Option RequestId
  | .received q _ | .dispatched q _ | .lookedUp q _ _ _ | .called q _ _ | .inserted q _ _
  | .recorded q _ | .writing q _ | .answered q _ => some q
  | _ => none

def ofRequest (q : RequestId) (tr : List Obs) : List Obs := tr.filter (·.request = some q)

@[simp] theorem ofRequest_nil {q : RequestId} : ofRequest q [] = [] := rfl

@[simp] theorem ofRequest_append {q : RequestId} {tr tr' : List Obs} :
    ofRequest q (tr ++ tr') = ofRequest q tr ++ ofRequest q tr' := by
  simp [ofRequest]

theorem ofRequest_prefix_nil {q : RequestId} {pre tr : List Obs} (hpre : pre <+: tr)
    (h : ofRequest q tr = []) : ofRequest q pre = [] :=
  List.prefix_nil.mp (h ▸ hpre.filter _)

theorem mem_ofRequest {q : RequestId} {o : Obs} {tr : List Obs} :
    o ∈ ofRequest q tr ↔ o ∈ tr ∧ o.request = some q := by
  simp [ofRequest]

def Obs.response : Obs → Option ProjectResponse
  | .writing _ r | .answered _ r => some r
  | _ => none

def Obs.consults : Obs → Bool
  | .lookedUp _ _ _ _ | .called _ _ _ => true
  | _ => false

def ConnPc.response : ConnPc → Option ProjectResponse
  | .emitting _ r | .responding r | .writing r => some r
  | _ => none

/-- A `get` for `name` was received and passed the allowlist of `m`. -/
def askedObs (q : RequestId) (name : String) (m : Manifest) : List Obs :=
  [.received q (.ok (.get name)), .dispatched q m]

/-- The cache had nothing for it and the backend was called. -/
def calledObs (q : RequestId) (name : String) (m : Manifest) (now : Instant) (session : Session) :
    List Obs :=
  askedObs q name m ++ [.lookedUp q name now none, .called q session name]

/-- The branches of `dispatch_get`: what has been observed of the request when the branch reaches
`emit_fetch`, the fields of the event, and the response. -/
inductive Fetch (env : Env) (q : RequestId) :
    List Obs → String → PendingFetch → ProjectResponse → Prop where
  | denied {name m start} (absent : name ∉ m.allowlist.secrets) :
      Fetch env q (askedObs q name m) name ⟨name, .deny, .ok, start, none, some "allowlist"⟩
        (deniedResponse env.debug name)
  | hit {name m start now e ttl} (allowed : name ∈ m.allowlist.secrets) :
      Fetch env q (askedObs q name m ++ [.lookedUp q name now (some e)]) name
        ⟨name, .allow, .ok, start, some "cache", none⟩ (.get (GetResponse.utf8 e.value ttl))
  | degraded {name m start now} (allowed : name ∈ m.allowlist.secrets) :
      Fetch env q (askedObs q name m ++ [.lookedUp q name now none]) name
        ⟨name, .allow, .backendError, start, none, none⟩ noSessionResponse
  | fetched {name m start now session at_ value ttl} (allowed : name ∈ m.allowlist.secrets)
      (answer : env.fnox session name at_ = .ok (some value)) :
      Fetch env q (calledObs q name m now session ++ [.inserted q name value]) name
        ⟨name, .allow, .ok, start, some "fnox", none⟩ (.get (GetResponse.utf8 value ttl))
  | notFound {name m start now session at_} (allowed : name ∈ m.allowlist.secrets)
      (answer : env.fnox session name at_ = .ok none) :
      Fetch env q (calledObs q name m now session) name
        ⟨name, .allow, .notFound, start, some "fnox", none⟩ (notFoundResponse env.debug name)
  | failed {name m start now session at_ msg} (allowed : name ∈ m.allowlist.secrets)
      (answer : env.fnox session name at_ = .error msg) :
      Fetch env q (calledObs q name m now session) name
        ⟨name, .allow, .backendError, start, some "fnox", none⟩ (backendErrorResponse msg)

/-- A line that is not a `get`, and the response to it. -/
inductive Direct (env : Env) : ProjectLine → ProjectResponse → Prop where
  | malformed {e} : Direct env (.error e) (protocolErrorResponse e)
  | ping {name} : Direct env (.ok .ping) (.ping env.version protocolVersion name)
  | info {name} {m : Manifest} :
      Direct env (.ok .info) (.info name m.allowlist.secrets m.schemaVersion)

/-- What has been observed of a request when its connection stands at a program point. -/
inductive Stage (env : Env) (q : RequestId) : ConnPc → List Obs → Prop where
  | reading : Stage env q .reading []
  | dispatching {line start} : Stage env q (.dispatching line start) [.received q line]
  | lookingUp {name start m} (allowed : name ∈ m.allowlist.secrets) :
      Stage env q (.lookingUp name start) (askedObs q name m)
  | calling {name start m now} (allowed : name ∈ m.allowlist.secrets) :
      Stage env q (.calling name start) (askedObs q name m ++ [.lookedUp q name now none])
  | awaiting {name start m now session} (allowed : name ∈ m.allowlist.secrets) :
      Stage env q (.awaiting name start session) (calledObs q name m now session)
  | inserting {name start m now session at_ value} (allowed : name ∈ m.allowlist.secrets)
      (answer : env.fnox session name at_ = .ok (some value)) :
      Stage env q (.inserting name start value) (calledObs q name m now session)
  | readingTtl {name start m now session at_ value} (allowed : name ∈ m.allowlist.secrets)
      (answer : env.fnox session name at_ = .ok (some value)) :
      Stage env q (.readingTtl name start value)
        (calledObs q name m now session ++ [.inserted q name value])
  | emitting {hist name event response} (fetch : Fetch env q hist name event response) :
      Stage env q (.emitting event response) hist
  | recorded {hist name event response conn now utc}
      (fetch : Fetch env q hist name event response) :
      Stage env q (.responding response)
        (hist ++ [.recorded q (emitFetch q.conn.reg.name conn event now utc)])
  | direct {line m response} (direct : Direct env line response) :
      Stage env q (.responding response) [.received q line, .dispatched q m]
  | writing {hist response} (stage : Stage env q (.responding response) hist) :
      Stage env q (.writing response) (hist ++ [.writing q response])

/-- What may be observed of a request: a stage of it, or all of it. -/
inductive Life (env : Env) (q : RequestId) : List Obs → Prop where
  | stage {pc hist} (stage : Stage env q pc hist) : Life env q hist
  | answered {hist response} (stage : Stage env q (.writing response) hist) :
      Life env q (hist ++ [.answered q response])

section
variable {env : Env} {q : RequestId} {hist h : List Obs} {n : String} {m : Manifest}
  {name : String} {event : PendingFetch} {r : ProjectResponse} {pc : ConnPc} {session : Session}

theorem Fetch.received_iff {line : ProjectLine} (fetch : Fetch env q hist name event r) :
    .received q line ∈ hist ↔ line = .ok (.get name) := by
  cases fetch <;> simp [askedObs, calledObs]

theorem Stage.received_line (stage : Stage env q pc hist) :
    ∃ l, ∀ line, .received q line ∈ hist → line = l := by
  induction stage with
  | reading => exact ⟨.ok .ping, by simp⟩
  | emitting fetch => exact ⟨_, fun line => fetch.received_iff.mp⟩
  | recorded fetch => exact ⟨_, fun line h => fetch.received_iff.mp (by simpa using h)⟩
  | writing stage ih =>
    obtain ⟨l, hl⟩ := ih
    exact ⟨l, fun line h => hl line (by simpa using h)⟩
  | dispatching | lookingUp | calling | awaiting | inserting | readingTtl | direct =>
    exact ⟨_, fun line h => by simpa [askedObs, calledObs] using h⟩

theorem Life.received_unique {line line' : ProjectLine} (life : Life env q hist)
    (h : .received q line ∈ hist) (h' : .received q line' ∈ hist) : line = line' := by
  cases life with
  | stage stage =>
    obtain ⟨l, hl⟩ := stage.received_line
    rw [hl line h, hl line' h']
  | answered stage =>
    obtain ⟨l, hl⟩ := stage.received_line
    rw [hl line (by simpa using h), hl line' (by simpa using h')]

theorem Life.dispatched_inv (life : Life env q (h ++ [.dispatched q m])) :
    ∃ line, h = [.received q line] := by
  generalize hl : h ++ [.dispatched q m] = l at life
  obtain ⟨rfl, hlast⟩ := Machine.concat_eq hl
  cases life with
  | answered => simp at hlast
  | stage stage =>
    cases stage with
    | emitting fetch => cases fetch <;> simp [askedObs, calledObs] at hlast ⊢
    | lookingUp | direct => exact ⟨_, rfl⟩
    | reading | dispatching | calling | awaiting | inserting | readingTtl | recorded | writing =>
      simp [calledObs] at hlast

theorem Life.called_inv (life : Life env q (h ++ [.called q session n])) :
    ∃ m now, h = askedObs q n m ++ [.lookedUp q n now none] ∧ n ∈ m.allowlist.secrets := by
  generalize hl : h ++ [.called q session n] = l at life
  obtain ⟨rfl, hlast⟩ := Machine.concat_eq hl
  cases life with
  | answered => simp at hlast
  | stage stage =>
    cases stage with
    | emitting fetch =>
      cases fetch with
      | notFound allowed | failed allowed =>
        obtain ⟨rfl, rfl⟩ : _ = session ∧ _ = n := by simpa [askedObs, calledObs] using hlast
        exact ⟨_, _, rfl, allowed⟩
      | _ => simp [askedObs, calledObs] at hlast
    | awaiting allowed | inserting allowed =>
      obtain ⟨rfl, rfl⟩ : _ = session ∧ _ = n := by simpa [askedObs, calledObs] using hlast
      exact ⟨_, _, rfl, allowed⟩
    | lookingUp | direct | reading | dispatching | calling | readingTtl | recorded | writing =>
      simp [askedObs] at hlast

theorem Life.writing_inv (life : Life env q (h ++ [.writing q r])) :
    Stage env q (.responding r) h := by
  generalize hl : h ++ [.writing q r] = l at life
  cases life with
  | answered stage =>
    have hlast := (Machine.concat_eq hl).2
    simp at hlast
  | stage stage =>
    cases stage with
    | writing stage =>
      obtain ⟨rfl, hr⟩ := List.append_inj' hl rfl
      cases hr
      exact stage
    | emitting fetch =>
      have hlast := (Machine.concat_eq hl).2
      cases fetch <;> simp [askedObs, calledObs] at hlast
    | reading => simp at hl
    | dispatching | lookingUp | calling | awaiting | inserting | readingTtl | recorded | direct =>
      have hlast := (Machine.concat_eq hl).2
      simp [askedObs, calledObs] at hlast

/-- A response is written as the request's branch decided it. -/
theorem Life.response_inv {x : Obs} (life : Life env q (h ++ [x])) (hx : x.response = some r) :
    ∃ h', h' <+: h ∧ Stage env q (.responding r) h' := by
  generalize hl : h ++ [x] = l at life
  obtain ⟨rfl, hlast⟩ := Machine.concat_eq hl
  cases life with
  | answered stage =>
    simp only [List.getLast?_append, List.getLast?_singleton, Option.some_or,
      Option.some.injEq] at hlast
    subst hlast
    cases hx
    cases stage with
    | writing stage => exact ⟨_, by simp, stage⟩
  | stage stage =>
    cases stage with
    | writing stage =>
      simp only [List.getLast?_append, List.getLast?_singleton, Option.some_or,
        Option.some.injEq] at hlast
      subst hlast
      cases hx
      exact ⟨_, by simp, stage⟩
    | emitting fetch =>
      cases fetch <;> simp [askedObs, calledObs] at hlast <;> subst hlast <;> cases hx
    | reading => simp at hlast
    | lookingUp | direct | dispatching | calling | awaiting | inserting | readingTtl | recorded =>
      simp [askedObs, calledObs] at hlast
      subst hlast
      cases hx

/-- A value is given only to a `get` that passed the allowlist. -/
theorem Stage.responding_value {g : GetResponse} (stage : Stage env q (.responding (.get g)) h) :
    ∃ n m, askedObs q n m <+: h ∧ n ∈ m.allowlist.secrets := by
  generalize hr : ProjectResponse.get g = r at stage
  cases stage with
  | direct direct => cases direct <;> cases hr
  | recorded fetch =>
    cases fetch with
    | hit allowed | fetched allowed => exact ⟨_, _, by simp [calledObs], allowed⟩
    | _ => cases hr

theorem Fetch.response_of_asked (fetch : Fetch env q hist name event r)
    (hr : .received q (.ok (.get n)) ∈ hist) (hd : .dispatched q m ∈ hist) :
    (n ∉ m.allowlist.secrets →
      r = deniedResponse env.debug n ∧ ∀ x ∈ hist, x.consults = false) ∧
    (n ∈ m.allowlist.secrets → r.code ≠ some .denied) ∧ ∀ x ∈ hist, x.response = none := by
  cases fetch with
  | denied absent =>
    obtain rfl : n = name := by simpa [askedObs] using hr
    obtain rfl : m = _ := by simpa [askedObs] using hd
    exact ⟨fun _ => ⟨rfl, by simp [askedObs, Obs.consults]⟩, fun allowed => absurd allowed absent,
      by simp [askedObs, Obs.response]⟩
  | hit allowed | degraded allowed | fetched allowed | notFound allowed | failed allowed =>
    obtain rfl : n = name := by simpa [askedObs, calledObs] using hr
    obtain rfl : m = _ := by simpa [askedObs, calledObs] using hd
    refine ⟨fun absent => absurd allowed absent, fun _ => ?_,
      by simp [askedObs, calledObs, Obs.response]⟩
    simp [ProjectResponse.code, noSessionResponse, notFoundResponse, backendErrorResponse,
      ErrorResponse.new]

/-- The manifest at the dispatch decides: a name it does not allow is denied and nothing is
consulted for it, and a name it allows is not denied. -/
theorem Stage.response_of_asked (stage : Stage env q pc hist)
    (hr : .received q (.ok (.get n)) ∈ hist) (hd : .dispatched q m ∈ hist) :
    (n ∉ m.allowlist.secrets → pc.response = some (deniedResponse env.debug n) ∧
      ∀ x ∈ hist, x.consults = false) ∧
    (∀ x ∈ hist, ∀ r, x.response = some r → pc.response = some r) ∧
    (n ∈ m.allowlist.secrets → ∀ r, pc.response = some r → r.code ≠ some .denied) := by
  induction stage with
  | reading | dispatching => simp at hd
  | lookingUp allowed | calling allowed | awaiting allowed | inserting allowed
  | readingTtl allowed =>
    obtain rfl : n = _ := by simpa [askedObs, calledObs] using hr
    obtain rfl : m = _ := by simpa [askedObs, calledObs] using hd
    refine ⟨fun absent => absurd allowed absent, ?_, by simp [ConnPc.response]⟩
    simp [askedObs, calledObs, Obs.response]
  | emitting fetch =>
    obtain ⟨habsent, hallowed, hnone⟩ := fetch.response_of_asked hr hd
    refine ⟨fun absent => ⟨congrArg some (habsent absent).1, (habsent absent).2⟩, ?_, ?_⟩
    · intro x hx r hxr
      rw [hnone x hx] at hxr
      cases hxr
    · rintro allowed r ⟨⟩
      exact hallowed allowed
  | recorded fetch =>
    obtain ⟨habsent, hallowed, hnone⟩ :=
      fetch.response_of_asked (by simpa using hr) (by simpa using hd)
    refine ⟨fun absent => ⟨congrArg some (habsent absent).1, ?_⟩, ?_, ?_⟩
    · intro x hx
      rcases List.mem_append.mp hx with hx | hx
      · exact (habsent absent).2 x hx
      · simp only [List.mem_singleton] at hx
        subst hx
        rfl
    · intro x hx r hxr
      rcases List.mem_append.mp hx with hx | hx
      · rw [hnone x hx] at hxr
        cases hxr
      · simp only [List.mem_singleton] at hx
        subst hx
        cases hxr
    · rintro allowed r ⟨⟩
      exact hallowed allowed
  | direct direct =>
    cases direct <;> simp at hr
  | writing stage ih =>
    obtain ⟨habsent, hresponse, hallowed⟩ := ih (by simpa using hr) (by simpa using hd)
    refine ⟨fun absent => ⟨(habsent absent).1, ?_⟩, ?_, fun allowed r hr => hallowed allowed r hr⟩
    · intro x hx
      rcases List.mem_append.mp hx with hx | hx
      · exact (habsent absent).2 x hx
      · simp only [List.mem_singleton] at hx
        subst hx
        rfl
    · intro x hx r hxr
      rcases List.mem_append.mp hx with hx | hx
      · exact hresponse x hx r hxr
      · simp only [List.mem_singleton] at hx
        subst hx
        exact hxr

theorem Life.denied_of_absent (life : Life env q hist) (hr : .received q (.ok (.get n)) ∈ hist)
    (hd : .dispatched q m ∈ hist) (absent : n ∉ m.allowlist.secrets) :
    ∀ x ∈ hist, x.consults = false ∧ ∀ r, x.response = some r → r = deniedResponse env.debug n := by
  intro x hx
  cases life with
  | stage stage =>
    obtain ⟨habsent, hresponse, -⟩ := stage.response_of_asked hr hd
    refine ⟨(habsent absent).2 x hx, fun r hxr => ?_⟩
    exact Option.some.inj ((hresponse x hx r hxr).symm.trans (habsent absent).1)
  | answered stage =>
    obtain ⟨habsent, hresponse, -⟩ :=
      stage.response_of_asked (by simpa using hr) (by simpa using hd)
    rcases List.mem_append.mp hx with hx | hx
    · refine ⟨(habsent absent).2 x hx, fun r hxr => ?_⟩
      exact Option.some.inj ((hresponse x hx r hxr).symm.trans (habsent absent).1)
    · simp only [List.mem_singleton] at hx
      subst hx
      exact ⟨rfl, fun r hxr => Option.some.inj (hxr.symm.trans (habsent absent).1)⟩

theorem Life.not_denied_of_allowed (life : Life env q hist)
    (hr : .received q (.ok (.get n)) ∈ hist) (hd : .dispatched q m ∈ hist)
    (allowed : n ∈ m.allowlist.secrets) :
    ∀ x ∈ hist, ∀ r, x.response = some r → r.code ≠ some .denied := by
  intro x hx r hxr
  cases life with
  | stage stage =>
    obtain ⟨-, hresponse, hallowed⟩ := stage.response_of_asked hr hd
    exact hallowed allowed r (hresponse x hx r hxr)
  | answered stage =>
    obtain ⟨-, hresponse, hallowed⟩ :=
      stage.response_of_asked (by simpa using hr) (by simpa using hd)
    rcases List.mem_append.mp hx with hx | hx
    · exact hallowed allowed r (hresponse x hx r hxr)
    · simp only [List.mem_singleton] at hx
      subst hx
      exact hallowed allowed r hxr

end

end RemoBroker
