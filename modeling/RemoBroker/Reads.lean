import Mathlib.Order.Monotone.Basic
import RemoBroker.Daemon.Request

/-! Reads of a secret whose value in the backend changes over time.  `Reads` puts the daemon beside
a clock, lets a backend call return the answer of an instant between its start and its return, and
notes from which instant the value comes that a connection answers with. -/

namespace RemoBroker

/-- The daemon with the clock and the notes: the name that the request of a connection asks for,
when its backend call started, the instant at which its value was read from the backend, and the
instant of the read whose value was stored last under a name. -/
structure Reads where
  daemon : Daemon
  clock : Instant
  asked : ConnId → String
  called : ConnId → Instant
  source : ConnId → Instant
  cached : RegId → String → Option Instant

inductive ReadsAction where
  | tick (now : Instant)
  | act (a : Action)

/-- A `get` is received, and a value is given for it, which the backend had at `at_`. -/
inductive ReadObs where
  | asked (q : RequestId) (name : String)
  | answered (q : RequestId) (name : String) (value : Option String) (at_ : Instant)
deriving DecidableEq

namespace Reads

def start (env : Env) (backend : Option Session) (stale : Daemon.Stale) : Reads :=
  ⟨Daemon.init env backend stale, 0, fun _ => "", fun _ => 0, fun _ => 0, fun _ _ => none⟩

/-- The notes of the caches after a connection stored its value. -/
def stored (x : Reads) (c : ConnId) : RegId → String → Option Instant :=
  Function.update x.cached c.reg
    (Function.update (x.cached c.reg) (x.asked c) (some (x.source c)))

/-- What a step of a connection adds to the notes.  A call returns the answer of an instant between
its start and now. -/
def noteConn (x : Reads) (c : ConnId) : ConnAction → Option Reads
  | .receive (.ok (.get name)) _ => some { x with asked := Function.update x.asked c name }
  | .lookUp _ =>
    some { x with source := Function.update x.source c ((x.cached c.reg (x.asked c)).getD 0) }
  | .call => some { x with called := Function.update x.called c x.clock }
  | .return at_ =>
    if x.called c ≤ at_ ∧ at_ ≤ x.clock then
      some { x with source := Function.update x.source c at_ }
    else none
  | .insert _ _ => some { x with cached := x.stored c }
  | _ => some x

def note (x : Reads) : Action → Option Reads
  | .conn c a => x.noteConn c a
  | _ => some x

def shown (x : Reads) : Obs → Option ReadObs
  | .received q (.ok (.get name)) => some (.asked q name)
  | .writing q (.get g) => some (.answered q (x.asked q.conn) g.value (x.source q.conn))
  | _ => none

def step (env : Env) : Machine.Step Reads ReadsAction ReadObs := fun x a =>
  match a with
  | .tick now => if x.clock ≤ now then some ({ x with clock := now }, []) else none
  | .act a =>
    match RemoBroker.step env x.daemon a, x.note a with
    | some (s, o), some y => some ({ y with daemon := s }, o.filterMap x.shown)
    | _, _ => none

end Reads

/-- A `get` stores a version of a name only if the version stored before it is not newer. -/
def storesForward (ver : String → Instant → Nat) (x : Reads) : ReadsAction → Bool
  | .act (.conn c (.insert _ _)) =>
    (x.cached c.reg (x.asked c)).all fun t => ver (x.asked c) t ≤ ver (x.asked c) (x.source c)
  | _ => true

section
variable (env : Env) (ver : String → Instant → Nat)

/-- The backend had the value at that instant. -/
def ReadAt (name value : String) (t : Instant) : Prop :=
  ∃ session, env.fnox session name t = .ok (some value)

/-- Every version that was answered on the registration before the request came is at most `k`. -/
def Floor (tr : List ReadObs) (q : RequestId) (name : String) (k : Nat) : Prop :=
  ∀ pre q' value t, pre ++ [.asked q name] <+: tr → .answered q' name value t ∈ pre →
    q'.conn.reg = q.conn.reg → ver name t ≤ k

/-- The cache of the registration was last given a version that is not older. -/
def StoredSince (x : Reads) (reg : RegId) (name : String) (t : Instant) : Prop :=
  ∃ u, x.cached reg name = some u ∧ ver name t ≤ ver name u

/-- The value that a request answers with. -/
structure Answer (tr : List ReadObs) (x : Reads) (q : RequestId) (name : String)
    (value : Option String) (t : Instant) : Prop where
  read : ∃ v, value = some v ∧ ReadAt env name v t
  stored : StoredSince ver x q.conn.reg name t
  floor : Floor ver tr q name (ver name t)

/-- What holds of the notes when a connection stands at a program point. -/
def Holds (tr : List ReadObs) (x : Reads) (q : RequestId) : ConnPc → Prop
  | .dispatching line _ => ∀ name, line = .ok (.get name) → x.asked q.conn = name
  | .lookingUp name _ => x.asked q.conn = name
  | .calling name _ => x.asked q.conn = name
  | .awaiting name _ _ => x.asked q.conn = name ∧ x.called q.conn ≤ x.clock ∧
    Floor ver tr q name (ver name (x.called q.conn))
  | .inserting name _ value => x.asked q.conn = name ∧ x.source q.conn ≤ x.clock ∧
    ReadAt env name value (x.source q.conn) ∧ Floor ver tr q name (ver name (x.source q.conn))
  | .readingTtl name _ value => x.asked q.conn = name ∧
    Answer env ver tr x q name (some value) (x.source q.conn)
  | .emitting _ r | .responding r | .writing r => ∀ g, r = .get g →
    Answer env ver tr x q (x.asked q.conn) g.value (x.source q.conn)
  | .reading | .closed => True

structure Forward (tr : List ReadObs) (x : Reads) : Prop where
  clock : ∀ reg name u, x.cached reg name = some u → u ≤ x.clock
  stored : ∀ reg p name e, x.daemon.projects reg = some p → p.cache.stored name = some e →
    ∃ u, x.cached reg name = some u ∧ ReadAt env name e.value u
  answered : ∀ q name value t, .answered q name value t ∈ tr → Answer env ver tr x q name value t ∧
    ∃ conn, x.daemon.conns q.conn = some conn ∧
      (q.seq < conn.served ∨ q.seq = conn.served ∧ conn.pc ≠ .reading)
  conn : ∀ c conn, x.daemon.conns c = some conn →
    Holds env ver tr x ⟨c, conn.served⟩ conn.pc

end

section
variable {env : Env} {ver : String → Instant → Nat} {tr o : List ReadObs} {x y : Reads}
  {q : RequestId} {name : String} {k : Nat}

theorem Floor.append (h : Floor ver tr q name k) (ho : .asked q name ∉ o) :
    Floor ver (tr ++ o) q name k := by
  intro pre q' value t hpre hmem hreg
  rcases Machine.concat_prefix_append_cases hpre with hold | ⟨r, -, hr⟩
  · exact h pre q' value t hold hmem hreg
  · exact absurd (Machine.mem_of_prefix_concat hr) ho

theorem Floor.mono {k' : Nat} (h : Floor ver tr q name k) (hk : k ≤ k') :
    Floor ver tr q name k' :=
  fun pre q' value t hpre hmem hreg => (h pre q' value t hpre hmem hreg).trans hk

/-- What is stored now is not older than anything answered so far. -/
theorem Forward.floor_cached (h : Forward env ver tr x) {u : Instant}
    (hu : x.cached q.conn.reg name = some u) : Floor ver tr q name (ver name u) := by
  intro pre q' value t hpre hmem hreg
  have hmem' := ((List.prefix_append pre _).trans hpre).subset hmem
  obtain ⟨u', hu', hle⟩ := (h.answered q' name value t hmem').1.stored
  rw [hreg, hu] at hu'
  cases hu'
  exact hle

theorem Forward.floor_clock (h : Forward env ver tr x) (hver : Monotone (ver name)) :
    Floor ver tr q name (ver name x.clock) := by
  intro pre q' value t hpre hmem hreg
  have hmem' := ((List.prefix_append pre _).trans hpre).subset hmem
  obtain ⟨u, hu, hle⟩ := (h.answered q' name value t hmem').1.stored
  exact hle.trans (hver (h.clock _ _ u hu))

/-- `y` has the notes of `x` for a connection, and no older version in the caches. -/
structure SameNotes (ver : String → Instant → Nat) (x y : Reads) (c : ConnId) : Prop where
  asked : y.asked c = x.asked c
  called : y.called c = x.called c
  source : y.source c = x.source c
  clock : x.clock ≤ y.clock
  cached : ∀ reg name t, StoredSince ver x reg name t → StoredSince ver y reg name t

theorem Answer.mono {value : Option String} {t : Instant} (h : Answer env ver tr x q name value t)
    (hcached : ∀ reg name t, StoredSince ver x reg name t → StoredSince ver y reg name t)
    (ho : .asked q name ∉ o) : Answer env ver (tr ++ o) y q name value t :=
  ⟨h.read, hcached _ _ _ h.stored, h.floor.append ho⟩

theorem Holds.mono {pc : ConnPc} (h : Holds env ver tr x q pc) (hsame : SameNotes ver x y q.conn)
    (ho : ∀ name, .asked q name ∉ o) : Holds env ver (tr ++ o) y q pc := by
  cases pc with
  | reading => trivial
  | closed => trivial
  | dispatching line start => exact fun name hname => hsame.asked.trans (h name hname)
  | lookingUp name start => exact hsame.asked.trans h
  | calling name start => exact hsame.asked.trans h
  | awaiting name start session =>
    obtain ⟨hasked, hcalled, hfloor⟩ := h
    refine ⟨hsame.asked.trans hasked, ?_, ?_⟩
    · rw [hsame.called]
      exact hcalled.trans hsame.clock
    · rw [hsame.called]
      exact hfloor.append (ho name)
  | inserting name start value =>
    obtain ⟨hasked, hsource, hread, hfloor⟩ := h
    rw [Holds, hsame.source]
    exact ⟨hsame.asked.trans hasked, hsource.trans hsame.clock, hread, hfloor.append (ho name)⟩
  | readingTtl name start value =>
    obtain ⟨hasked, hanswer⟩ := h
    rw [Holds, hsame.source]
    exact ⟨hsame.asked.trans hasked, hanswer.mono hsame.cached (ho name)⟩
  | emitting event r | responding r | writing r =>
    intro g hg
    rw [hsame.source, hsame.asked]
    exact (h g hg).mono hsame.cached (ho _)

theorem SameNotes.daemon {c : ConnId} {s : Daemon} : SameNotes ver x { x with daemon := s } c :=
  ⟨rfl, rfl, rfl, Nat.le_refl _, fun _ _ _ h => h⟩

theorem Holds.same {pc : ConnPc} (h : Holds env ver tr x q pc) (hsame : SameNotes ver x y q.conn) :
    Holds env ver tr y q pc := by
  have hholds := h.mono (o := []) hsame fun _ => List.not_mem_nil
  rwa [List.append_nil] at hholds

theorem Forward.initial {backend : Option Session} {stale : Daemon.Stale} :
    Forward env ver [] (Reads.start env backend stale) := by
  constructor <;> simp [Reads.start, Daemon.init]

theorem Forward.answered_append (h : Forward env ver tr x)
    (hcached : ∀ reg name t, StoredSince ver x reg name t → StoredSince ver y reg name t)
    (ho : ∀ q name value t, .answered q name value t ∈ tr → .asked q name ∉ o)
    (hconns : ∀ c conn, x.daemon.conns c = some conn → ∃ conn', y.daemon.conns c = some conn' ∧
      (conn.served < conn'.served ∨ conn.served = conn'.served ∧
        (conn.pc ≠ .reading → conn'.pc ≠ .reading)))
    {value : Option String} {t : Instant} (hmem : .answered q name value t ∈ tr) :
    Answer env ver (tr ++ o) y q name value t ∧ ∃ conn, y.daemon.conns q.conn = some conn ∧
      (q.seq < conn.served ∨ q.seq = conn.served ∧ conn.pc ≠ .reading) := by
  obtain ⟨hanswer, conn, hconn, hseq⟩ := h.answered q name value t hmem
  refine ⟨hanswer.mono hcached (ho q name value t hmem), ?_⟩
  obtain ⟨conn', hconn', hserved | ⟨hserved, hpc⟩⟩ := hconns q.conn conn hconn
  · exact ⟨conn', hconn', .inl (by omega)⟩
  · refine ⟨conn', hconn', hseq.imp (by omega) ?_⟩
    exact fun ⟨heq, hne⟩ => ⟨heq.trans hserved, hpc hne⟩

/-- Steps that are not of a connection leave the notes alone. -/
theorem Forward.frame (h : Forward env ver tr x) {a : Action} {s : Daemon} {obs : List Obs}
    (step : DaemonStep env x.daemon a s obs) (ha : ∀ c b, a ≠ .conn c b) :
    Forward env ver tr { x with daemon := s } := by
  constructor
  · exact h.clock
  · intro reg p name e hp hstored
    obtain ⟨old, hold, hentry⟩ := step.stored_before ha hp hstored
    exact h.stored reg old name e hold hentry
  · intro q name value t hmem
    have hanswer := h.answered_append (o := []) (y := { x with daemon := s }) (fun _ _ _ h => h)
      (fun _ _ _ _ _ => List.not_mem_nil) ?_ hmem
    · rwa [List.append_nil] at hanswer
    · intro c conn hconn
      have hc := step.connChange ha c
      rw [hconn] at hc
      generalize hnew : s.conns c = new at hc
      cases hc with
      | same => exact ⟨conn, rfl, .inr ⟨rfl, id⟩⟩
      | marked => exact ⟨_, rfl, .inr ⟨rfl, id⟩⟩
      | dropped => exact ⟨_, rfl, .inr ⟨rfl, fun _ => by simp [Conn.close]⟩⟩
  · intro c conn hconn
    rcases step.conn_before ha hconn with ⟨_, hold⟩ | hpc | hpc
    · exact (h.conn c _ hold).same .daemon
    · rw [hpc]
      trivial
    · rw [hpc]
      trivial

theorem Forward.tick (h : Forward env ver tr x) {now : Instant} (hnow : x.clock ≤ now) :
    Forward env ver tr { x with clock := now } := by
  refine ⟨fun reg name u hu => (h.clock reg name u hu).trans hnow, h.stored, ?_, ?_⟩
  · intro q name value t hmem
    obtain ⟨hanswer, hseen⟩ := h.answered q name value t hmem
    exact ⟨⟨hanswer.read, hanswer.stored, hanswer.floor⟩, hseen⟩
  · intro c conn hconn
    exact (h.conn c conn hconn).same ⟨rfl, rfl, rfl, hnow, fun _ _ _ h => h⟩

/-- What a step of a connection has to keep: the notes of the other connections, the caches, and
where the connection itself stands. -/
structure ConnKeeps (env : Env) (ver : String → Instant → Nat) (tr o : List ReadObs) (x y : Reads)
    (c : ConnId) (conn conn' : Conn) : Prop where
  others : ∀ d, d ≠ c → SameNotes ver x y d
  clock : ∀ reg name u, y.cached reg name = some u → u ≤ y.clock
  cached : ∀ reg name t, StoredSince ver x reg name t → StoredSince ver y reg name t
  stored : ∀ reg p name e, y.daemon.projects reg = some p → p.cache.stored name = some e →
    ∃ u, y.cached reg name = some u ∧ ReadAt env name e.value u
  served : conn.served < conn'.served ∨ conn.served = conn'.served ∧
    (conn.pc ≠ .reading → conn'.pc ≠ .reading)
  asked : ∀ q name, .asked q name ∈ o → q = ⟨c, conn.served⟩ ∧ conn.pc = .reading
  answered : ∀ q name value t, .answered q name value t ∈ o →
    q = ⟨c, conn.served⟩ ∧ conn.served = conn'.served ∧ conn'.pc ≠ .reading ∧
      Answer env ver (tr ++ o) y q name value t
  holds : Holds env ver (tr ++ o) y ⟨c, conn'.served⟩ conn'.pc

theorem Forward.conn_step (h : Forward env ver tr x) {c : ConnId} {conn conn' : Conn}
    (task : x.daemon.conns c = some conn)
    (hconns : y.daemon.conns = Function.update x.daemon.conns c (some conn'))
    (keeps : ConnKeeps env ver tr o x y c conn conn') : Forward env ver (tr ++ o) y := by
  have hself : y.daemon.conns c = some conn' := by rw [hconns, Function.update_self]
  refine ⟨keeps.clock, keeps.stored, ?_, ?_⟩
  · intro q name value t hmem
    rcases List.mem_append.mp hmem with hmem | hmem
    · refine h.answered_append keeps.cached ?_ ?_ hmem
      · intro q name value t hmem hasked
        obtain ⟨rfl, hreading⟩ := keeps.asked q name hasked
        obtain ⟨-, conn'', hconn'', hseq⟩ := h.answered _ name value t hmem
        rw [task] at hconn''
        cases hconn''
        rcases hseq with hlt | ⟨-, hne⟩
        · exact absurd hlt (Nat.lt_irrefl _)
        · exact hne hreading
      · intro d conn'' hd
        by_cases hdc : d = c
        · subst hdc
          rw [task] at hd
          cases hd
          exact ⟨conn', hself, keeps.served⟩
        · exact ⟨conn'', by rw [hconns, Function.update_of_ne hdc, hd], .inr ⟨rfl, id⟩⟩
    · obtain ⟨rfl, hserved, hpc, hanswer⟩ := keeps.answered q name value t hmem
      exact ⟨hanswer, conn', hself, .inr ⟨hserved, hpc⟩⟩
  · intro d conn'' hd
    by_cases hdc : d = c
    · subst hdc
      rw [hself] at hd
      cases hd
      exact keeps.holds
    · rw [hconns, Function.update_of_ne hdc] at hd
      refine (h.conn d conn'' hd).mono (keeps.others d hdc) fun name hasked => ?_
      obtain ⟨heq, -⟩ := keeps.asked _ name hasked
      exact hdc (congrArg RequestId.conn heq)

/-- A step that leaves the notes of the caches alone and puts nothing into the cache. -/
theorem Forward.keeps (h : Forward env ver tr x) {c : ConnId} {conn conn' : Conn} {p p' : Project}
    (project : x.daemon.projects c.reg = some p)
    (hprojects : y.daemon.projects = Function.update x.daemon.projects c.reg (some p'))
    (hcache : ∀ name e, p'.cache.stored name = some e → p.cache.stored name = some e)
    (hclock : y.clock = x.clock) (hcached : y.cached = x.cached)
    (hother : ∀ d, d ≠ c →
      y.asked d = x.asked d ∧ y.called d = x.called d ∧ y.source d = x.source d)
    (served : conn.served < conn'.served ∨ conn.served = conn'.served ∧
      (conn.pc ≠ .reading → conn'.pc ≠ .reading))
    (asked : ∀ q name, .asked q name ∈ o → q = ⟨c, conn.served⟩ ∧ conn.pc = .reading)
    (answered : ∀ q name value t, .answered q name value t ∈ o →
      q = ⟨c, conn.served⟩ ∧ conn.served = conn'.served ∧ conn'.pc ≠ .reading ∧
        Answer env ver (tr ++ o) y q name value t)
    (holds : Holds env ver (tr ++ o) y ⟨c, conn'.served⟩ conn'.pc) :
    ConnKeeps env ver tr o x y c conn conn' := by
  have hsince : ∀ reg name t, StoredSince ver x reg name t → StoredSince ver y reg name t := by
    intro reg name t ht
    rwa [StoredSince, hcached]
  refine ⟨?_, ?_, hsince, ?_, served, asked, answered, holds⟩
  · intro d hd
    obtain ⟨hasked, hcalled, hsource⟩ := hother d hd
    exact ⟨hasked, hcalled, hsource, hclock.ge, hsince⟩
  · rw [hcached, hclock]
    exact h.clock
  · intro reg q name e hq hstored
    rw [hcached]
    rw [hprojects] at hq
    rcases Function.update_some_cases hq with ⟨rfl, rfl⟩ | ⟨-, hold⟩
    · exact h.stored c.reg p name e project (hcache name e hstored)
    · exact h.stored reg q name e hold hstored

theorem dispatchProject_ne_reading {p : Project} {line : ProjectLine} {start : Instant} :
    dispatchProject env p line start ≠ .reading := by
  rcases dispatchProject_cases env p line start with ⟨r, heq⟩ | ⟨event, r, heq⟩ | ⟨name, heq⟩
  all_goals simp [heq]

theorem Holds.dispatch {p : Project} {line : ProjectLine} {start : Instant}
    (h : Holds env ver tr x q (.dispatching line start)) :
    Holds env ver tr x q (dispatchProject env p line start) := by
  unfold dispatchProject
  split
  · exact fun g hg => by cases hg
  · exact fun g hg => by cases hg
  · exact fun g hg => by cases hg
  · split
    · exact h _ rfl
    · exact fun g hg => by cases hg

theorem Forward.received (h : Forward env ver tr x) {c : ConnId} {conn : Conn} {p : Project}
    {line : ProjectLine} {start : Instant} {s : Daemon} (pc : conn.pc = .reading)
    (project : x.daemon.projects c.reg = some p)
    (hprojects : s.projects = Function.update x.daemon.projects c.reg (some p))
    (hnote : x.noteConn c (.receive line start) = some y) :
    ConnKeeps env ver tr ([Obs.received ⟨c, conn.served⟩ line].filterMap x.shown) x
      { y with daemon := s } c conn { conn with pc := .dispatching line start } := by
  have hserved : conn.served < conn.served ∨ conn.served = conn.served ∧
      (conn.pc ≠ .reading → ConnPc.dispatching line start ≠ .reading) :=
    .inr ⟨rfl, fun _ => by simp⟩
  have hget : ∀ name, line = .ok (.get name) → ConnKeeps env ver tr
      ([Obs.received ⟨c, conn.served⟩ line].filterMap x.shown) x { y with daemon := s } c conn
        { conn with pc := .dispatching line start } := by
    rintro name rfl
    cases hnote
    refine h.keeps project hprojects (fun _ _ h => h) rfl rfl ?_ hserved ?_ ?_ ?_
    · exact fun d hd => ⟨Function.update_of_ne hd .., rfl, rfl⟩
    · intro q name' hmem
      obtain ⟨rfl, rfl⟩ : q = ⟨c, conn.served⟩ ∧ name' = name := by
        simpa [Reads.shown] using hmem
      exact ⟨rfl, pc⟩
    · intro q name' value t hmem
      simp [Reads.shown] at hmem
    · intro name' heq
      cases heq
      exact Function.update_self ..
  have hother : (∀ name, line ≠ .ok (.get name)) → ConnKeeps env ver tr
      ([Obs.received ⟨c, conn.served⟩ line].filterMap x.shown) x { y with daemon := s } c conn
        { conn with pc := .dispatching line start } := by
    intro hline
    have hsame : y = x ∧ [Obs.received ⟨c, conn.served⟩ line].filterMap x.shown = [] := by
      cases line with
      | error e => exact ⟨(Option.some.inj hnote).symm, rfl⟩
      | ok r =>
        cases r with
        | get name => exact absurd rfl (hline name)
        | ping => exact ⟨(Option.some.inj hnote).symm, rfl⟩
        | info => exact ⟨(Option.some.inj hnote).symm, rfl⟩
    obtain ⟨rfl, hnone⟩ := hsame
    rw [hnone]
    refine h.keeps project hprojects (fun _ _ h => h) rfl rfl (fun _ _ => ⟨rfl, rfl, rfl⟩) hserved
      (fun _ _ hmem => absurd hmem List.not_mem_nil)
      (fun _ _ _ _ hmem => absurd hmem List.not_mem_nil) fun name heq => absurd heq (hline name)
  by_cases hline : ∃ name, line = .ok (.get name)
  · obtain ⟨name, heq⟩ := hline
    exact hget name heq
  · exact hother fun name heq => hline ⟨name, heq⟩

/-- The steps between the receipt of a request and its answer show nothing. -/
theorem Forward.silent (h : Forward env ver tr x) {c : ConnId} {conn conn' : Conn} {p p' : Project}
    (project : x.daemon.projects c.reg = some p)
    (hprojects : y.daemon.projects = Function.update x.daemon.projects c.reg (some p'))
    (hcache : ∀ name e, p'.cache.stored name = some e → p.cache.stored name = some e)
    (hclock : y.clock = x.clock) (hcached : y.cached = x.cached)
    (hother : ∀ d, d ≠ c →
      y.asked d = x.asked d ∧ y.called d = x.called d ∧ y.source d = x.source d)
    (served : conn.served < conn'.served ∨ conn.served = conn'.served ∧
      (conn.pc ≠ .reading → conn'.pc ≠ .reading))
    (holds : Holds env ver tr y ⟨c, conn'.served⟩ conn'.pc) :
    ConnKeeps env ver tr [] x y c conn conn' :=
  h.keeps project hprojects hcache hclock hcached hother served
    (fun _ _ hmem => absurd hmem List.not_mem_nil)
    (fun _ _ _ _ hmem => absurd hmem List.not_mem_nil) (by rwa [List.append_nil])

/-- A lookup answers with what was stored last, or finds nothing. -/
theorem Forward.lookUp (h : Forward env ver tr x) {c : ConnId} {p : Project} {s : Daemon}
    {start now : Instant} (project : x.daemon.projects c.reg = some p) (hq : q.conn = c)
    (hasked : x.asked c = name) :
    Holds env ver tr { x with
        daemon := s
        source := Function.update x.source c ((x.cached c.reg (x.asked c)).getD 0) } q
      (afterLookup name start (p.cache.get name now).2) := by
  subst hq hasked
  cases hhit : (p.cache.get (x.asked q.conn) now).2 with
  | none => rfl
  | some hit =>
    intro g hg
    cases hg
    obtain ⟨e, hstored, -, hvalue, -⟩ := BoundedCache.get_hit hhit
    obtain ⟨u, hu, hread⟩ := h.stored _ p _ e project hstored
    have hsource : Function.update x.source q.conn
        ((x.cached q.conn.reg (x.asked q.conn)).getD 0) q.conn = u := by
      rw [Function.update_self, hu]
      rfl
    show Answer env ver tr _ q (x.asked q.conn) (some hit.value) (Function.update x.source q.conn
      ((x.cached q.conn.reg (x.asked q.conn)).getD 0) q.conn)
    rw [hsource, hvalue]
    exact ⟨⟨e.value, rfl, hread⟩, ⟨u, hu, Nat.le_refl _⟩, h.floor_cached hu⟩

/-- A call returns a version that is not older than the one of its start. -/
theorem Holds.return {name : String} {start at_ : Instant} {session : Session} {s : Daemon}
    (hver : Monotone (ver name)) (h : Holds env ver tr x q (.awaiting name start session))
    (hstart : x.called q.conn ≤ at_) (hend : at_ ≤ x.clock) :
    Holds env ver tr { x with daemon := s, source := Function.update x.source q.conn at_ } q
      (afterReturn env name start (env.fnox session name at_)) := by
  obtain ⟨hasked, -, hfloor⟩ := h
  cases hanswer : env.fnox session name at_ with
  | error msg => exact fun g hg => by cases hg
  | ok found =>
    cases found with
    | none => exact fun g hg => by cases hg
    | some value =>
      show x.asked q.conn = name ∧ Function.update x.source q.conn at_ q.conn ≤ x.clock ∧
        ReadAt env name value (Function.update x.source q.conn at_ q.conn) ∧
        Floor ver tr q name (ver name (Function.update x.source q.conn at_ q.conn))
      rw [Function.update_self]
      exact ⟨hasked, hend, ⟨session, hanswer⟩, hfloor.mono (hver hstart)⟩

theorem Reads.stored_self {c : ConnId} : x.stored c c.reg (x.asked c) = some (x.source c) := by
  rw [Reads.stored, Function.update_self, Function.update_self]

theorem Reads.stored_other {c : ConnId} {reg : RegId} (h : ¬ (reg = c.reg ∧ name = x.asked c)) :
    x.stored c reg name = x.cached reg name := by
  by_cases hreg : reg = c.reg
  · subst hreg
    rw [Reads.stored, Function.update_self, Function.update_of_ne fun hname => h ⟨rfl, hname⟩]
  · rw [Reads.stored, Function.update_of_ne hreg]

/-- An insertion that does not go back keeps what was known about the cache. -/
theorem Forward.inserted (h : Forward env ver tr x) {c : ConnId} {conn : Conn} {p : Project}
    {s : Daemon} {start now : Instant} {value front : String}
    (pc : conn.pc = .inserting name start value) (task : x.daemon.conns c = some conn)
    (project : x.daemon.projects c.reg = some p)
    (hprojects : s.projects = Function.update x.daemon.projects c.reg
      (some { p with cache := p.cache.insert name value none now front }))
    (hforward : ∀ t, x.cached c.reg (x.asked c) = some t →
      ver (x.asked c) t ≤ ver (x.asked c) (x.source c)) :
    ConnKeeps env ver tr [] x { x with daemon := s, cached := x.stored c } c conn
      { conn with pc := .readingTtl name start value } := by
  have hholds := h.conn c conn task
  rw [pc] at hholds
  obtain ⟨hasked, hsource, hread, hfloor⟩ := hholds
  have hsince : ∀ reg n t, StoredSince ver x reg n t →
      StoredSince ver { x with daemon := s, cached := x.stored c } reg n t := by
    rintro reg n t ⟨u, hu, hle⟩
    by_cases hself : reg = c.reg ∧ n = x.asked c
    · obtain ⟨rfl, rfl⟩ := hself
      exact ⟨x.source c, Reads.stored_self, hle.trans (hforward u hu)⟩
    · exact ⟨u, (Reads.stored_other hself).trans hu, hle⟩
  refine ⟨fun d _ => ⟨rfl, rfl, rfl, Nat.le_refl _, hsince⟩, ?_, hsince, ?_,
    .inr ⟨rfl, fun _ => by simp⟩, fun _ _ hmem => absurd hmem List.not_mem_nil,
    fun _ _ _ _ hmem => absurd hmem List.not_mem_nil, ?_⟩
  · intro reg n u hu
    by_cases hself : reg = c.reg ∧ n = x.asked c
    · obtain ⟨rfl, rfl⟩ := hself
      cases Reads.stored_self.symm.trans hu
      exact hsource
    · exact h.clock reg n u ((Reads.stored_other hself).symm.trans hu)
  · intro reg q n e hq hstored
    rw [hprojects] at hq
    by_cases hself : reg = c.reg ∧ n = x.asked c
    · obtain ⟨rfl, rfl⟩ := hself
      rw [Function.update_self] at hq
      cases hq
      rw [hasked, BoundedCache.stored_insert_self] at hstored
      cases hstored
      exact ⟨x.source c, Reads.stored_self, hasked.symm ▸ hread⟩
    · obtain ⟨u, hu, hreadu⟩ : ∃ u, x.cached reg n = some u ∧ ReadAt env n e.value u := by
        rcases Function.update_some_cases hq with ⟨rfl, rfl⟩ | ⟨-, hold⟩
        · rcases BoundedCache.stored_insert hstored with ⟨rfl, -⟩ | hold
          · exact absurd ⟨rfl, hasked.symm⟩ hself
          · exact h.stored c.reg p n e project hold
        · exact h.stored reg q n e hold hstored
      exact ⟨u, (Reads.stored_other hself).trans hu, hreadu⟩
  · rw [List.append_nil]
    exact ⟨hasked, ⟨value, rfl, hread⟩, ⟨x.source c, hasked ▸ Reads.stored_self, Nat.le_refl _⟩,
      hfloor⟩

/-- The write of a value answers its request. -/
theorem Forward.started (h : Forward env ver tr x) {c : ConnId} {conn : Conn} {p : Project}
    {s : Daemon} {response : ProjectResponse} (pc : conn.pc = .responding response)
    (task : x.daemon.conns c = some conn) (project : x.daemon.projects c.reg = some p)
    (hprojects : s.projects = Function.update x.daemon.projects c.reg (some p)) :
    ConnKeeps env ver tr ([Obs.writing ⟨c, conn.served⟩ response].filterMap x.shown) x
      { x with daemon := s } c conn { conn with pc := .writing response } := by
  have hholds := h.conn c conn task
  rw [pc] at hholds
  have hnone : ∀ q name,
      .asked q name ∉ [Obs.writing ⟨c, conn.served⟩ response].filterMap x.shown := by
    intro q name hmem
    cases response <;> simp [Reads.shown] at hmem
  refine h.keeps project hprojects (fun _ _ h => h) rfl rfl (fun _ _ => ⟨rfl, rfl, rfl⟩)
    (.inr ⟨rfl, fun _ => by simp⟩) (fun q name hmem => absurd hmem (hnone q name)) ?_
    (Holds.mono hholds .daemon (hnone _) : Holds env ver _ _ _ (.writing response))
  intro q name value t hmem
  cases response with
  | get g =>
    obtain ⟨rfl, rfl, rfl, rfl⟩ : q = ⟨c, conn.served⟩ ∧ name = x.asked c ∧ value = g.value ∧
        t = x.source c := by simpa [Reads.shown] using hmem
    exact ⟨rfl, rfl, by simp, (hholds g rfl).mono (fun _ _ _ h => h) (hnone _ _)⟩
  | ping | info | error => simp [Reads.shown] at hmem

theorem Forward.connection (hver : ∀ name, Monotone (ver name)) (h : Forward env ver tr x)
    {c : ConnId} {a : ConnAction} {conn conn' : Conn} {p p' : Project} {obs : List Obs} {s : Daemon}
    (hforward : storesForward ver x (.act (.conn c a)) = true)
    (task : x.daemon.conns c = some conn) (project : x.daemon.projects c.reg = some p)
    (step : ConnStep env x.daemon.backend ⟨c, conn.served⟩ p conn a p' conn' obs)
    (hprojects : s.projects = Function.update x.daemon.projects c.reg (some p'))
    (hnote : x.noteConn c a = some y) :
    ConnKeeps env ver tr (obs.filterMap x.shown) x { y with daemon := s } c conn conn' := by
  have hholds := h.conn c conn task
  have hkeep : ∀ name e, p.cache.stored name = some e → p.cache.stored name = some e :=
    fun _ _ h => h
  cases step with
  | received pc => exact h.received pc project hprojects hnote
  | dispatched pc =>
    cases hnote
    rw [pc] at hholds
    exact h.silent project hprojects hkeep rfl rfl (fun _ _ => ⟨rfl, rfl, rfl⟩)
      (.inr ⟨rfl, fun _ => dispatchProject_ne_reading⟩) (hholds.dispatch.same .daemon)
  | @lookedUp name start now pc =>
    cases hnote
    rw [pc] at hholds
    refine h.silent project hprojects (fun _ _ => BoundedCache.stored_get) rfl rfl ?_
      (.inr ⟨rfl, fun _ => ?_⟩) (h.lookUp project rfl hholds)
    · exact fun d hd => ⟨rfl, rfl, Function.update_of_ne hd ..⟩
    · show afterLookup name start _ ≠ .reading
      cases (p.cache.get name now).2 <;> simp [afterLookup]
  | noSession pc degraded =>
    cases hnote
    exact h.silent project hprojects hkeep rfl rfl
      (fun d hd => ⟨rfl, Function.update_of_ne hd .., rfl⟩) (.inr ⟨rfl, fun _ => by simp⟩)
      fun g hg => by cases hg
  | @called name start session pc configured =>
    cases hnote
    rw [pc] at hholds
    refine h.silent project hprojects hkeep rfl rfl
      (fun d hd => ⟨rfl, Function.update_of_ne hd .., rfl⟩) (.inr ⟨rfl, fun _ => by simp⟩) ?_
    show x.asked c = name ∧ Function.update x.called c x.clock c ≤ x.clock ∧
      Floor ver tr ⟨c, conn.served⟩ name (ver name (Function.update x.called c x.clock c))
    rw [Function.update_self]
    exact ⟨hholds, Nat.le_refl _, h.floor_clock (hver name)⟩
  | @returned name start session at_ pc =>
    rw [pc] at hholds
    obtain ⟨⟨hstart, hend⟩, heq⟩ := Option.ite_none_right_eq_some.mp hnote
    cases heq
    refine h.silent project hprojects hkeep rfl rfl ?_ (.inr ⟨rfl, fun _ => ?_⟩)
      (hholds.return (hver name) hstart hend)
    · exact fun d hd => ⟨rfl, rfl, Function.update_of_ne hd ..⟩
    · show afterReturn env name start (env.fnox session name at_) ≠ .reading
      unfold afterReturn
      split <;> simp
  | inserted pc =>
    cases hnote
    refine h.inserted pc task project hprojects fun t ht => ?_
    rw [storesForward, ht] at hforward
    exact of_decide_eq_true hforward
  | readTtl pc =>
    cases hnote
    rw [pc] at hholds
    obtain ⟨hasked, hanswer⟩ := hholds
    refine h.silent project hprojects hkeep rfl rfl (fun _ _ => ⟨rfl, rfl, rfl⟩)
      (.inr ⟨rfl, fun _ => by simp⟩) fun g hg => ?_
    cases hg
    show Answer env ver tr _ _ (x.asked c) _ _
    rw [hasked]
    exact ⟨hanswer.read, hanswer.stored, hanswer.floor⟩
  | emitted pc =>
    cases hnote
    rw [pc] at hholds
    exact h.silent project hprojects hkeep rfl rfl (fun _ _ => ⟨rfl, rfl, rfl⟩)
      (.inr ⟨rfl, fun _ => by simp⟩) (Holds.same hholds .daemon)
  | started pc =>
    cases hnote
    exact h.started pc task project hprojects
  | answered pc =>
    cases hnote
    exact h.silent project hprojects hkeep rfl rfl (fun _ _ => ⟨rfl, rfl, rfl⟩)
      (.inl (Nat.lt_succ_self _)) trivial
  | closed =>
    cases hnote
    exact h.silent project hprojects hkeep rfl rfl (fun _ _ => ⟨rfl, rfl, rfl⟩)
      (.inr ⟨rfl, fun _ => by simp [Conn.close]⟩) trivial

theorem Reads.note_other {a : Action} (ha : ∀ c b, a ≠ .conn c b) : x.note a = some x := by
  cases a with
  | conn c b => exact absurd rfl (ha c b)
  | admin | loop | rotate | status | writer => rfl

theorem Reads.shown_other {obs : List Obs} (h : ∀ q, ofRequest q obs = []) :
    obs.filterMap x.shown = [] := by
  refine List.filterMap_eq_nil_iff.mpr fun ob hob => ?_
  have hnone : ob.request = none := by
    cases hr : ob.request with
    | none => rfl
    | some q =>
      have hmem : ob ∈ ofRequest q obs := mem_ofRequest.mpr ⟨hob, hr⟩
      rw [h q] at hmem
      cases hmem
  cases ob with
  | received | writing => cases hnone
  | _ => rfl

theorem Forward.step (hver : ∀ name, Monotone (ver name)) (h : Forward env ver tr x)
    {a : ReadsAction} (hforward : storesForward ver x a = true)
    (hstep : Reads.step env x a = some (y, o)) : Forward env ver (tr ++ o) y := by
  cases a with
  | tick now =>
    obtain ⟨hnow, heq⟩ := Option.ite_none_right_eq_some.mp hstep
    cases heq
    rw [List.append_nil]
    exact h.tick hnow
  | act a =>
    simp only [Reads.step] at hstep
    split at hstep
    · rename_i s obs z hs hnote
      cases hstep
      have step := step_cases hs
      rcases a.conn_or with ⟨c, b, rfl⟩ | hother
      · cases step with
        | conn task project step =>
          exact h.conn_step task rfl (h.connection hver hforward task project step rfl hnote)
      · rw [Reads.note_other hother] at hnote
        cases hnote
        rw [Reads.shown_other fun q => step.ofRequest_eq hother, List.append_nil]
        exact h.frame step hother
    · cases hstep

/-- In every run in which no `get` stores an older version of a name than the one stored before it
on its registration, a `get` that comes after another one was answered is not answered with an older
version. -/
theorem run_reads_forward (hver : ∀ name, Monotone (ver name)) {backend : Option Session}
    {stale : Daemon.Stale} {as : List ReadsAction}
    (hforward : Machine.Along (Reads.step env) (fun x a => storesForward ver x a = true)
      (Reads.start env backend stale) as)
    (hrun : Machine.exec (Reads.step env) (Reads.start env backend stale) as = some (x, tr)) :
    (∀ q name value t, .answered q name value t ∈ tr →
      ∃ v session, value = some v ∧ env.fnox session name t = .ok (some v)) ∧
    ∀ q q' name value value' t t' pre, q.conn.reg = q'.conn.reg → .answered q name value t ∈ pre →
      pre ++ [.asked q' name] <+: tr → .answered q' name value' t' ∈ tr →
      ver name t ≤ ver name t' := by
  have h : Forward env ver tr x :=
    Machine.exec_induction_along Forward.initial
      (fun _ _ _ _ _ h hforward hstep => h.step hver hforward hstep) hforward hrun
  constructor
  · intro q name value t hmem
    obtain ⟨v, hvalue, session, hread⟩ := (h.answered q name value t hmem).1.read
    exact ⟨v, session, hvalue, hread⟩
  · intro q q' name value value' t t' pre hreg hbefore hasked hafter
    exact (h.answered q' name value' t' hafter).1.floor pre q value t hasked hbefore hreg

end

/-- The secret is rotated at instant 5. -/
def rotatedEnv : Env :=
  { webEnv with fnox := fun _ _ t => .ok (some (if t < 5 then "old" else "new")) }

def rotatedVersion (_ : String) (t : Instant) : Nat := if t < 5 then 0 else 1

theorem rotatedVersion_monotone (name : String) : Monotone (rotatedVersion name) := by
  intro t t' hle
  show (if t < 5 then 0 else 1) ≤ if t' < 5 then 0 else 1
  split
  · exact Nat.zero_le _
  · rename_i hnew
    rw [if_neg (Nat.not_lt.mpr (Nat.le_trans (Nat.not_lt.mp hnew) hle))]

/-- A `get` that misses the cache and has its answer from the backend. -/
def missed (c : ConnId) (now : Instant) : List Action :=
  [.receive (.ok (.get "A")) now, .dispatch, .lookUp now, .call, .return now].map (.conn c)

def storedAndAnswered (c : ConnId) (now : Instant) : List Action :=
  [.insert now "", .readTtl, .emit now 0, .startWrite, .finishWrite].map (.conn c)

/-- Two connections miss the cache; the first has read the old value when the secret is rotated. -/
def twoMisses : List ReadsAction :=
  (Action.register ⟨"web", 0⟩ "/srv/web" "web" 0 ++ Action.connect ⟨⟨"web", 0⟩, 0⟩ ++
    Action.connect ⟨⟨"web", 0⟩, 1⟩ ++ missed ⟨⟨"web", 0⟩, 0⟩ 0).map .act ++
  .tick 5 :: (missed ⟨⟨"web", 0⟩, 1⟩ 5).map .act

/-- The old value is stored first. -/
def inOrderRun : List ReadsAction :=
  twoMisses ++ (storedAndAnswered ⟨⟨"web", 0⟩, 0⟩ 6 ++ storedAndAnswered ⟨⟨"web", 0⟩, 1⟩ 7 ++
    Action.hit ⟨⟨"web", 0⟩, 0⟩ "A" 8).map .act

theorem run_reads_forward_in_order : ∃ x tr pre,
    Machine.exec (Reads.step rotatedEnv) (Reads.start rotatedEnv (some 0) fun _ => none)
      inOrderRun = some (x, tr) ∧
    .answered ⟨⟨⟨"web", 0⟩, 0⟩, 0⟩ "A" (some "old") 0 ∈ pre ∧
    pre ++ [.asked ⟨⟨⟨"web", 0⟩, 0⟩, 1⟩ "A"] <+: tr ∧
    .answered ⟨⟨⟨"web", 0⟩, 0⟩, 1⟩ "A" (some "new") 5 ∈ tr ∧
    rotatedVersion "A" 0 ≤ rotatedVersion "A" 5 := by
  have hfacts : (Machine.exec (Reads.step rotatedEnv) (Reads.start rotatedEnv (some 0)
      fun _ => none) inOrderRun).map Prod.snd = some
      [.asked ⟨⟨⟨"web", 0⟩, 0⟩, 0⟩ "A", .asked ⟨⟨⟨"web", 0⟩, 1⟩, 0⟩ "A",
        .answered ⟨⟨⟨"web", 0⟩, 0⟩, 0⟩ "A" (some "old") 0,
        .answered ⟨⟨⟨"web", 0⟩, 1⟩, 0⟩ "A" (some "new") 5, .asked ⟨⟨⟨"web", 0⟩, 0⟩, 1⟩ "A",
        .answered ⟨⟨⟨"web", 0⟩, 0⟩, 1⟩ "A" (some "new") 5] := by decide +kernel
  obtain ⟨⟨x, tr⟩, hrun, htr⟩ := Option.map_eq_some_iff.mp hfacts
  have hforward := run_reads_forward rotatedVersion_monotone
    (Machine.along_checked (by decide +kernel)) hrun
  have hbefore : .answered ⟨⟨⟨"web", 0⟩, 0⟩, 0⟩ "A" (some "old") 0 ∈ tr.take 4 := by
    rw [show tr = _ from htr]
    decide
  have hasked : tr.take 4 ++ [.asked ⟨⟨⟨"web", 0⟩, 0⟩, 1⟩ "A"] <+: tr := by
    rw [show tr = _ from htr]
    decide
  have hafter : .answered ⟨⟨⟨"web", 0⟩, 0⟩, 1⟩ "A" (some "new") 5 ∈ tr := by
    rw [show tr = _ from htr]
    decide
  exact ⟨x, tr, tr.take 4, hrun, hbefore, hasked, hafter,
    hforward.2 ⟨⟨⟨"web", 0⟩, 0⟩, 0⟩ ⟨⟨⟨"web", 0⟩, 0⟩, 1⟩ _ _ _ _ _ _ rfl hbefore hasked hafter⟩

/-- The new value is stored and answered first, and the old one stored over it. -/
def backwardsRun : List ReadsAction :=
  twoMisses ++ (storedAndAnswered ⟨⟨"web", 0⟩, 1⟩ 6 ++ storedAndAnswered ⟨⟨"web", 0⟩, 0⟩ 7 ++
    Action.hit ⟨⟨"web", 0⟩, 1⟩ "A" 8).map .act

/-- In `backwardsRun` a connection is answered with the new value, asks again and is answered with
the old one. -/
theorem run_reads_backwards : ∃ x tr pre,
    Machine.exec (Reads.step rotatedEnv) (Reads.start rotatedEnv (some 0) fun _ => none)
      backwardsRun = some (x, tr) ∧
    .answered ⟨⟨⟨"web", 0⟩, 1⟩, 0⟩ "A" (some "new") 5 ∈ pre ∧
    pre ++ [.asked ⟨⟨⟨"web", 0⟩, 1⟩, 1⟩ "A"] <+: tr ∧
    .answered ⟨⟨⟨"web", 0⟩, 1⟩, 1⟩ "A" (some "old") 0 ∈ tr ∧
    (∀ name, Monotone (rotatedVersion name)) ∧ rotatedVersion "A" 0 < rotatedVersion "A" 5 := by
  have hfacts : (Machine.exec (Reads.step rotatedEnv) (Reads.start rotatedEnv (some 0)
      fun _ => none) backwardsRun).map Prod.snd = some
      [.asked ⟨⟨⟨"web", 0⟩, 0⟩, 0⟩ "A", .asked ⟨⟨⟨"web", 0⟩, 1⟩, 0⟩ "A",
        .answered ⟨⟨⟨"web", 0⟩, 1⟩, 0⟩ "A" (some "new") 5,
        .answered ⟨⟨⟨"web", 0⟩, 0⟩, 0⟩ "A" (some "old") 0, .asked ⟨⟨⟨"web", 0⟩, 1⟩, 1⟩ "A",
        .answered ⟨⟨⟨"web", 0⟩, 1⟩, 1⟩ "A" (some "old") 0] := by decide +kernel
  obtain ⟨⟨x, tr⟩, hrun, htr⟩ := Option.map_eq_some_iff.mp hfacts
  refine ⟨x, tr, tr.take 4, hrun, ?_⟩
  rw [show tr = _ from htr]
  exact ⟨by decide, by decide, by decide, rotatedVersion_monotone, by decide⟩

end RemoBroker
