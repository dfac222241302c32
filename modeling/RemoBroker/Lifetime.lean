import RemoBroker.Daemon.Request

/-! The lifetime that a `get` advertises.  A hit advertises what is left of the entry that was read;
a fetch advertises the default time of the cache as it is after the insertion, which a reload may
have raised since. -/

namespace RemoBroker

/-- Where the value of a response has its lifetime from: the entry that a lookup found, or the
entry that the request itself stored. -/
inductive Lifetime where
  | hit (entry : CacheEntry) (now : Instant)
  | stored (ttl : Duration)
deriving DecidableEq

/-- The remaining lifetime in whole seconds. -/
def Lifetime.seconds : Lifetime → Nat
  | .hit entry now => Duration.asSecs (entry.remainingTtl now)
  | .stored ttl => Duration.asSecs ttl

/-- What is noted of a connection: the entry of its last hit or the time of the entry that its last
insertion put into the cache, and the default time of the cache as it has last read it. -/
structure LifetimeNote where
  lifetime : Lifetime
  read : Duration

abbrev LifetimeNotes := ConnId → LifetimeNote

/-- A response with a value, with the lifetime that it has and the default time that was read. -/
structure Advertised where
  request : RequestId
  ttlSeconds : UInt32
  lifetime : Lifetime
  read : Duration
deriving DecidableEq

/-- The read of the default time, `cache.default_ttl()`. -/
def noteRead (s : Daemon) (a : Action) (notes : LifetimeNotes) : LifetimeNotes :=
  match a with
  | .conn c .readTtl =>
    match s.projects c.reg with
    | some p => Function.update notes c { notes c with read := p.cache.defaultTtl }
    | none => notes
  | _ => notes

def noteLifetime (s : Daemon) (notes : LifetimeNotes) : Obs → LifetimeNotes
  | .lookedUp q _ now (some entry) =>
    Function.update notes q.conn { notes q.conn with lifetime := .hit entry now }
  | .inserted q name _ =>
    match (s.projects q.conn.reg).bind fun p => p.cache.stored name with
    | some entry => Function.update notes q.conn { notes q.conn with lifetime := .stored entry.ttl }
    | none => notes
  | _ => notes

def advertised (notes : LifetimeNotes) : Obs → Option Advertised
  | .writing q (.get g) =>
    some ⟨q, g.ttlSeconds, (notes q.conn).lifetime, (notes q.conn).read⟩
  | _ => none

/-- The daemon with the notes, which shows the responses with a value. -/
def lifetimeStep (env : Env) : Machine.Step (Daemon × LifetimeNotes) Action Advertised :=
  Machine.noted (step env) noteRead noteLifetime advertised

def lifetimeStart (env : Env) (backend : Option Session) (stale : Daemon.Stale) :
    Daemon × LifetimeNotes :=
  (Daemon.init env backend stale, fun _ => ⟨.stored 0, 0⟩)

/-- A reload raises the default time of a cache only while no `get` of the registration is between
its insertion and its read of that time. -/
def RaisesApart (env : Env) (s : Daemon) : Action → Prop
  | .admin id .setConfig => ∀ reg m p, s.requests id = some (.configuring reg m) →
    s.projects reg = some p →
    (∃ c conn name start value, c.reg = reg ∧ s.conns c = some conn ∧
      conn.pc = .readingTtl name start value) →
    (p.setConfig env m).cache.defaultTtl ≤ p.cache.defaultTtl
  | _ => True

/-- The advertised time is not above the lifetime.  On a hit it is exactly what is left of the
entry, and otherwise exactly the default time that was read, in whole seconds. -/
structure Honest (ttlSeconds : UInt32) (lifetime : Lifetime) (read : Duration) : Prop where
  bound : ttlSeconds.toNat ≤ lifetime.seconds
  hit : ∀ entry now, lifetime = .hit entry now → ttlSeconds.toNat = lifetime.seconds
  stored : ∀ ttl, lifetime = .stored ttl → ttlSeconds.toNat = Duration.asSecs read

/-- The longest time that `Config` and `Manifest` admit. -/
def longestTtl : Duration := Duration.fromSecs 86400

structure CacheAdmitted (c : BoundedCache) : Prop where
  default : c.defaultTtl ≤ longestTtl
  entry : ∀ name e, c.stored name = some e → e.ttl ≤ longestTtl

/-- What is noted when a connection stands at a program point. -/
def Advertises (s : Daemon) (c : ConnId) (note : LifetimeNote) : ConnPc → Prop
  | .readingTtl _ _ _ => ∃ ttl, note.lifetime = .stored ttl ∧
    ∀ p, s.projects c.reg = some p → p.cache.defaultTtl ≤ ttl
  | .emitting _ r | .responding r | .writing r =>
    ∀ g, r = .get g → Honest g.ttlSeconds note.lifetime note.read
  | _ => True

structure Lifetimes (env : Env) (tr : List Advertised) (x : Daemon × LifetimeNotes) : Prop where
  records : Records env x.1
  caches : ∀ reg p, x.1.projects reg = some p → CacheAdmitted p.cache
  conn : ∀ c conn, x.1.conns c = some conn → Advertises x.1 c (x.2 c) conn.pc
  honest : ∀ a ∈ tr, Honest a.ttlSeconds a.lifetime a.read

section
variable {env : Env} {s t : Daemon} {notes : LifetimeNotes} {o : List Obs}
  {tr : List Advertised} {m : Manifest}

theorem resolveCacheBounds_longest :
    (resolveCacheBounds m env.config.cacheDefaults).2 ≤ longestTtl := by
  cases hs : m.cache.ttlSeconds with
  | none =>
    have hbound : (resolveCacheBounds m env.config.cacheDefaults).2 =
        env.config.cacheDefaultTtl := by
      simp [resolveCacheBounds, hs, Config.cacheDefaults]
    rw [hbound]
    exact env.config.ttl_inRange.2
  | some sec =>
    have hbound : (resolveCacheBounds m env.config.cacheDefaults).2 =
        Duration.fromSecs sec.toNat := by
      simp [resolveCacheBounds, hs]
    rw [hbound]
    exact Duration.fromSecs_le.mpr (UInt32.le_iff_toNat_le.mp (m.cache_inRange.ttl sec hs).2)

theorem asSecs_le {d : Duration} (h : d ≤ longestTtl) : Duration.asSecs d < 2 ^ 32 := by
  have hle : Duration.asSecs d ≤ Duration.asSecs longestTtl := Nat.div_le_div_right h
  have hday : Duration.asSecs longestTtl = 86400 := by decide
  omega

theorem saturatingU32_toNat {n : Nat} (h : n < 2 ^ 32) : (saturatingU32 n).toNat = n := by
  rw [saturatingU32, if_pos h, UInt32.toNat_ofNat', Nat.mod_eq_of_lt h]

theorem Honest.of_hit {e : CacheEntry} {now : Instant} {read : Duration} (h : e.ttl ≤ longestTtl) :
    Honest (UInt32.ofNat (Duration.asSecs (e.remainingTtl now))) (.hit e now) read := by
  have hle : e.remainingTtl now ≤ longestTtl := (Nat.sub_le _ _).trans h
  have hexact : (UInt32.ofNat (Duration.asSecs (e.remainingTtl now))).toNat =
      Duration.asSecs (e.remainingTtl now) := by
    rw [UInt32.toNat_ofNat', Nat.mod_eq_of_lt (asSecs_le hle)]
  exact ⟨hexact.le, fun _ _ _ => hexact, nofun⟩

theorem Honest.of_stored {d ttl : Duration} (h : d ≤ longestTtl) (hle : d ≤ ttl) :
    Honest (saturatingU32 (Duration.asSecs d)) (.stored ttl) d := by
  have hexact := saturatingU32_toNat (asSecs_le h)
  refine ⟨?_, nofun, fun _ _ => hexact⟩
  rw [hexact]
  exact Nat.div_le_div_right hle

theorem CacheAdmitted.get {c : BoundedCache} {name : String} {now : Instant}
    (h : CacheAdmitted c) : CacheAdmitted (c.get name now).1 :=
  ⟨by simpa using h.default, fun n e hstored => h.entry n e (BoundedCache.stored_get hstored)⟩

theorem CacheAdmitted.insert {c : BoundedCache} {name value front : String} {now : Instant}
    (h : CacheAdmitted c) : CacheAdmitted (c.insert name value none now front) :=
  ⟨h.default, fun _ _ hstored => BoundedCache.ttl_le_of_insert h.default h.entry hstored⟩

theorem ConnStep.cacheAdmitted {backend : Option Session} {q : RequestId} {p p' : Project}
    {conn conn' : Conn} {a : ConnAction} (step : ConnStep env backend q p conn a p' conn' o)
    (h : CacheAdmitted p.cache) : CacheAdmitted p'.cache := by
  cases step with
  | lookedUp => exact h.get
  | inserted => exact h.insert
  | _ => exact h

theorem ConnStep.defaultTtl_eq {backend : Option Session} {q : RequestId} {p p' : Project}
    {conn conn' : Conn} {a : ConnAction} (step : ConnStep env backend q p conn a p' conn' o) :
    p'.cache.defaultTtl = p.cache.defaultTtl := by
  cases step with
  | lookedUp => exact BoundedCache.get_defaultTtl
  | _ => rfl

theorem ProjectChange.cacheAdmitted {id : AdminId} {reg : RegId} {p : Project}
    (change : ProjectChange env s id reg (some p))
    (h : ∀ p, s.projects reg = some p → CacheAdmitted p.cache) : CacheAdmitted p.cache := by
  generalize hp : some p = new at change
  cases change with
  | same => exact h p hp.symm
  | created =>
    cases hp
    refine ⟨resolveCacheBounds_longest, fun n e hstored => ?_⟩
    simp [Project.create, BoundedCache.new, BoundedCache.stored] at hstored
  | @configured old m task project =>
    cases hp
    exact ⟨resolveCacheBounds_longest, (h old project).entry⟩
  | @stored old m task project =>
    cases hp
    exact h old project

theorem DaemonStep.cacheAdmitted {a : Action} (step : DaemonStep env s a t o)
    (h : ∀ reg p, s.projects reg = some p → CacheAdmitted p.cache) :
    ∀ reg p, t.projects reg = some p → CacheAdmitted p.cache :=
  step.project_invariant (fun change => change.cacheAdmitted) (fun step => step.cacheAdmitted) h

theorem noteLifetime_other (h : ∀ q, ofRequest q o = []) :
    o.foldl (noteLifetime t) notes = notes := by
  induction o generalizing notes with
  | nil => rfl
  | cons ob o ih =>
    have hrest : ∀ q, ofRequest q o = [] := by
      intro q
      have hcons : ofRequest q [ob] ++ ofRequest q o = [] := ofRequest_append.symm.trans (h q)
      exact (List.append_eq_nil_iff.mp hcons).2
    have hob : noteLifetime t notes ob = notes := by
      have hone : ∀ q, ob.request ≠ some q := by
        intro q hq
        have hmem : ob ∈ ofRequest q (ob :: o) := mem_ofRequest.mpr ⟨List.mem_cons_self, hq⟩
        rw [h q] at hmem
        cases hmem
      cases ob with
      | lookedUp q | inserted q => exact absurd rfl (hone q)
      | _ => rfl
    rw [List.foldl_cons, hob, ih hrest]

theorem advertised_other (h : ∀ q, ofRequest q o = []) : o.filterMap (advertised notes) = [] := by
  refine List.filterMap_eq_nil_iff.mpr fun ob hob => ?_
  cases ob with
  | writing q r =>
    have hmem : Obs.writing q r ∈ ofRequest q o := mem_ofRequest.mpr ⟨hob, rfl⟩
    rw [h q] at hmem
    cases hmem
  | _ => rfl

/-- Steps that are not of a connection raise no default time that a connection is about to read. -/
theorem Lifetimes.frame {a : Action} (h : Lifetimes env tr (s, notes))
    (hraises : RaisesApart env s a) (step : DaemonStep env s a t o) (ha : ∀ c b, a ≠ .conn c b) :
    Lifetimes env tr (t, notes) := by
  refine ⟨h.records.step step, step.cacheAdmitted h.caches, fun c conn hconn => ?_, h.honest⟩
  rcases step.conn_before ha hconn with ⟨cancelled, hold⟩ | hpc | hpc
  · have hadv : Advertises s c (notes c) conn.pc := h.conn c { conn with cancelled } hold
    cases hpc : conn.pc with
    | readingTtl name start value =>
      rw [hpc] at hadv
      obtain ⟨ttl, hnote, hdefault⟩ := hadv
      refine ⟨ttl, hnote, fun p hp => ?_⟩
      rcases step.defaultTtl ha hp with hnone | ⟨old, hp', heq⟩ | ⟨id, m, old, rfl, htask, hp', rfl⟩
      · have hsome := h.records.conn c (by rw [hold]; rfl)
        rw [show s.projects c.reg = none from hnone] at hsome
        cases hsome
      · rw [heq]
        exact hdefault old hp'
      · exact (hraises c.reg m old htask hp' ⟨c, _, name, start, value, rfl, hold, hpc⟩).trans
          (hdefault old hp')
    | emitting | responding | writing =>
      rw [hpc] at hadv
      exact hadv
    | reading | dispatching | lookingUp | calling | awaiting | inserting | closed => trivial
  · rw [hpc]
    trivial
  · rw [hpc]
    trivial

/-- An observation of a request is noted of its connection only. -/
theorem noteLifetime_ne {q : RequestId} {c : ConnId} {ob : Obs} (h : ob.request = some q)
    (hc : c ≠ q.conn) : noteLifetime t notes ob c = notes c := by
  cases ob with
  | lookedUp q' name now entry =>
    cases h
    cases entry with
    | none => rfl
    | some e => exact Function.update_of_ne hc ..
  | inserted q' name value =>
    cases h
    cases hentry : (t.projects q.conn.reg).bind fun p => p.cache.stored name with
    | none => simp only [noteLifetime, hentry]
    | some e =>
      simp only [noteLifetime, hentry]
      exact Function.update_of_ne hc ..
  | _ => rfl

theorem noteRead_other {a : Action} {c : ConnId} (h : a ≠ .conn c .readTtl) :
    noteRead s a notes c = notes c := by
  unfold noteRead
  split
  · rename_i c'
    have hne : c ≠ c' := by
      rintro rfl
      exact h rfl
    cases s.projects c'.reg with
    | none => rfl
    | some p => exact Function.update_of_ne hne ..
  · rfl

theorem ConnStep.note_other {backend : Option Session} {q : RequestId} {p p' : Project}
    {conn conn' : Conn} {a : ConnAction} {c : ConnId}
    (step : ConnStep env backend q p conn a p' conn' o) (hc : c ≠ q.conn) :
    o.foldl (noteLifetime t) (noteRead s (.conn q.conn a) notes) c = notes c := by
  have hread : noteRead s (.conn q.conn a) notes c = notes c :=
    noteRead_other (by simp [Ne.symm hc])
  rcases step.obs with rfl | ⟨ob, rfl, hob⟩
  · exact hread
  · exact (noteLifetime_ne hob hc).trans hread

theorem freshEntry_of_hit {c : BoundedCache} {name : String} {now : Instant} {hit : CacheHit}
    (h : (c.get name now).2 = some hit) : ∃ e, freshEntry c name now = some e ∧
      c.stored name = some e ∧
      hit.ttlSeconds = UInt32.ofNat (Duration.asSecs (e.remainingTtl now)) := by
  obtain ⟨e, hstored, hlive, -, httl⟩ := BoundedCache.get_hit h
  refine ⟨e, ?_, hstored, httl⟩
  rw [freshEntry, hstored]
  simpa [Option.filter_some, CacheEntry.isExpired] using hlive

theorem Lifetimes.advertises {c : ConnId} {conn conn' : Conn} {p p' : Project} {a : ConnAction}
    (h : Lifetimes env tr (s, notes)) (task : s.conns c = some conn)
    (project : s.projects c.reg = some p)
    (step : ConnStep env s.backend ⟨c, conn.served⟩ p conn a p' conn' o)
    (hproject : t.projects c.reg = some p') :
    Advertises t c (o.foldl (noteLifetime t) (noteRead s (.conn c a) notes) c) conn'.pc := by
  have hadv : Advertises s c (notes c) conn.pc := h.conn c conn task
  cases step with
  | received => trivial
  | noSession => exact nofun
  | called => trivial
  | closed => trivial
  | answered => trivial
  | @dispatched line start pc =>
    show Advertises t c _ (dispatchProject env p line start)
    unfold dispatchProject
    split
    · exact nofun
    · exact nofun
    · exact nofun
    · split
      · trivial
      · exact nofun
  | @lookedUp name start now pc =>
    show Advertises t c _ (afterLookup name start (p.cache.get name now).2)
    cases hhit : (p.cache.get name now).2 with
    | none => trivial
    | some hit =>
      obtain ⟨e, hfresh, hstored, httl⟩ := freshEntry_of_hit hhit
      rintro g ⟨⟩
      have hnote : [Obs.lookedUp ⟨c, conn.served⟩ name now (freshEntry p.cache name now)].foldl
          (noteLifetime t) notes c = { notes c with lifetime := .hit e now } := by
        rw [hfresh]
        exact Function.update_self ..
      show Honest hit.ttlSeconds (([_].foldl (noteLifetime t) notes c).lifetime) _
      rw [hnote, httl]
      exact .of_hit ((h.caches c.reg p project).entry name e hstored)
  | @returned name start session at_ pc =>
    show Advertises t c _ (afterReturn env name start (env.fnox session name at_))
    unfold afterReturn
    split
    · trivial
    · exact nofun
    · exact nofun
  | @inserted name start value now front pc =>
    refine ⟨p.cache.defaultTtl, ?_, fun p'' hp'' => ?_⟩
    · have hentry : (t.projects c.reg).bind (fun p => p.cache.stored name) =
          some ⟨value, now, p.cache.defaultTtl⟩ := by
        rw [hproject]
        exact BoundedCache.stored_insert_self
      show (noteLifetime t notes (.inserted ⟨c, conn.served⟩ name value) c).lifetime = _
      unfold noteLifetime
      simp only [hentry, Function.update_self]
    · rw [hproject] at hp''
      cases hp''
      exact Nat.le_refl _
  | readTtl pc =>
    rw [pc] at hadv
    obtain ⟨ttl, hnote, hdefault⟩ := hadv
    have hread : noteRead s (.conn c .readTtl) notes c =
        { notes c with read := p.cache.defaultTtl } := by
      simp only [noteRead, project, Function.update_self]
    rintro g ⟨⟩
    show Honest _ (noteRead s (.conn c .readTtl) notes c).lifetime
      (noteRead s (.conn c .readTtl) notes c).read
    rw [hread, hnote]
    exact .of_stored (h.caches c.reg p project).default (hdefault p project)
  | emitted pc =>
    rw [pc] at hadv
    exact hadv
  | started pc =>
    rw [pc] at hadv
    exact hadv

theorem ConnStep.honest {c : ConnId} {conn conn' : Conn} {p p' : Project} {a : ConnAction}
    {adv : Advertised} (step : ConnStep env s.backend ⟨c, conn.served⟩ p conn a p' conn' o)
    (hadv : Advertises s c (notes c) conn.pc) (h : adv ∈ o.filterMap (advertised notes)) :
    Honest adv.ttlSeconds adv.lifetime adv.read := by
  cases step with
  | @started response pc =>
    rw [pc] at hadv
    cases response with
    | get g =>
      obtain rfl : adv = ⟨⟨c, conn.served⟩, g.ttlSeconds, (notes c).lifetime, (notes c).read⟩ := by
        simpa [advertised] using h
      exact hadv g rfl
    | ping | info | error => simp [advertised] at h
  | _ => simp [advertised] at h

/-- The other connections of the registration read the same default time as before. -/
theorem Lifetimes.connection {c : ConnId} {conn conn' : Conn} {p p' : Project} {a : ConnAction}
    (h : Lifetimes env tr (s, notes)) (hstep : DaemonStep env s (.conn c a) t o)
    (task : s.conns c = some conn) (project : s.projects c.reg = some p)
    (step : ConnStep env s.backend ⟨c, conn.served⟩ p conn a p' conn' o)
    (hprojects : t.projects = Function.update s.projects c.reg (some p'))
    (hconns : t.conns = Function.update s.conns c (some conn')) :
    Lifetimes env (tr ++ o.filterMap (advertised notes))
      (t, o.foldl (noteLifetime t) (noteRead s (.conn c a) notes)) := by
  refine ⟨h.records.step hstep, hstep.cacheAdmitted h.caches, fun d conn'' hd => ?_, ?_⟩
  · have hd' : t.conns d = some conn'' := hd
    rw [hconns] at hd'
    rcases Function.update_some_cases hd' with ⟨rfl, rfl⟩ | ⟨hdc, hold⟩
    · exact h.advertises task project step (by rw [hprojects, Function.update_self])
    · show Advertises t d (o.foldl (noteLifetime t) (noteRead s (.conn c a) notes) d) conn''.pc
      rw [step.note_other hdc]
      have hadv : Advertises s d (notes d) conn''.pc := h.conn d conn'' hold
      cases hpc : conn''.pc with
      | readingTtl name start value =>
        rw [hpc] at hadv
        obtain ⟨ttl, hnote, hdefault⟩ := hadv
        refine ⟨ttl, hnote, fun p'' hp'' => ?_⟩
        rw [hprojects] at hp''
        rcases Function.update_some_cases hp'' with ⟨hreg, rfl⟩ | ⟨-, hp''⟩
        · rw [step.defaultTtl_eq]
          exact hdefault p (hreg ▸ project)
        · exact hdefault p'' hp''
      | emitting | responding | writing =>
        rw [hpc] at hadv
        exact hadv
      | reading | dispatching | lookingUp | calling | awaiting | inserting | closed => trivial
  · intro adv hmem
    rcases List.mem_append.mp hmem with hmem | hmem
    · exact h.honest adv hmem
    · exact step.honest (h.conn c conn task) hmem

theorem Lifetimes.step {x y : Daemon × LifetimeNotes} {a : Action} {o' : List Advertised}
    (h : Lifetimes env tr x) (hraises : RaisesApart env x.1 a)
    (hstep : lifetimeStep env x a = some (y, o')) : Lifetimes env (tr ++ o') y := by
  obtain ⟨s, notes⟩ := x
  obtain ⟨t, notes'⟩ := y
  obtain ⟨o, hs, rfl, rfl⟩ := Machine.noted_cases hstep
  have step := step_cases hs
  rcases a.conn_or with ⟨c, b, rfl⟩ | hother
  · cases step with
    | conn task project step =>
      exact h.connection (.conn task project step) task project step rfl rfl
  · have hnone : ∀ q, ofRequest q o = [] := fun q => step.ofRequest_eq hother
    have hread : noteRead s a notes = notes := funext fun c => noteRead_other (hother c .readTtl)
    rw [noteLifetime_other hnone, hread, advertised_other hnone, List.append_nil]
    exact h.frame hraises step hother

theorem Lifetimes.initial {backend : Option Session} {stale : Daemon.Stale} :
    Lifetimes env [] (lifetimeStart env backend stale) := by
  refine ⟨Records.initial, ?_, ?_, ?_⟩
  · intro reg p hp
    cases hp
  · intro c conn hconn
    cases hconn
  · intro a ha
    cases ha

/-- In every run in which no reload raises a default time between the insertion of a `get` and its
read of that time, no response advertises more than its value has left, conversions are exact, and
of two hits on one entry the later one advertises no more. -/
theorem run_lifetimes_honest {backend : Option Session} {stale : Daemon.Stale} {as : List Action}
    {x : Daemon × LifetimeNotes}
    (hraises : Machine.Along (lifetimeStep env) (fun x a => RaisesApart env x.1 a)
      (lifetimeStart env backend stale) as)
    (hrun : Machine.exec (lifetimeStep env) (lifetimeStart env backend stale) as =
      some (x, tr)) :
    (∀ a ∈ tr, Honest a.ttlSeconds a.lifetime a.read) ∧
    ∀ a ∈ tr, ∀ b ∈ tr, ∀ entry now now', a.lifetime = .hit entry now →
      b.lifetime = .hit entry now' → now ≤ now' → b.ttlSeconds ≤ a.ttlSeconds := by
  have h : Lifetimes env tr x :=
    Machine.exec_induction_along Lifetimes.initial
      (fun _ _ _ _ _ h hraises hstep => h.step hraises hstep) hraises hrun
  refine ⟨h.honest, fun a ha b hb entry now now' hnow hnow' hle => ?_⟩
  rw [UInt32.le_iff_toNat_le, (h.honest a ha).hit entry now hnow,
    (h.honest b hb).hit entry now' hnow', hnow, hnow']
  have hleft : entry.remainingTtl now' ≤ entry.remainingTtl now :=
    Nat.sub_le_sub_left (Nat.sub_le_sub_right hle _) _
  exact Nat.div_le_div_right hleft

end

/-- The reload that takes its step raises nothing. -/
def raisesNothing (env : Env) (s : Daemon) : Action → Bool
  | .admin id .setConfig =>
    match s.requests id with
    | some (.configuring reg m) => (s.projects reg).all fun p =>
      (p.setConfig env m).cache.defaultTtl ≤ p.cache.defaultTtl
    | _ => true
  | _ => true

theorem RaisesApart.of_raisesNothing {env : Env} {s : Daemon} {a : Action}
    (h : raisesNothing env s a = true) : RaisesApart env s a := by
  unfold RaisesApart
  split
  · intro reg m p htask hp _
    simpa [raisesNothing, htask, hp] using h
  · trivial

/-- Manifests with a time of one minute and of ten. -/
def minutesEnv : Env :=
  sampleEnv [("one", ⟨1, ⟨"web", none⟩, ⟨["A"]⟩, some ⟨some 60, none⟩⟩),
    ("ten", ⟨1, ⟨"web", none⟩, ⟨["A"]⟩, some ⟨some 600, none⟩⟩)]

/-- A secret is fetched and stored, then the manifest is reloaded, then the response is written. -/
def reloadedBetween (first second : String) : List Action :=
  Action.register ⟨"web", 0⟩ "/srv/web" first 0 ++ Action.connect ⟨⟨"web", 0⟩, 0⟩ ++
  [.receive (.ok (.get "A")) 0, .dispatch, .lookUp 0, .call, .return 0, .insert 0 ""].map
    (Action.conn ⟨⟨"web", 0⟩, 0⟩) ++
  Action.reload ⟨"web", 1⟩ second ++
  [.readTtl, .emit 0 0, .startWrite, .finishWrite].map (Action.conn ⟨⟨"web", 0⟩, 0⟩)

def loweredRun : List Action :=
  reloadedBetween "ten" "one" ++ Action.hit ⟨⟨"web", 0⟩, 0⟩ "A" (Duration.fromSecs 1) ++
    Action.hit ⟨⟨"web", 0⟩, 0⟩ "A" (Duration.fromSecs 2)

theorem run_lifetimes_honest_lowered : ∃ x tr,
    Machine.exec (lifetimeStep minutesEnv) (lifetimeStart minutesEnv (some 0) fun _ => none)
      loweredRun = some (x, tr) ∧
    tr.map (fun a => (a.ttlSeconds, a.lifetime.seconds)) = [(60, 600), (599, 599), (598, 598)] ∧
    ∀ a ∈ tr, Honest a.ttlSeconds a.lifetime a.read := by
  have hfacts : (Machine.exec (lifetimeStep minutesEnv) (lifetimeStart minutesEnv (some 0)
      fun _ => none) loweredRun).map
        (fun r => r.2.map fun a => (a.ttlSeconds, a.lifetime.seconds)) =
      some [(60, 600), (599, 599), (598, 598)] := by decide +kernel
  obtain ⟨⟨x, tr⟩, hrun, htr⟩ := Option.map_eq_some_iff.mp hfacts
  refine ⟨x, tr, hrun, htr, (run_lifetimes_honest ?_ hrun).1⟩
  exact Machine.along_of_check (I := fun _ => True) (g := fun x a => raisesNothing minutesEnv x.1 a)
    trivial (fun _ _ _ _ _ _ _ => trivial) (fun _ _ _ hg => .of_raisesNothing hg)
    (by decide +kernel)

/-- A value that was stored for one minute is advertised for ten. -/
theorem run_lifetime_overstated : ∃ x tr,
    Machine.exec (lifetimeStep minutesEnv) (lifetimeStart minutesEnv (some 0) fun _ => none)
      (reloadedBetween "one" "ten") = some (x, tr) ∧
    tr = [⟨⟨⟨⟨"web", 0⟩, 0⟩, 0⟩, 600, .stored (Duration.fromSecs 60),
      Duration.fromSecs 600⟩] ∧
    ¬ ∀ a ∈ tr, a.ttlSeconds.toNat ≤ a.lifetime.seconds := by
  have hfacts : (Machine.exec (lifetimeStep minutesEnv) (lifetimeStart minutesEnv (some 0)
      fun _ => none) (reloadedBetween "one" "ten")).map Prod.snd =
      some [⟨⟨⟨⟨"web", 0⟩, 0⟩, 0⟩, 600, .stored (Duration.fromSecs 60),
      Duration.fromSecs 600⟩] := by decide +kernel
  obtain ⟨⟨x, tr⟩, hrun, htr⟩ := Option.map_eq_some_iff.mp hfacts
  refine ⟨x, tr, hrun, htr, ?_⟩
  rw [show tr = _ from htr]
  decide

end RemoBroker
