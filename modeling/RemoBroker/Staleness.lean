import RemoBroker.Lifetime
import RemoBroker.Reads

/-! How old a value can be that a `get` is answered with.  Nothing makes the daemon drop a cached
value when the secret changes in the backend, so the time that an entry lives bounds it: whatever
the manifests and reloads set, a request is answered with a value that the backend had less than the
longest admitted time before the request came, up to the time that it takes to store a value. -/

namespace RemoBroker

/-- Instants are read from the clock, and a value is stored at most `delay` after the instant at
which the backend had it. -/
def onTime (delay : Duration) (x : Reads) : ReadsAction → Bool
  | .act (.conn _ (.lookUp now)) => now = x.clock
  | .act (.conn c (.insert now _)) => now = x.clock ∧ now ≤ x.source c + delay
  | _ => true

/-- The steps of `Reads`: of the clock, of a task that is not a connection, or of a connection. -/
inductive ReadsStep (env : Env) (x : Reads) : ReadsAction → Reads → List ReadObs → Prop where
  | tick {now} (forward : x.clock ≤ now) : ReadsStep env x (.tick now) { x with clock := now } []
  | other {a s obs} (step : DaemonStep env x.daemon a s obs) (other : ∀ c b, a ≠ .conn c b) :
      ReadsStep env x (.act a) { x with daemon := s } []
  | conn {c a z s conn conn' p p' obs} (task : x.daemon.conns c = some conn)
      (project : x.daemon.projects c.reg = some p)
      (step : ConnStep env x.daemon.backend ⟨c, conn.served⟩ p conn a p' conn' obs)
      (note : x.noteConn c a = some z)
      (conns : s.conns = Function.update x.daemon.conns c (some conn'))
      (projects : s.projects = Function.update x.daemon.projects c.reg (some p')) :
      ReadsStep env x (.act (.conn c a)) { z with daemon := s } (obs.filterMap x.shown)

/-- What the cache holds was stored soon after the backend had it, and not for too long. -/
structure Timely (delay : Duration) (x : Reads) : Prop where
  admitted : ∀ reg p, x.daemon.projects reg = some p → CacheAdmitted p.cache
  stored : ∀ reg p name e, x.daemon.projects reg = some p → p.cache.stored name = some e →
    ∃ t, x.cached reg name = some t ∧ e.fetchedAt ≤ t + delay

/-- What a connection has for a request that came at `since` or later. -/
def ConnPc.Since (since : Instant) (delay : Duration) (called source : Instant) : ConnPc → Prop
  | .awaiting _ _ _ => since ≤ called
  | .inserting _ _ _ | .readingTtl _ _ _ => since ≤ source
  | .emitting _ r | .responding r | .writing r =>
    ∀ g, r = .get g → since < source + delay + longestTtl
  | .reading | .closed | .dispatching _ _ | .lookingUp _ _ | .calling _ _ => True

/-- The requests that came in `tr`, which started at `since`. -/
structure Recent (since : Instant) (delay : Duration) (tr : List ReadObs) (x : Reads) : Prop where
  clock : since ≤ x.clock
  conn : ∀ c conn name, x.daemon.conns c = some conn → .asked ⟨c, conn.served⟩ name ∈ tr →
    conn.pc.Since since delay (x.called c) (x.source c)
  answered : ∀ q name n value t pre, pre ++ [.answered q name value t] <+: tr → .asked q n ∈ pre →
    since < t + delay + longestTtl

section
variable {env : Env} {x y : Reads} {a : ReadsAction} {tr o : List ReadObs} {since : Instant}
  {delay : Duration} {c : ConnId} {b : ConnAction} {conn conn' : Conn} {p p' : Project}
  {obs : List Obs} {os : List ReadObs}

theorem longestTtl_pos : 0 < longestTtl := by decide

theorem Reads.step_cases (h : Reads.step env x a = some (y, o)) : ReadsStep env x a y o := by
  cases a with
  | tick now =>
    obtain ⟨hnow, heq⟩ := Option.ite_none_right_eq_some.mp h
    cases heq
    exact .tick hnow
  | act a =>
    simp only [Reads.step] at h
    split at h
    · rename_i s obs z hs hnote
      cases h
      have step := RemoBroker.step_cases hs
      rcases a.conn_or with ⟨c, b, rfl⟩ | hother
      · cases step with
        | conn task project step => exact .conn task project step hnote rfl rfl
      · rw [Reads.note_other hother] at hnote
        cases hnote
        rw [Reads.shown_other fun q => step.ofRequest_eq hother]
        exact .other step hother
    · cases h

/-- What the notes of a connection leave alone. -/
theorem Reads.noteConn_frame (h : x.noteConn c b = some y) :
    y.clock = x.clock ∧ (∀ d, d ≠ c → y.called d = x.called d ∧ y.source d = x.source d) ∧
      ((∀ now front, b ≠ .insert now front) → y.cached = x.cached) := by
  unfold noteConn at h
  split at h
  · cases h
    exact ⟨rfl, fun _ _ => ⟨rfl, rfl⟩, fun _ => rfl⟩
  · cases h
    exact ⟨rfl, fun d hd => ⟨rfl, Function.update_of_ne hd ..⟩, fun _ => rfl⟩
  · cases h
    exact ⟨rfl, fun d hd => ⟨Function.update_of_ne hd .., rfl⟩, fun _ => rfl⟩
  · obtain ⟨-, heq⟩ := Option.ite_none_right_eq_some.mp h
    cases heq
    exact ⟨rfl, fun d hd => ⟨rfl, Function.update_of_ne hd ..⟩, fun _ => rfl⟩
  · cases h
    exact ⟨rfl, fun _ _ => ⟨rfl, rfl⟩, fun hb => absurd rfl (hb _ _)⟩
  · cases h
    exact ⟨rfl, fun _ _ => ⟨rfl, rfl⟩, fun _ => rfl⟩

theorem Reads.noteConn_cached_other {reg : RegId} (h : x.noteConn c b = some y)
    (hreg : reg ≠ c.reg) : y.cached reg = x.cached reg := by
  by_cases hinsert : ∃ now front, b = .insert now front
  · obtain ⟨now, front, rfl⟩ := hinsert
    cases h
    exact Function.update_of_ne hreg ..
  · have hcached : y.cached = x.cached :=
      (noteConn_frame h).2.2 fun now front heq => hinsert ⟨now, front, heq⟩
    rw [hcached]

/-! ### The entries of the caches -/

theorem Timely.conn_entry (h : Timely delay x) (hread : Forward env (fun _ _ => 0) tr x)
    (htime : onTime delay x (.act (.conn c b)) = true) (task : x.daemon.conns c = some conn)
    (project : x.daemon.projects c.reg = some p)
    (step : ConnStep env x.daemon.backend ⟨c, conn.served⟩ p conn b p' conn' obs)
    (note : x.noteConn c b = some y) {name : String} {e : CacheEntry}
    (he : p'.cache.stored name = some e) :
    ∃ t, y.cached c.reg name = some t ∧ e.fetchedAt ≤ t + delay := by
  by_cases hinsert : ∃ now front, b = .insert now front
  · obtain ⟨now, front, rfl⟩ := hinsert
    cases note
    cases step with
    | @inserted name' start value _ _ pc =>
      have hholds := hread.conn c conn task
      rw [pc] at hholds
      obtain ⟨rfl, -⟩ := hholds
      have hdelay : now ≤ x.source c + delay := (of_decide_eq_true htime).2
      by_cases hname : name = x.asked c
      · subst hname
        rw [BoundedCache.stored_insert_self] at he
        cases he
        exact ⟨x.source c, Reads.stored_self, hdelay⟩
      · rcases BoundedCache.stored_insert he with ⟨heq, -⟩ | hold
        · exact absurd heq hname
        · obtain ⟨t, ht, hle⟩ := h.stored c.reg p name e project hold
          exact ⟨t, (Reads.stored_other fun heq => hname heq.2).trans ht, hle⟩
  · have hcached : y.cached = x.cached :=
      (Reads.noteConn_frame note).2.2 fun now front heq => hinsert ⟨now, front, heq⟩
    have hold : p.cache.stored name = some e := by
      cases step with
      | lookedUp => exact BoundedCache.stored_get he
      | inserted => exact absurd ⟨_, _, rfl⟩ hinsert
      | _ => exact he
    rw [hcached]
    exact h.stored c.reg p name e project hold

theorem Timely.step (h : Timely delay x) (hread : Forward env (fun _ _ => 0) tr x)
    (htime : onTime delay x a = true) (step : ReadsStep env x a y o) : Timely delay y := by
  cases step with
  | tick => exact ⟨h.admitted, h.stored⟩
  | other step hother =>
    refine ⟨step.cacheAdmitted h.admitted, fun reg p name e hp he => ?_⟩
    obtain ⟨old, hold, hentry⟩ := step.stored_before hother hp he
    exact h.stored reg old name e hold hentry
  | @conn c b z s conn conn' p p' obs task project step note conns projects =>
    have hprojects : ∀ {reg q}, s.projects reg = some q →
        (reg = c.reg ∧ q = p') ∨ (reg ≠ c.reg ∧ x.daemon.projects reg = some q) := by
      intro reg q hq
      rw [projects] at hq
      exact Function.update_some_cases hq
    constructor
    · intro reg q hq
      rcases hprojects hq with ⟨rfl, rfl⟩ | ⟨-, hold⟩
      · exact step.cacheAdmitted (h.admitted c.reg p project)
      · exact h.admitted reg q hold
    · intro reg q name e hq he
      rcases hprojects hq with ⟨rfl, rfl⟩ | ⟨hreg, hold⟩
      · exact h.conn_entry hread htime task project step note he
      · obtain ⟨t, ht, hle⟩ := h.stored reg q name e hold he
        exact ⟨t, (congrFun (Reads.noteConn_cached_other note hreg) name).trans ht, hle⟩

/-! ### The requests since an instant -/

theorem ConnStep.asked {backend : Option Session} {q q' : RequestId} {name : String}
    (step : ConnStep env backend q p conn b p' conn' obs)
    (h : .asked q' name ∈ obs.filterMap x.shown) : q' = q ∧ conn.pc = .reading := by
  cases step with
  | @received line start pc =>
    rcases line with e | (_ | _ | name') <;> simp [Reads.shown] at h
    exact ⟨h.1, pc⟩
  | @started response => cases response <;> simp [Reads.shown] at h
  | _ => simp [Reads.shown] at h

theorem ConnStep.answers {backend : Option Session} {q q' : RequestId} {name : String}
    {value : Option String} {t : Instant}
    (step : ConnStep env backend q p conn b p' conn' obs)
    (h : .answered q' name value t ∈ obs.filterMap x.shown) :
    q' = q ∧ t = x.source q.conn ∧ ∃ g, conn.pc = .responding (.get g) := by
  cases step with
  | @received line start pc =>
    rcases line with e | (_ | _ | name') <;> simp [Reads.shown] at h
  | @started response pc =>
    cases response with
    | get g =>
      obtain ⟨rfl, -, -, rfl⟩ : q' = q ∧ _ ∧ _ ∧ t = x.source q.conn := by
        simpa [Reads.shown] using h
      exact ⟨rfl, rfl, g, pc⟩
    | ping | info | error => simp [Reads.shown] at h
  | _ => simp [Reads.shown] at h

theorem dispatchProject_since {line : ProjectLine} {start called source : Instant} :
    (dispatchProject env p line start).Since since delay called source := by
  unfold dispatchProject
  split
  · exact fun g hg => by cases hg
  · exact fun g hg => by cases hg
  · exact fun g hg => by cases hg
  · split
    · trivial
    · exact fun g hg => by cases hg

theorem lt_of_live {u now stored ttl t d longest : Nat} (hnow : u ≤ now)
    (hlive : now - stored < ttl) (hsoon : stored ≤ t + d) (hlong : ttl ≤ longest) :
    u < t + d + longest := by
  omega

/-- A hit is on an entry that has not outlived its time. -/
theorem Timely.lookUp (h : Timely delay x) (project : x.daemon.projects c.reg = some p)
    (hclock : since ≤ x.clock) {name : String} {start called : Instant} :
    (afterLookup name start (p.cache.get name x.clock).2).Since since delay called
      ((x.cached c.reg name).getD 0) := by
  cases hhit : (p.cache.get name x.clock).2 with
  | none => trivial
  | some hit =>
    intro g _
    obtain ⟨e, hstored, hlive, -, -⟩ := BoundedCache.get_hit hhit
    obtain ⟨t, ht, hsoon⟩ := h.stored c.reg p name e project hstored
    have hlong : e.ttl ≤ longestTtl := (h.admitted c.reg p project).entry name e hstored
    rw [ht, Option.getD_some]
    exact lt_of_live hclock hlive hsoon hlong

/-- A connection takes a request that came at `since` or later on to its next program point. -/
theorem ConnPc.Since.step (hread : Forward env (fun _ _ => 0) tr x)
    (htimely : Timely delay x) (hclock : since ≤ x.clock)
    (htime : onTime delay x (.act (.conn c b)) = true) (task : x.daemon.conns c = some conn)
    (project : x.daemon.projects c.reg = some p)
    (step : ConnStep env x.daemon.backend ⟨c, conn.served⟩ p conn b p' conn' obs)
    (note : x.noteConn c b = some y)
    (h : conn.pc ≠ .reading → conn'.served = conn.served →
      conn.pc.Since since delay (x.called c) (x.source c)) :
    conn'.pc.Since since delay (y.called c) (y.source c) := by
  have hholds := hread.conn c conn task
  cases step with
  | received | answered | closed => trivial
  | dispatched => exact dispatchProject_since
  | @lookedUp name' start now pc =>
    cases note
    rw [pc] at hholds
    obtain rfl : x.asked c = name' := hholds
    -- A hit has the age of its entry, which was read from the same clock.
    obtain rfl : now = x.clock := of_decide_eq_true htime
    show (afterLookup _ _ _).Since since delay _ (Function.update x.source c _ c)
    rw [Function.update_self]
    exact htimely.lookUp project hclock
  | noSession => exact fun g hg => by cases hg
  | called pc =>
    cases note
    show since ≤ Function.update x.called c x.clock c
    rw [Function.update_self]
    exact hclock
  | @returned name' start session at_ pc =>
    obtain ⟨⟨hstart, -⟩, heq⟩ := Option.ite_none_right_eq_some.mp note
    cases heq
    -- The call started after the request came, and the answer is of an instant after that.
    have hcalled := h (by simp [pc]) rfl
    rw [pc] at hcalled
    show (afterReturn env name' start (env.fnox session name' at_)).Since since delay _
      (Function.update x.source c at_ c)
    rw [Function.update_self]
    rcases env.fnox session name' at_ with msg | _ | value
    · exact fun g hg => by cases hg
    · exact fun g hg => by cases hg
    · exact Nat.le_trans hcalled hstart
  | readTtl pc =>
    cases note
    have hsource := h (by simp [pc]) rfl
    rw [pc] at hsource
    intro g _
    calc since ≤ x.source c := hsource
      _ ≤ x.source c + delay := Nat.le_add_right _ _
      _ < x.source c + delay + longestTtl := Nat.lt_add_of_pos_right longestTtl_pos
  | inserted pc | emitted pc | started pc =>
    cases note
    have hsource := h (by simp [pc]) rfl
    rw [pc] at hsource
    exact hsource

theorem Recent.conn_step (h : Recent since delay tr x)
    (hread : Forward env (fun _ _ => 0) os x) (htimely : Timely delay x)
    (htime : onTime delay x (.act (.conn c b)) = true) (task : x.daemon.conns c = some conn)
    (project : x.daemon.projects c.reg = some p)
    (step : ConnStep env x.daemon.backend ⟨c, conn.served⟩ p conn b p' conn' obs)
    (note : x.noteConn c b = some y) {s : Daemon}
    (conns : s.conns = Function.update x.daemon.conns c (some conn')) :
    Recent since delay (tr ++ obs.filterMap x.shown) { y with daemon := s } := by
  obtain ⟨hclock, hothers, -⟩ := Reads.noteConn_frame note
  constructor
  · exact hclock.symm ▸ h.clock
  · intro d conn'' name hd hasked
    rw [conns] at hd
    rcases Function.update_some_cases hd with ⟨rfl, rfl⟩ | ⟨hne, hold⟩
    · refine ConnPc.Since.step (y := y) hread htimely h.clock htime task project step note ?_
      intro hpc hserved
      rw [hserved] at hasked
      rcases List.mem_append.mp hasked with hasked | hasked
      · exact h.conn d conn name task hasked
      · exact absurd (step.asked hasked).2 hpc
    · rcases List.mem_append.mp hasked with hasked | hasked
      · obtain ⟨hcalled, hsource⟩ := hothers d hne
        have hsince := h.conn d conn'' name hold hasked
        rw [← hcalled, ← hsource] at hsince
        exact hsince
      · exact absurd (congrArg RequestId.conn (step.asked hasked).1) hne
  · intro q name n value t pre hpre hasked
    rcases Machine.concat_prefix_append_cases hpre with hold | ⟨pre', rfl, hnew⟩
    · exact h.answered q name n value t pre hold hasked
    · obtain ⟨rfl, rfl, g, hpc⟩ := step.answers (Machine.mem_of_prefix_concat hnew)
      have hbefore : .asked ⟨c, conn.served⟩ n ∈ tr := by
        rcases List.mem_append.mp hasked with hasked | hasked
        · exact hasked
        · have hmem := hnew.subset (List.mem_append_left _ hasked)
          have hreading := (step.asked hmem).2
          rw [hpc] at hreading
          cases hreading
      have hsince := h.conn c conn n task hbefore
      rw [hpc] at hsince
      exact hsince g rfl

theorem Recent.step (h : Recent since delay tr x) (hread : Forward env (fun _ _ => 0) os x)
    (htimely : Timely delay x) (htime : onTime delay x a = true) (step : ReadsStep env x a y o) :
    Recent since delay (tr ++ o) y := by
  cases step with
  | tick hforward =>
    rw [List.append_nil]
    exact ⟨h.clock.trans hforward, h.conn, h.answered⟩
  | other step hother =>
    rw [List.append_nil]
    refine ⟨h.clock, fun c conn name hconn hasked => ?_, h.answered⟩
    rcases step.conn_before hother hconn with ⟨cancelled, hold⟩ | hpc | hpc
    · exact h.conn c { conn with cancelled } name hold hasked
    · rw [hpc]
      trivial
    · rw [hpc]
      trivial
  | conn task project step note conns projects =>
    exact h.conn_step hread htimely htime task project step note conns

theorem storesForward_const : storesForward (fun _ _ => 0) x a = true := by
  unfold storesForward
  split <;> simp

/-- A run on from a state: what is answered to the requests that come in it. -/
theorem Timely.exec {bs : List ReadsAction} (hread : Forward env (fun _ _ => 0) tr x)
    (htimely : Timely delay x)
    (htime : Machine.Along (Reads.step env) (fun x a => onTime delay x a = true) x bs)
    (hrun : Machine.exec (Reads.step env) x bs = some (y, os)) :
    Forward env (fun _ _ => 0) (tr ++ os) y ∧ Timely delay y ∧ Recent x.clock delay os y := by
  refine Machine.exec_induction_along (I := fun os y => Forward env (fun _ _ => 0) (tr ++ os) y ∧
    Timely delay y ∧ Recent x.clock delay os y) ?_ ?_ htime hrun
  · refine ⟨(List.append_nil tr).symm ▸ hread, htimely, Nat.le_refl _, ?_, ?_⟩
    · intro c conn name _ hasked
      cases hasked
    · intro q name n value t pre hpre
      simp at hpre
  · rintro os y a z o ⟨hread, htimely, hrecent⟩ htime hstep
    have hcases := Reads.step_cases hstep
    refine ⟨?_, htimely.step hread htime hcases, hrecent.step hread htimely htime hcases⟩
    rw [← List.append_assoc]
    exact hread.step (fun _ _ _ _ => Nat.le_refl 0) storesForward_const hstep

theorem Timely.initial {backend : Option Session} {stale : Daemon.Stale} :
    Timely delay (Reads.start env backend stale) := by
  constructor <;> simp [Reads.start, Daemon.init]

/-- A request is answered with a value that the backend had for the name less than the longest
admitted time before the request came, up to the delay of the storing.  A value that the backend has
not had for so long is answered to nobody any more. -/
theorem run_reads_recent {backend : Option Session} {stale : Daemon.Stale}
    {as bs : List ReadsAction}
    (htime : Machine.Along (Reads.step env) (fun x a => onTime delay x a = true)
      (Reads.start env backend stale) as)
    (hrun : Machine.exec (Reads.step env) (Reads.start env backend stale) as = some (x, tr))
    (hlater : Machine.Along (Reads.step env) (fun x a => onTime delay x a = true) x bs)
    (hrest : Machine.exec (Reads.step env) x bs = some (y, os)) :
    (∀ q name n value t pre, pre ++ [.answered q name value t] <+: os → .asked q n ∈ pre →
      x.clock < t + delay + longestTtl ∧
        ∃ v session, value = some v ∧ env.fnox session name t = .ok (some v)) ∧
    ∀ name v gone, (∀ session t, gone ≤ t → env.fnox session name t ≠ .ok (some v)) →
      gone + delay + longestTtl ≤ x.clock →
      ∀ q n t pre, pre ++ [.answered q name (some v) t] <+: os → .asked q n ∉ pre := by
  obtain ⟨hread, htimely, -⟩ := Timely.exec Forward.initial Timely.initial htime hrun
  obtain ⟨hread', -, hrecent⟩ := Timely.exec hread htimely hlater hrest
  have hanswer : ∀ q name n value t pre, pre ++ [.answered q name value t] <+: os →
      .asked q n ∈ pre → x.clock < t + delay + longestTtl ∧
        ∃ v session, value = some v ∧ env.fnox session name t = .ok (some v) := by
    intro q name n value t pre hpre hasked
    have hmem : .answered q name value t ∈ [] ++ tr ++ os :=
      List.mem_append_right _ (Machine.mem_of_prefix_concat hpre)
    obtain ⟨v, hvalue, session, hhad⟩ := (hread'.answered q name value t hmem).1.read
    exact ⟨hrecent.answered q name n value t pre hpre hasked, v, session, hvalue, hhad⟩
  refine ⟨hanswer, ?_⟩
  intro name v gone hgone hlong q n t pre hpre hasked
  obtain ⟨hlt, v', session, hvalue, hhad⟩ := hanswer q name n (some v) t pre hpre hasked
  obtain rfl := Option.some.inj hvalue
  refine hgone session t ?_ hhad
  have hsum : gone + delay + longestTtl < t + delay + longestTtl := Nat.lt_of_le_of_lt hlong hlt
  exact Nat.le_of_lt (Nat.lt_of_add_lt_add_right (Nat.lt_of_add_lt_add_right hsum))

end

/-- A value is fetched and stored, and found in the cache after the secret is rotated at 5. -/
def cachedRun : List ReadsAction :=
  (Action.register ⟨"web", 0⟩ "/srv/web" "web" 0 ++ Action.connect ⟨⟨"web", 0⟩, 0⟩ ++
    missed ⟨⟨"web", 0⟩, 0⟩ 0 ++ storedAndAnswered ⟨⟨"web", 0⟩, 0⟩ 0).map .act ++
  .tick 6 :: (Action.hit ⟨⟨"web", 0⟩, 0⟩ "A" 6).map .act

/-- The longest time after the rotation. -/
def nextDay : Instant := 5 + longestTtl

def nextDayRun : List ReadsAction :=
  (missed ⟨⟨"web", 0⟩, 0⟩ nextDay ++ storedAndAnswered ⟨⟨"web", 0⟩, 0⟩ nextDay).map .act

theorem run_reads_recent_rotated : ∃ x tr y os,
    Machine.exec (Reads.step rotatedEnv) (Reads.start rotatedEnv (some 0) fun _ => none)
      (cachedRun ++ [.tick nextDay]) = some (x, tr) ∧
    .answered ⟨⟨⟨"web", 0⟩, 0⟩, 1⟩ "A" (some "old") 0 ∈ tr ∧
    Machine.exec (Reads.step rotatedEnv) x nextDayRun = some (y, os) ∧
    .answered ⟨⟨⟨"web", 0⟩, 0⟩, 2⟩ "A" (some "new") nextDay ∈ os ∧
    ∀ q n t pre, pre ++ [.answered q "A" (some "old") t] <+: os → .asked q n ∉ pre := by
  have hfacts : (Machine.exec (Reads.step rotatedEnv) (Reads.start rotatedEnv (some 0)
      fun _ => none) (cachedRun ++ [.tick nextDay])).bind (fun r =>
        (Machine.exec (Reads.step rotatedEnv) r.1 nextDayRun).map fun r' =>
          (r.1.clock, r.2, Machine.checkAlong (Reads.step rotatedEnv) (onTime 0) r.1 nextDayRun,
            r'.2)) = some (nextDay,
      [.asked ⟨⟨⟨"web", 0⟩, 0⟩, 0⟩ "A", .answered ⟨⟨⟨"web", 0⟩, 0⟩, 0⟩ "A" (some "old") 0,
        .asked ⟨⟨⟨"web", 0⟩, 0⟩, 1⟩ "A", .answered ⟨⟨⟨"web", 0⟩, 0⟩, 1⟩ "A" (some "old") 0], true,
      [.asked ⟨⟨⟨"web", 0⟩, 0⟩, 2⟩ "A",
        .answered ⟨⟨⟨"web", 0⟩, 0⟩, 2⟩ "A" (some "new") nextDay]) := by decide +kernel
  obtain ⟨⟨x, tr⟩, hrun, hx⟩ := Option.bind_eq_some_iff.mp hfacts
  obtain ⟨⟨y, os⟩, hrest, heq⟩ := Option.map_eq_some_iff.mp hx
  obtain ⟨hclock, heq⟩ := Prod.mk.inj heq
  obtain ⟨htr, heq⟩ := Prod.mk.inj heq
  obtain ⟨hlater, hos⟩ := Prod.mk.inj heq
  have htime : Machine.Along (Reads.step rotatedEnv) (fun x a => onTime 0 x a = true)
      (Reads.start rotatedEnv (some 0) fun _ => none) (cachedRun ++ [.tick nextDay]) :=
    Machine.along_checked (by decide +kernel)
  have hrecent := run_reads_recent htime hrun (Machine.along_checked hlater) hrest
  refine ⟨x, tr, y, os, hrun, ?_, hrest, ?_, ?_⟩
  · rw [show tr = _ from htr]
    decide
  · rw [show os = _ from hos]
    exact List.mem_cons_of_mem _ (List.mem_singleton_self _)
  · refine hrecent.2 "A" "old" 5 ?_ ?_
    · intro session t ht heq
      have hnew : rotatedEnv.fnox session "A" t = .ok (some "new") := by
        simp [rotatedEnv, Nat.not_lt.mpr ht]
      rw [hnew] at heq
      simp at heq
    · rw [show x.clock = nextDay from hclock]
      exact Nat.le_refl _

end RemoBroker
