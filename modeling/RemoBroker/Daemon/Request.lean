import RemoBroker.Daemon.Life
import RemoBroker.Daemon.Records

/-! Every run keeps every request on a project socket in a life, whatever the other tasks do in
between. -/

namespace RemoBroker

section
variable {env : Env} {q : RequestId} {backend : Option Session} {p p' : Project}
  {conn conn' : Conn} {a : ConnAction} {o hist : List Obs}

theorem dispatchProject_stage {line : ProjectLine} {start : Instant} :
    Stage env q (dispatchProject env p line start)
      [.received q line, .dispatched q p.manifest] := by
  unfold dispatchProject
  split
  · exact .direct .malformed
  · exact .direct .ping
  · exact .direct .info
  · rename_i name
    split
    · rename_i allowed
      exact .lookingUp allowed
    · rename_i absent
      exact .emitting (.denied absent)

theorem freshEntry_eq {c : BoundedCache} {name : String} {now : Instant} :
    (∃ e ttl, freshEntry c name now = some e ∧ (c.get name now).2 = some ⟨e.value, ttl⟩) ∨
      (freshEntry c name now = none ∧ (c.get name now).2 = none) := by
  unfold freshEntry BoundedCache.get BoundedCache.stored
  cases c.map.lookup name with
  | none => simp
  | some e =>
    by_cases hexp : e.isExpired now = true
    · simp [hexp, Option.filter_some]
    · simp [hexp, Option.filter_some]

theorem afterLookup_stage {name : String} {start now : Instant} {m : Manifest} {c : BoundedCache}
    (allowed : name ∈ m.allowlist.secrets) :
    Stage env q (afterLookup name start (c.get name now).2)
      (askedObs q name m ++ [.lookedUp q name now (freshEntry c name now)]) := by
  rcases freshEntry_eq with ⟨e, ttl, hfresh, hhit⟩ | ⟨hfresh, hhit⟩
  · rw [hfresh, hhit]
    exact .emitting (.hit allowed)
  · rw [hfresh, hhit]
    exact .calling allowed

theorem afterReturn_stage {name : String} {start now at_ : Instant} {m : Manifest}
    {session : Session} (allowed : name ∈ m.allowlist.secrets) :
    Stage env q (afterReturn env name start (env.fnox session name at_))
      (calledObs q name m now session) := by
  cases answer : env.fnox session name at_ with
  | error msg => exact .emitting (.failed allowed answer)
  | ok found =>
    cases found with
    | none => exact .emitting (.notFound allowed answer)
    | some value => exact .inserting allowed answer

/-- A step of a connection takes the request it serves to its next stage, or answers it. -/
theorem ConnStep.stage (step : ConnStep env backend q p conn a p' conn' o)
    (hname : p.name = q.conn.reg.name) (stage : Stage env q conn.pc hist) :
    conn'.isClosed = true ∧ o = [] ∧ conn'.served = conn.served ∨
    (Stage env q conn'.pc (hist ++ o) ∧ conn'.served = conn.served) ∨
    ∃ response, Stage env q (.writing response) hist ∧ o = [.answered q response] ∧
      conn'.pc = .reading ∧ conn'.served = conn.served + 1 := by
  cases step with
  | closed pc => exact .inl ⟨rfl, rfl, rfl⟩
  | answered pc =>
    rw [pc] at stage
    exact .inr (.inr ⟨_, stage, rfl, rfl, rfl⟩)
  | received pc =>
    rw [pc] at stage
    cases stage
    exact .inr (.inl ⟨.dispatching, rfl⟩)
  | dispatched pc =>
    rw [pc] at stage
    cases stage
    exact .inr (.inl ⟨dispatchProject_stage, rfl⟩)
  | lookedUp pc =>
    rw [pc] at stage
    cases stage with
    | lookingUp allowed => exact .inr (.inl ⟨afterLookup_stage allowed, rfl⟩)
  | noSession pc degraded =>
    rw [pc] at stage
    cases stage with
    | calling allowed =>
      rw [List.append_nil]
      exact .inr (.inl ⟨.emitting (.degraded allowed), rfl⟩)
  | called pc configured =>
    rw [pc] at stage
    cases stage with
    | calling allowed => exact .inr (.inl ⟨.awaiting allowed, rfl⟩)
  | returned pc =>
    rw [pc] at stage
    cases stage with
    | awaiting allowed =>
      rw [List.append_nil]
      exact .inr (.inl ⟨afterReturn_stage allowed, rfl⟩)
  | inserted pc =>
    rw [pc] at stage
    cases stage with
    | inserting allowed answer => exact .inr (.inl ⟨.readingTtl allowed answer, rfl⟩)
  | readTtl pc =>
    rw [pc] at stage
    cases stage with
    | readingTtl allowed answer =>
      rw [List.append_nil]
      exact .inr (.inl ⟨.emitting (.fetched allowed answer), rfl⟩)
  | emitted pc =>
    rw [pc] at stage
    cases stage with
    | emitting fetch =>
      rw [hname]
      exact .inr (.inl ⟨.recorded fetch, rfl⟩)
  | started pc =>
    rw [pc] at stage
    exact .inr (.inl ⟨.writing stage, rfl⟩)

/-- A connection step shows at most one observation, and it is of the request being served. -/
theorem ConnStep.obs (step : ConnStep env backend q p conn a p' conn' o) :
    o = [] ∨ ∃ x : Obs, o = [x] ∧ x.request = some q := by
  cases step with
  | noSession | returned | readTtl | closed => exact .inl rfl
  | received | dispatched | lookedUp | called | inserted | emitted | started | answered =>
    exact .inr ⟨_, rfl, rfl⟩

theorem ConnStep.ofRequest_own (step : ConnStep env backend q p conn a p' conn' o) :
    ofRequest q o = o := by
  rcases step.obs with rfl | ⟨x, rfl, hx⟩
  · rfl
  · simp [ofRequest, hx]

theorem ConnStep.ofRequest_other {q' : RequestId}
    (step : ConnStep env backend q p conn a p' conn' o) (hq : q' ≠ q) : ofRequest q' o = [] := by
  rcases step.obs with rfl | ⟨x, rfl, hx⟩
  · rfl
  · simp [ofRequest, hx, Ne.symm hq]

theorem ConnStep.fresh_hit {q' : RequestId} {name : String} {now : Instant} {e : CacheEntry}
    (step : ConnStep env backend q p conn a p' conn' o)
    (h : .lookedUp q' name now (some e) ∈ o) :
    p.cache.stored name = some e ∧ now - e.fetchedAt < e.ttl := by
  cases step with
  | lookedUp =>
    simp only [List.mem_singleton, Obs.lookedUp.injEq] at h
    obtain ⟨-, rfl, rfl, hfresh⟩ := h
    obtain ⟨hstored, hlive⟩ := Option.filter_eq_some_iff.mp hfresh.symm
    exact ⟨hstored, by simpa [CacheEntry.isExpired] using hlive⟩
  | _ => simp at h

theorem AdminStep.ofRequest_eq {s t : Daemon} {id : AdminId} {a : AdminAction}
    (step : AdminStep env s id a t o) : ofRequest q o = [] := by
  cases step with
  | bindFailed | bound => simp [ofRequest, fileObs, Obs.request]
  | _ => rfl

/-- Only the steps of a connection are observed of a request. -/
theorem DaemonStep.ofRequest_eq {s t : Daemon} {a : Action} (step : DaemonStep env s a t o)
    (ha : ∀ c b, a ≠ .conn c b) : ofRequest q o = [] := by
  cases step with
  | admin step => exact step.ofRequest_eq
  | conn => exact absurd rfl (ha _ _)
  | loop | rotate | status | writer => rfl

/-- A lookup that is served, is from an entry of its own registration that has not outlived its
time. -/
theorem DaemonStep.hit {s t : Daemon} {a : Action} {name : String} {now : Instant} {e : CacheEntry}
    (step : DaemonStep env s a t o) (h : .lookedUp q name now (some e) ∈ o) :
    ∃ p, s.projects q.conn.reg = some p ∧ p.cache.stored name = some e ∧
      now - e.fetchedAt < e.ttl := by
  cases step with
  | admin step =>
    have hown : .lookedUp q name now (some e) ∈ ofRequest q o := mem_ofRequest.mpr ⟨h, rfl⟩
    simp [step.ofRequest_eq] at hown
  | @conn c a conn p p' conn' o task project step =>
    obtain rfl : q = ⟨c, conn.served⟩ := by
      rcases step.obs with rfl | ⟨x, rfl, hx⟩
      · cases h
      · rw [← List.mem_singleton.mp h] at hx
        exact Option.some.inj hx
    exact ⟨p, project, step.fresh_hit h⟩
  | loop | writer => cases h
  | rotate | status => simp at h

end

/-- The observations of a run put every request in a life.  `unborn`, `serving` and `future` say
where the request stands with its connection, and carry the induction. -/
structure Requests (env : Env) (tr : List Obs) (s : Daemon) : Prop where
  unborn : ∀ q, s.conns q.conn = none → ofRequest q tr = []
  serving : ∀ c conn, s.conns c = some conn → conn.isClosed = false →
    Stage env ⟨c, conn.served⟩ conn.pc (ofRequest ⟨c, conn.served⟩ tr)
  future : ∀ q conn, s.conns q.conn = some conn → conn.served < q.seq → ofRequest q tr = []
  life : ∀ q pre, pre <+: tr → Life env q (ofRequest q pre)

section
variable {env : Env} {tr o : List Obs} {s t : Daemon}

theorem Requests.initial {backend : Option Session} {stale : Daemon.Stale} :
    Requests env [] (Daemon.init env backend stale) := by
  constructor
  · intro q _
    rfl
  · intro c conn hconn
    cases hconn
  · intro q conn hconn
    cases hconn
  · intro q pre hpre
    rw [List.prefix_nil.mp hpre]
    exact .stage .reading

/-- Steps that are not of a project connection leave every request where it is. -/
theorem Requests.frame (h : Requests env tr s) (hobs : ∀ q, ofRequest q o = [])
    (hconns : ∀ c, ConnChange (s.conns c) (t.conns c)) :
    Requests env (tr ++ o) t := by
  have hsame : ∀ q, ofRequest q (tr ++ o) = ofRequest q tr := fun q => by simp [hobs q]
  constructor
  · intro q hq
    rw [hsame]
    have hchange := hconns q.conn
    rw [hq] at hchange
    generalize hold : s.conns q.conn = old at hchange
    cases hchange
    exact h.unborn q hold
  · intro c conn hconn hopen
    rw [hsame]
    have hchange := hconns c
    rw [hconn] at hchange
    generalize hold : s.conns c = old at hchange
    cases hchange with
    | same => exact h.serving c conn hold hopen
    | @marked old => exact h.serving c old hold hopen
    | dropped => cases hopen
    | opened =>
      rw [h.unborn ⟨c, _⟩ hold]
      exact .reading
  · intro q conn hconn hseq
    rw [hsame]
    have hchange := hconns q.conn
    rw [hconn] at hchange
    generalize hold : s.conns q.conn = old at hchange
    cases hchange with
    | same => exact h.future q conn hold hseq
    | marked | dropped => exact h.future q _ hold hseq
    | opened => exact h.unborn q hold
  · intro q pre hpre
    rcases Machine.prefix_append_cases hpre with hold | ⟨o', rfl, ho'⟩
    · exact h.life q pre hold
    · rw [ofRequest_append, ofRequest_prefix_nil ho' (hobs q), List.append_nil]
      exact h.life q tr List.prefix_rfl

theorem ConnStep.life {c : ConnId} {p p' : Project} {conn conn' : Conn} {a : ConnAction}
    (h : Requests env tr s) (task : s.conns c = some conn) (hname : p.name = c.reg.name)
    (step : ConnStep env s.backend ⟨c, conn.served⟩ p conn a p' conn' o) :
    Life env ⟨c, conn.served⟩ (ofRequest ⟨c, conn.served⟩ tr ++ o) := by
  have stage := h.serving c conn task step.isOpen
  rcases step.stage hname stage with ⟨-, rfl, -⟩ | ⟨next, -⟩ | ⟨_, last, rfl, -, -⟩
  · rw [List.append_nil]
    exact .stage stage
  · exact .stage next
  · exact .answered last

theorem Requests.conn {c : ConnId} {p p' : Project} {conn conn' : Conn} {a : ConnAction}
    (h : Requests env tr s) (task : s.conns c = some conn) (hname : p.name = c.reg.name)
    (step : ConnStep env s.backend ⟨c, conn.served⟩ p conn a p' conn' o)
    (hconns : t.conns = Function.update s.conns c (some conn')) :
    Requests env (tr ++ o) t := by
  have hown : ∀ q : RequestId, q ≠ ⟨c, conn.served⟩ → ofRequest q o = [] :=
    fun q hq => step.ofRequest_other hq
  have hself : ofRequest ⟨c, conn.served⟩ o = o := step.ofRequest_own
  have stage := h.serving c conn task step.isOpen
  have hnext := step.stage hname stage
  have hserved : conn.served ≤ conn'.served := by
    rcases hnext with ⟨-, -, hs⟩ | ⟨-, hs⟩ | ⟨_, -, -, -, hs⟩ <;> omega
  constructor
  · intro q hq
    by_cases hc : q.conn = c
    · rw [hconns, hc, Function.update_self] at hq
      cases hq
    · rw [hconns, Function.update_of_ne hc] at hq
      rw [ofRequest_append, h.unborn q hq, hown q (fun heq => hc (heq ▸ rfl))]
      rfl
  · intro d conn'' hd hopen
    by_cases hc : d = c
    · subst hc
      rw [hconns, Function.update_self] at hd
      cases hd
      rw [ofRequest_append]
      rcases hnext with ⟨hclosed, -, -⟩ | ⟨next, hs⟩ | ⟨_, -, rfl, hpc, hs⟩
      · rw [hclosed] at hopen
        cases hopen
      · rw [hs, hself]
        exact next
      · rw [hs, hpc, h.future _ _ task (Nat.lt_succ_self _), hown _ (by simp)]
        exact .reading
    · rw [hconns, Function.update_of_ne hc] at hd
      rw [ofRequest_append, hown _ (fun heq => hc (congrArg RequestId.conn heq)), List.append_nil]
      exact h.serving d conn'' hd hopen
  · intro q conn'' hq hseq
    by_cases hc : q.conn = c
    · rw [hconns, hc, Function.update_self] at hq
      cases hq
      have hne : q ≠ ⟨c, conn.served⟩ := by
        rintro rfl
        exact absurd hseq (by simpa using hserved)
      rw [ofRequest_append, h.future q conn (hc ▸ task) (by omega), hown q hne]
      rfl
    · rw [hconns, Function.update_of_ne hc] at hq
      rw [ofRequest_append, h.future q conn'' hq hseq, hown q (fun heq => hc (heq ▸ rfl))]
      rfl
  · intro q pre hpre
    rcases Machine.prefix_append_cases hpre with hold | ⟨o', rfl, ho'⟩
    · exact h.life q pre hold
    · by_cases hq : q = ⟨c, conn.served⟩
      · subst hq
        have hsplit : o' = [] ∨ o' = o := by
          rcases step.obs with rfl | ⟨x, rfl, -⟩
          · exact .inl (List.prefix_nil.mp ho')
          · rcases List.prefix_cons_iff.mp ho' with rfl | ⟨l, rfl, hl⟩
            · exact .inl rfl
            · exact .inr (by rw [List.prefix_nil.mp hl])
        rcases hsplit with rfl | rfl
        · rw [List.append_nil]
          exact h.life _ tr List.prefix_rfl
        · rw [ofRequest_append, hself]
          exact step.life h task hname
      · rw [ofRequest_append, ofRequest_prefix_nil ho' (hown q hq), List.append_nil]
        exact h.life q tr List.prefix_rfl

theorem Requests.step {a : Action} (h : Requests env tr s) (hrecords : Records env s)
    (step : DaemonStep env s a t o) : Requests env (tr ++ o) t := by
  rcases a.conn_or with ⟨c, b, rfl⟩ | hother
  · cases step with
    | conn task project step => exact h.conn task (hrecords.project _ _ project).1 step rfl
  · exact h.frame (fun q => step.ofRequest_eq hother) (step.connChange hother)

theorem run_requests {backend : Option Session} {stale : Daemon.Stale} {as : List Action}
    (hrun : run env backend stale as = some (s, tr)) : Requests env tr s := by
  have h : Records env s ∧ Requests env tr s := by
    refine Machine.exec_induction (I := fun tr s => Records env s ∧ Requests env tr s)
      ⟨Records.initial, Requests.initial⟩ ?_ hrun
    intro tr s a t o h hs
    exact ⟨h.1.step (step_cases hs), h.2.step h.1 (step_cases hs)⟩
  exact h.2

theorem Requests.responding (h : Requests env tr s) {q : RequestId} {r : ProjectResponse}
    {pre : List Obs} (hpre : pre ++ [.writing q r] <+: tr) :
    Stage env q (.responding r) (ofRequest q pre) := by
  have hlife := h.life q _ hpre
  have hconcat : ofRequest q (pre ++ [.writing q r]) = ofRequest q pre ++ [.writing q r] := by
    simp [ofRequest, Obs.request]
  exact (hconcat ▸ hlife).writing_inv

theorem step_conn_eq {c : ConnId} {conn conn' : Conn} {p p' : Project} {a : ConnAction}
    (hconn : s.conns c = some conn) (hp : s.projects c.reg = some p)
    (h : connStep env s.backend ⟨c, conn.served⟩ p conn a = some (p', conn', o)) :
    ∃ t, RemoBroker.step env s (.conn c a) = some (t, o) ∧ t.conns c = some conn' ∧
      t.projects c.reg = some p' := by
  refine ⟨{ s.setProject c.reg p' with
      conns := Function.update s.conns c (some conn')
      audit := Daemon.recordAll s.audit o }, ?_, Function.update_self .., Function.update_self ..⟩
  simp only [RemoBroker.step, stepConn, hconn, hp, h]

theorem answer_writing {c : ConnId} {conn : Conn} {p : Project} {r : ProjectResponse}
    (hconn : s.conns c = some conn) (hp : s.projects c.reg = some p)
    (hpc : conn.pc = .writing r) :
    ∃ as t tr, Machine.exec (RemoBroker.step env) s as = some (t, tr) ∧
      .answered ⟨c, conn.served⟩ r ∈ tr := by
  have hstep : connStep env s.backend ⟨c, conn.served⟩ p conn .finishWrite =
      some (p, { conn with served := conn.served + 1, pc := .reading },
        [.answered ⟨c, conn.served⟩ r]) := by simp only [connStep, hpc]
  obtain ⟨t, ht, -, -⟩ := step_conn_eq hconn hp hstep
  exact ⟨[.conn c .finishWrite], t, _, Machine.exec_cons ht rfl, by simp⟩

theorem answer_responding {c : ConnId} {conn : Conn} {p : Project} {r : ProjectResponse}
    (hconn : s.conns c = some conn) (hp : s.projects c.reg = some p)
    (hpc : conn.pc = .responding r) :
    ∃ as t tr, Machine.exec (RemoBroker.step env) s as = some (t, tr) ∧
      .answered ⟨c, conn.served⟩ r ∈ tr := by
  have hstep : connStep env s.backend ⟨c, conn.served⟩ p conn .startWrite =
      some (p, { conn with pc := .writing r }, [.writing ⟨c, conn.served⟩ r]) := by
    simp only [connStep, hpc]
  obtain ⟨t, ht, hconn', hp'⟩ := step_conn_eq hconn hp hstep
  obtain ⟨as, u, tr, hrun, hmem⟩ := answer_writing hconn' hp' rfl
  exact ⟨.conn c .startWrite :: as, u, _, Machine.exec_cons ht hrun,
    List.mem_append_right _ hmem⟩

/-- A connection that has decided on a response is able to answer with it by its own steps. -/
theorem answer_response {c : ConnId} {conn : Conn} {p : Project} {r : ProjectResponse}
    (hconn : s.conns c = some conn) (hp : s.projects c.reg = some p)
    (hr : conn.pc.response = some r) :
    ∃ as t tr, Machine.exec (RemoBroker.step env) s as = some (t, tr) ∧
      .answered ⟨c, conn.served⟩ r ∈ tr := by
  cases hpc : conn.pc with
  | emitting event r' =>
    obtain rfl : r' = r := by simpa [hpc, ConnPc.response] using hr
    have hstep : connStep env s.backend ⟨c, conn.served⟩ p conn (.emit 0 0) =
        some (p, { conn with pc := .responding r' },
          [.recorded ⟨c, conn.served⟩ (emitFetch p.name conn event 0 0)]) := by
      simp only [connStep, hpc]
    obtain ⟨t, ht, hconn', hp'⟩ := step_conn_eq hconn hp hstep
    obtain ⟨as, u, tr, hrun, hmem⟩ := answer_responding hconn' hp' rfl
    exact ⟨.conn c (.emit 0 0) :: as, u, _, Machine.exec_cons ht hrun,
      List.mem_append_right _ hmem⟩
  | responding r' =>
    obtain rfl : r' = r := by simpa [hpc, ConnPc.response] using hr
    exact answer_responding hconn hp hpc
  | writing r' =>
    obtain rfl : r' = r := by simpa [hpc, ConnPc.response] using hr
    exact answer_writing hconn hp hpc
  | _ => simp [hpc, ConnPc.response] at hr

end

end RemoBroker
