import RemoBroker.Bootstrap.Token

/-! The calls of the metadata service that a fetch of the bootstrap token makes, whatever the
service answers: `fetch_token` never panics, and it goes on to the next call only with a successful
answer to the one before. -/

namespace RemoBroker

/-- The call was answered with a text that is not blank. -/
def Exchange.Useful (x : Exchange) : Prop := ∃ text, x.Success text ∧ ¬Str.Blank text

/-- A call ends with a text that `good` accepts, or with an error after no such answer. -/
def CallEnds {α : Type} (w : Surroundings) (before : List String) (request : String)
    (good : String → Prop) (value : String → α) (r : Except BootstrapError α)
    (after : List String) : Prop :=
  (∃ text, r = .ok (value text) ∧ (w.network before.length).Success text ∧ good text ∧
    after = before ++ [request]) ∨
  (∃ e, r = .error e ∧ (∀ text, (w.network before.length).Success text → ¬good text) ∧
    (after = before ∨ after = before ++ [request]))

/-- The requests of the three calls, where the first two are answered like this. -/
def imdsRequests (body₁ body₂ : String) : List String :=
  [metadataTokenRequest, getRequest (credentialsEndpoint "") (Str.trim body₁),
    getRequest (credentialsEndpoint (firstRole body₂)) (Str.trim body₁)]

/-- What a fetch from the metadata service has done when it ends: at most three calls, with what the
calls before have answered, and each of them after a useful answer to the one before; a fetch fails
at the first call that gives nothing useful. -/
structure Orderly (w : Surroundings) (r : Except BootstrapError String) (requests : List String) :
    Prop where
  sent : ∃ body₁ body₂, requests <+: imdsRequests body₁ body₂ ∧
    (2 ≤ requests.length → (w.network 0).Success body₁) ∧
    (3 ≤ requests.length → (w.network 1).Success body₂)
  chained : ∀ i, i + 1 < requests.length → (w.network i).Useful
  succeeded : ∀ token, r = .ok token → requests.length = 3 ∧ (w.network 2).Success token
  failed : ∀ e, r = .error e → ∃ i < 3, i ≤ requests.length ∧ requests.length ≤ i + 1 ∧
    (∀ j < i, (w.network j).Useful) ∧ ¬(w.network i).Useful

section
variable {w : Surroundings} {endpoint request text : String} {before after : List String}
  {timeout : Duration}

theorem not_success {x : Exchange} (h : ∀ raw, x ≠ .received raw) : ¬x.Success text := by
  rintro ⟨raw, -, -, -, hx, -⟩
  exact h raw hx

theorem imdsRoundTrip_ensures :
    Effect.Ensures (imdsRoundTrip w imdsBaseUrl endpoint request timeout) before
      (CallEnds w before request (fun _ => True) fun text => text) := by
  have hbase : parseBaseUrl imdsBaseUrl = .ok ("169.254.169.254", 80) := by decide
  simp only [imdsRoundTrip, hbase, liftExcept, pure_bind, Effect.ensures_get]
  cases hx : w.network before.length with
  | connectFailed source | connectTimedOut =>
    refine Effect.ensures_throw (.inr ⟨_, rfl, ?_, .inl rfl⟩)
    intro text htext
    exact absurd htext (not_success (by simp [hx]))
  | ioFailed source | ioTimedOut =>
    refine Effect.ensures_set.mpr (Effect.ensures_throw (.inr ⟨_, rfl, ?_, .inr rfl⟩))
    intro text htext
    exact absurd htext (not_success (by simp [hx]))
  | received raw =>
    cases hparse : parseHttpResponse endpoint raw with
    | none => exact absurd hparse parseHttpResponse_ne_none
    | some result =>
      refine Effect.ensures_set.mpr (Effect.ensures_lift hparse ?_)
      cases result with
      | ok text =>
        exact .inl ⟨text, rfl, (exchange_success endpoint).mpr ⟨raw, hx, hparse⟩, trivial, rfl⟩
      | error e =>
        refine .inr ⟨e, rfl, ?_, .inr rfl⟩
        intro text htext
        obtain ⟨raw', hraw, hok⟩ := (exchange_success endpoint).mp htext
        cases hx.symm.trans hraw
        cases hparse.symm.trans hok

/-- A call whose answer is checked. -/
theorem checkedRoundTrip_ensures {α : Type} {bad : String → Prop} [DecidablePred bad]
    {e : BootstrapError} {g : String → α} :
    Effect.Ensures (do
      let body ← imdsRoundTrip w imdsBaseUrl endpoint request timeout
      if bad body then throw e else pure (g body)) before
      (CallEnds w before request (fun body => ¬bad body) g) := by
  have hunique : ∀ {x : Exchange} {text text'}, x.Success text → x.Success text' →
      text = text' := by
    intro x text text' h h'
    obtain ⟨raw, hraw, hparse⟩ := (exchange_success endpoint).mp h
    obtain ⟨raw', hraw', hparse'⟩ := (exchange_success endpoint).mp h'
    cases hraw.symm.trans hraw'
    cases hparse.symm.trans hparse'
    rfl
  refine imdsRoundTrip_ensures.bind ?_ ?_
  · rintro _ after (⟨body, ⟨⟩, hsuccess, -, rfl⟩ | ⟨_, ⟨⟩, -⟩)
    by_cases hbad : bad body
    · rw [if_pos hbad]
      refine Effect.ensures_throw (.inr ⟨e, rfl, ?_, .inr rfl⟩)
      intro text htext hgood
      exact hgood (hunique hsuccess htext ▸ hbad)
    · rw [if_neg hbad]
      exact Effect.ensures_pure (.inl ⟨body, rfl, hsuccess, hbad, rfl⟩)
  · rintro e after (⟨text, ⟨⟩, -⟩ | ⟨e', ⟨⟩, hnone, hafter⟩)
    exact .inr ⟨e, rfl, fun text htext => absurd trivial (hnone text htext), hafter⟩

/-- A fetch that fails at call `i`, with or without its request. -/
theorem Orderly.of_failed {e : BootstrapError} {body₁ body₂ : String} (i k : Nat) (hi : i < 3)
    (hk : k = i ∨ k = i + 1) (h₁ : 1 ≤ i → (w.network 0).Success body₁)
    (h₂ : 2 ≤ i → (w.network 1).Success body₂) (huseful : ∀ j < i, (w.network j).Useful)
    (hnot : ¬(w.network i).Useful) :
    Orderly w (.error e) ((imdsRequests body₁ body₂).take k) := by
  have hlength : ((imdsRequests body₁ body₂).take k).length = k := by
    rw [List.length_take]
    exact Nat.min_eq_left (by simp only [imdsRequests, List.length_cons, List.length_nil]; omega)
  constructor
  · refine ⟨body₁, body₂, List.take_prefix _ _, ?_⟩
    rw [hlength]
    exact ⟨fun h => h₁ (by omega), fun h => h₂ (by omega)⟩
  · rw [hlength]
    exact fun j hj => huseful j (by omega)
  · rintro token ⟨⟩
  · rintro _ -
    rw [hlength]
    exact ⟨i, hi, by omega, by omega, huseful, hnot⟩

theorem not_useful {i : Nat} {good : String → Prop} (hgood : ∀ text, ¬Str.Blank text → good text)
    (hnone : ∀ text, (w.network i).Success text → ¬good text) : ¬(w.network i).Useful := by
  rintro ⟨text, hsuccess, hblank⟩
  exact hnone text hsuccess (hgood text hblank)

theorem fetchImdsAt_ensures :
    Effect.Ensures (fetchImdsAt w imdsBaseUrl timeout) [] (Orderly w) := by
  unfold fetchImdsAt
  refine checkedRoundTrip_ensures.bind ?_ ?_
  · rintro _ _ (⟨body₁, ⟨⟩, h₁, hgood₁, rfl⟩ | ⟨_, ⟨⟩, -⟩)
    have huse₁ : (w.network 0).Useful := ⟨body₁, h₁, fun h => hgood₁ (Str.trim_eq_empty.mpr h)⟩
    refine checkedRoundTrip_ensures.bind ?_ ?_
    · rintro _ _ (⟨body₂, ⟨⟩, h₂, hgood₂, rfl⟩ | ⟨_, ⟨⟩, -⟩)
      have huse₂ : (w.network 1).Useful := ⟨body₂, h₂, fun h => hgood₂ (firstRole_eq_empty.mpr h)⟩
      have huseful : ∀ j < 2, (w.network j).Useful
        | 0, _ => huse₁
        | 1, _ => huse₂
      refine imdsRoundTrip_ensures.weaken ?_
      rintro r _ (⟨body₃, rfl, h₃, -, rfl⟩ | ⟨e, rfl, hnone, rfl | rfl⟩)
      · refine ⟨⟨body₁, body₂, List.prefix_rfl, fun _ => h₁, fun _ => h₂⟩, ?_, ?_, ?_⟩
        · exact fun i hi => huseful i (Nat.lt_of_succ_lt_succ hi)
        · rintro _ ⟨⟩
          exact ⟨rfl, h₃⟩
        · rintro _ ⟨⟩
      · exact .of_failed 2 2 (by decide) (.inl rfl) (fun _ => h₁) (fun _ => h₂) huseful
          (not_useful (fun _ _ => trivial) hnone)
      · exact .of_failed 2 3 (by decide) (.inr rfl) (fun _ => h₁) (fun _ => h₂) huseful
          (not_useful (fun _ _ => trivial) hnone)
    · have huseful : ∀ j < 1, (w.network j).Useful
        | 0, _ => huse₁
      rintro e _ (⟨_, ⟨⟩, -⟩ | ⟨_, ⟨⟩, hnone, hafter⟩)
      have hnot : ¬(w.network 1).Useful :=
        not_useful (fun _ hblank h => hblank (firstRole_eq_empty.mp h)) hnone
      rcases hafter with rfl | rfl
      · exact @Orderly.of_failed w e body₁ "" 1 1 (by decide) (.inl rfl) (fun _ => h₁) (by simp)
          huseful hnot
      · exact @Orderly.of_failed w e body₁ "" 1 2 (by decide) (.inr rfl) (fun _ => h₁) (by simp)
          huseful hnot
  · rintro e _ (⟨_, ⟨⟩, -⟩ | ⟨_, ⟨⟩, hnone, hafter⟩)
    have hnot : ¬(w.network 0).Useful :=
      not_useful (fun _ hblank h => hblank (Str.trim_eq_empty.mp h)) hnone
    rcases hafter with rfl | rfl
    · exact @Orderly.of_failed w e "" "" 0 0 (by decide) (.inl rfl) (by simp) (by simp) (by simp)
        hnot
    · exact @Orderly.of_failed w e "" "" 0 1 (by decide) (.inr rfl) (by simp) (by simp) (by simp)
        hnot

theorem fetchFile_ensures {path : String} :
    Effect.Ensures (fetchFile w path) before fun _ after => after = before := by
  unfold fetchFile
  split
  · split
    · exact Effect.ensures_throw rfl
    · exact Effect.ensures_pure rfl
  · exact Effect.ensures_throw rfl
  · exact Effect.ensures_throw rfl

theorem fetchEnvWithVar_ensures {var : String} :
    Effect.Ensures (fetchEnvWithVar w var) before fun _ after => after = before := by
  unfold fetchEnvWithVar
  split
  · exact Effect.ensures_throw rfl
  · split
    · exact Effect.ensures_throw rfl
    · split
      · exact Effect.ensures_throw rfl
      · exact Effect.ensures_pure rfl

end

/-- A fetch of the token ends, whatever files, environment and network answer.  It makes calls to
the metadata service only if that is the source, at most three of them, each after a useful answer
to the one before, and it fails only at a call without one. -/
theorem fetch_token_orderly (w : Surroundings) (source : BootstrapSource) :
    ∃ r requests, (fetchToken w source).run.run [] = some (r, requests) ∧
      (source ≠ .imds → requests = []) ∧ (source = .imds → Orderly w r requests) := by
  cases source with
  | file path =>
    obtain ⟨r, requests, hrun, hsame⟩ := @fetchFile_ensures w [] path
    exact ⟨r, requests, hrun, fun _ => hsame, by simp⟩
  | env =>
    obtain ⟨r, requests, hrun, hsame⟩ := @fetchEnvWithVar_ensures w [] bootstrapEnvVar
    exact ⟨r, requests, hrun, fun _ => hsame, by simp⟩
  | imds =>
    obtain ⟨r, requests, hrun, horderly⟩ := @fetchImdsAt_ensures w imdsTimeout
    exact ⟨r, requests, hrun, by simp, fun _ => horderly⟩

end RemoBroker
