import RemoBroker.Bootstrap.Http
import RemoBroker.Daemon.Step
import RemoBroker.Lib.Effect

/-! The tokens that `fetch_token` accepts.  The token of a file, the metadata token and the role are
checked for a character that is not white space; the value of the environment variable is only
checked to be non-empty, and the credentials of the metadata service are not checked at all. -/

namespace RemoBroker

open Utf8 (encode)

/-- The connection answers with a 2xx response that has this text as its body. -/
def Exchange.Success (x : Exchange) (text : String) : Prop :=
  ∃ raw header status body, x = .received raw ∧ IsResponse raw header status body ∧
    200 ≤ status ∧ status < 300 ∧ text = Str.fromUtf8Lossy body

/-- The first line of a text that is not blank, trimmed. -/
def IsRole (body role : String) : Prop :=
  ∃ before line after, Str.lines body = before ++ line :: after ∧ (∀ l ∈ before, Str.Blank l) ∧
    ¬Str.Blank line ∧ role = Str.trim line

/-- The three calls of a fetch from the metadata service, each with what the ones before it
answered. -/
def ImdsChain (w : Surroundings) (token : String) (requests : List String) : Prop :=
  ∃ body₁ body₂ role, (w.network 0).Success body₁ ∧ (w.network 1).Success body₂ ∧
    (w.network 2).Success token ∧ IsRole body₂ role ∧
    requests = [metadataTokenRequest,
      getRequest (credentialsEndpoint "") (Str.trim body₁),
      getRequest (credentialsEndpoint role) (Str.trim body₁)]

/-- A token with a character that is not white space. -/
def UsableToken (token : String) : Prop := ∃ c ∈ token.toList, Str.isWhitespace c = false

instance (token : String) : Decidable (UsableToken token) := List.decidableBEx _ token.toList

/-- The source holds a blank value in the one place where the broker does not look for it. -/
def AnswersBlank (w : Surroundings) : BootstrapSource → Prop
  | .file _ => False
  | .env => ∃ value, w.env bootstrapEnvVar = some (encode value.toList) ∧ value ≠ "" ∧
      Str.Blank value
  | .imds => ∃ body₁ body₂ body₃, (w.network 0).Success body₁ ∧ ¬Str.Blank body₁ ∧
      (w.network 1).Success body₂ ∧ ¬Str.Blank body₂ ∧
      (w.network 2).Success body₃ ∧ Str.Blank body₃

section
variable {w : Surroundings} {endpoint request text token body role path : String}
  {before after requests : List String} {timeout : Duration} {x : Exchange}

theorem usableToken_iff : UsableToken token ↔ ¬Str.Blank token := by
  simp [UsableToken, Str.Blank]

theorem exchange_success (endpoint : String) : x.Success text ↔
    ∃ raw, x = .received raw ∧ parseHttpResponse endpoint raw = some (.ok text) := by
  simp only [parseHttpResponse_eq_ok]
  constructor
  · rintro ⟨raw, header, status, body, hx, hresponse⟩
    exact ⟨raw, hx, header, status, body, hresponse⟩
  · rintro ⟨raw, hx, header, status, body, hresponse⟩
    exact ⟨raw, header, status, body, hx, hresponse⟩

theorem imdsRoundTrip_returns :
    Effect.Returns (imdsRoundTrip w imdsBaseUrl endpoint request timeout) before text after ↔
      (w.network before.length).Success text ∧ after = before ++ [request] := by
  have hbase : parseBaseUrl imdsBaseUrl = .ok ("169.254.169.254", 80) := by decide
  simp only [imdsRoundTrip, hbase, liftExcept, pure_bind, Effect.returns_get,
    exchange_success endpoint]
  cases w.network before.length with
  | connectFailed source => simp [Effect.not_returns_throw]
  | connectTimedOut => simp [Effect.not_returns_throw]
  | ioFailed source => simp [Effect.returns_set, Effect.not_returns_throw]
  | ioTimedOut => simp [Effect.returns_set, Effect.not_returns_throw]
  | received raw => simp [Effect.returns_set, Effect.returns_lift]

/-- A call whose answer is checked. -/
theorem checkedRoundTrip_returns {α : Type} {bad : String → Prop} [DecidablePred bad]
    {e : BootstrapError} {g : String → α} {a : α} :
    Effect.Returns (do
      let body ← imdsRoundTrip w imdsBaseUrl endpoint request timeout
      if bad body then throw e else pure (g body)) before a after ↔
    ∃ body, (w.network before.length).Success body ∧ ¬bad body ∧ a = g body ∧
      after = before ++ [request] := by
  simp only [Effect.returns_bind, imdsRoundTrip_returns, Effect.returns_check]
  constructor
  · rintro ⟨body, between, ⟨hbody, rfl⟩, hbad, ha, hafter⟩
    exact ⟨body, hbody, hbad, ha, hafter⟩
  · rintro ⟨body, hbody, hbad, ha, hafter⟩
    exact ⟨body, _, ⟨hbody, rfl⟩, hbad, ha, hafter⟩

theorem fetchImdsMetadataToken_returns :
    Effect.Returns (fetchImdsMetadataToken w imdsBaseUrl timeout) before token after ↔
      ∃ body, (w.network before.length).Success body ∧ ¬Str.Blank body ∧ token = Str.trim body ∧
        after = before ++ [metadataTokenRequest] := by
  simp only [fetchImdsMetadataToken, checkedRoundTrip_returns, Str.trim_eq_empty]

theorem find_trim_blank {ls : List String} (h : ∀ l ∈ ls, Str.Blank l) :
    (ls.map Str.trim).find? (· ≠ "") = none := by
  simp only [List.find?_eq_none, List.mem_map]
  rintro _ ⟨l, hl, rfl⟩
  simp [Str.trim_eq_empty.mpr (h l hl)]

/-- The search for the role finds the first line that is not blank. -/
theorem firstRole_of_lines {lead rest : List String} {line : String}
    (hlines : Str.lines body = lead ++ line :: rest) (hlead : ∀ l ∈ lead, Str.Blank l)
    (hline : ¬Str.Blank line) : firstRole body = Str.trim line := by
  have hfound : Str.trim line ≠ "" := mt Str.trim_eq_empty.mp hline
  rw [firstRole, hlines, List.map_append, List.find?_append, find_trim_blank hlead, List.map_cons,
    List.find?_cons_of_pos (by simpa using hfound)]
  rfl

theorem firstRole_blank (h : Str.Blank body) : firstRole body = "" := by
  rw [firstRole, find_trim_blank (Str.blank_lines.mpr h)]
  rfl

/-- A text that is not blank has a first line that is not. -/
theorem exists_line (h : ¬Str.Blank body) : ∃ lead line rest,
    Str.lines body = lead ++ line :: rest ∧ (∀ l ∈ lead, Str.Blank l) ∧ ¬Str.Blank line := by
  cases hfind : (Str.lines body).find? (fun l => ¬Str.Blank l) with
  | none =>
    refine absurd (Str.blank_lines.mp fun l hl => ?_) h
    simpa using List.find?_eq_none.mp hfind l hl
  | some line =>
    obtain ⟨hline, lead, rest, hlines, hlead⟩ := List.find?_eq_some_iff_append.mp hfind
    exact ⟨lead, line, rest, hlines, fun l hl => by simpa using hlead l hl, by simpa using hline⟩

theorem isRole_firstRole (h : ¬Str.Blank body) : IsRole body (firstRole body) := by
  obtain ⟨lead, line, rest, hlines, hlead, hline⟩ := exists_line h
  exact ⟨lead, line, rest, hlines, hlead, hline, firstRole_of_lines hlines hlead hline⟩

theorem firstRole_eq_empty : firstRole body = "" ↔ Str.Blank body := by
  refine ⟨fun hempty => ?_, firstRole_blank⟩
  by_contra h
  obtain ⟨lead, line, rest, -, -, hline, hrole⟩ := isRole_firstRole h
  rw [hempty] at hrole
  exact hline (Str.trim_eq_empty.mp hrole.symm)

theorem fetchImdsRoleName_returns {metadataToken : String} :
    Effect.Returns (fetchImdsRoleName w imdsBaseUrl metadataToken timeout) before role after ↔
      ∃ body, (w.network before.length).Success body ∧ ¬Str.Blank body ∧ role = firstRole body ∧
        after = before ++ [getRequest (credentialsEndpoint "") metadataToken] := by
  simp only [fetchImdsRoleName, checkedRoundTrip_returns, firstRole_eq_empty]

/-- Everything that a fetch from the metadata service has checked and sent. -/
theorem fetchImdsAt_returns :
    Effect.Returns (fetchImdsAt w imdsBaseUrl timeout) [] token requests ↔
      ∃ body₁ body₂, (w.network 0).Success body₁ ∧ ¬Str.Blank body₁ ∧
        (w.network 1).Success body₂ ∧ ¬Str.Blank body₂ ∧ (w.network 2).Success token ∧
        requests = [metadataTokenRequest,
          getRequest (credentialsEndpoint "") (Str.trim body₁),
          getRequest (credentialsEndpoint (firstRole body₂)) (Str.trim body₁)] := by
  simp only [fetchImdsAt, fetchImdsRoleCredentials, Effect.returns_bind,
    fetchImdsMetadataToken_returns, fetchImdsRoleName_returns, imdsRoundTrip_returns]
  constructor
  · rintro ⟨_, _, ⟨body₁, hbody₁, hblank₁, rfl, rfl⟩, _, _, ⟨body₂, hbody₂, hblank₂, rfl, rfl⟩,
      htoken, hrequests⟩
    exact ⟨body₁, body₂, hbody₁, hblank₁, hbody₂, hblank₂, htoken, hrequests⟩
  · rintro ⟨body₁, body₂, hbody₁, hblank₁, hbody₂, hblank₂, htoken, hrequests⟩
    exact ⟨_, _, ⟨body₁, hbody₁, hblank₁, rfl, rfl⟩, _, _, ⟨body₂, hbody₂, hblank₂, rfl, rfl⟩,
      htoken, hrequests⟩

theorem imdsChain_of_returns
    (h : Effect.Returns (fetchImdsAt w imdsBaseUrl timeout) [] token requests) :
    ImdsChain w token requests := by
  obtain ⟨body₁, body₂, hbody₁, -, hbody₂, hblank₂, htoken, hrequests⟩ := fetchImdsAt_returns.mp h
  exact ⟨body₁, body₂, firstRole body₂, hbody₁, hbody₂, htoken, isRole_firstRole hblank₂,
    hrequests⟩

theorem fetchFile_usable (h : Effect.Returns (fetchFile w path) before token after) :
    UsableToken token := by
  unfold fetchFile at h
  cases hread : readToString (w.file path) with
  | error e =>
    rw [hread] at h
    cases e with
    | notFound => exact absurd h Effect.not_returns_throw
    | other source => exact absurd h Effect.not_returns_throw
  | ok s =>
    rw [hread] at h
    obtain ⟨hne, rfl, -⟩ := Effect.returns_check.mp h
    rw [usableToken_iff, Str.blank_trim]
    exact mt Str.trim_eq_empty.mpr hne

theorem fetchEnvWithVar_returns {var : String} :
    Effect.Returns (fetchEnvWithVar w var) before token after ↔
      w.env var = some (encode token.toList) ∧ token ≠ "" ∧ after = before := by
  unfold fetchEnvWithVar
  cases w.env var with
  | none => simp [Effect.not_returns_throw]
  | some value =>
    have hdecode := fun s => Str.fromUtf8_eq_some (s := s) (v := value)
    cases hvalue : Str.fromUtf8 value with
    | none =>
      have hne : value ≠ encode token.toList := fun he => by
        simp [(hdecode token).mpr he] at hvalue
      simp [hvalue, Effect.not_returns_throw, hne]
    | some s =>
      simp only [Effect.returns_check, Option.some.injEq, ← hdecode, hvalue]
      constructor
      · rintro ⟨hne, rfl, hafter⟩
        exact ⟨rfl, hne, hafter⟩
      · rintro ⟨rfl, hne, hafter⟩
        exact ⟨hne, rfl, hafter⟩

end

/-- The broker accepts a blank token from exactly the sources that answer with one where it does not
look. -/
theorem fetchToken_blank {w : Surroundings} {source : BootstrapSource} :
    (∃ token requests, Effect.Returns (fetchToken w source) [] token requests ∧
      Str.Blank token) ↔ AnswersBlank w source := by
  cases source with
  | file path =>
    simp only [AnswersBlank, iff_false]
    rintro ⟨token, requests, hreturns, hblank⟩
    exact usableToken_iff.mp (fetchFile_usable hreturns) hblank
  | env =>
    simp only [fetchToken, fetchEnvWithVar_returns, AnswersBlank]
    constructor
    · rintro ⟨token, requests, ⟨hvalue, hne, -⟩, hblank⟩
      exact ⟨token, hvalue, hne, hblank⟩
    · rintro ⟨token, hvalue, hne, hblank⟩
      exact ⟨token, [], ⟨hvalue, hne, rfl⟩, hblank⟩
  | imds =>
    simp only [fetchToken, fetchImdsAt_returns, AnswersBlank]
    constructor
    · rintro ⟨token, _, ⟨body₁, body₂, hbody₁, hblank₁, hbody₂, hblank₂, htoken, -⟩, hblank⟩
      exact ⟨body₁, body₂, token, hbody₁, hblank₁, hbody₂, hblank₂, htoken, hblank⟩
    · rintro ⟨body₁, body₂, token, hbody₁, hblank₁, hbody₂, hblank₂, htoken, hblank⟩
      exact ⟨token, _, ⟨body₁, body₂, hbody₁, hblank₁, hbody₂, hblank₂, htoken, rfl⟩, hblank⟩

theorem fetchToken_usable {w : Surroundings} {source : BootstrapSource} {token : String}
    {requests : List String} (h : Effect.Returns (fetchToken w source) [] token requests)
    (hblank : ¬AnswersBlank w source) : UsableToken token :=
  usableToken_iff.mpr fun hall => hblank (fetchToken_blank.mp ⟨token, requests, h, hall⟩)

/-- What `dispatch_rotate_bootstrap` reads of a fetch. -/
def tokenCheck (debug : String → String) : Except BootstrapError String → Except String Unit
  | .ok _ => .ok ()
  | .error e => .error (e.message debug)

/-- A rotation that succeeds has fetched a usable token. -/
theorem rotate_usable {env : Env} {s s' : Daemon} {w : Surroundings} {debug : String → String}
    {result : Except BootstrapError String} {requests : List String}
    {rebuilt : Except String Session}
    (hfetch : (fetchToken w env.config.bootstrap).run.run [] = some (result, requests))
    (hblank : ¬AnswersBlank w env.config.bootstrap)
    (hstep : step env s (.rotate (tokenCheck debug result) rebuilt) =
      some (s', [.served .rotated])) : ∃ token, result = .ok token ∧ UsableToken token := by
  cases result with
  | ok token => exact ⟨token, rfl, fetchToken_usable hfetch hblank⟩
  | error e =>
    cases hbackend : s.backend with
    | none => simp [step, hbackend, rotateBootstrap] at hstep
    | some session => simp [step, hbackend, rotateBootstrap, tokenCheck] at hstep

/-- Only usable tokens are accepted, with the three calls of the metadata service chained, exactly
when no blank value comes from where the broker does not look for one. -/
theorem fetch_token_accepts_usable (w : Surroundings) (source : BootstrapSource) :
    (∀ token requests, Effect.Returns (fetchToken w source) [] token requests →
      UsableToken token ∧ (source = .imds → ImdsChain w token requests)) ↔
    ¬AnswersBlank w source := by
  constructor
  · intro h hblank
    obtain ⟨token, requests, hreturns, hall⟩ := fetchToken_blank.mpr hblank
    exact usableToken_iff.mp (h token requests hreturns).1 hall
  · intro hblank token requests hreturns
    refine ⟨fetchToken_usable hreturns hblank, ?_⟩
    rintro rfl
    exact imdsChain_of_returns hreturns

/-- Surroundings with this environment variable and these answers of the metadata service. -/
def sampleSurroundings (value : String) (answers : List String) : Surroundings where
  file _ := .error .notFound
  env _ := some (encode value.toList)
  network i := match answers[i]? with
    | some text => .received (encode text.toList)
    | none => .connectTimedOut

/-- The metadata service with a token, a role after an empty line, and these credentials. -/
def sampleImds (credentials : String) : Surroundings :=
  sampleSurroundings "" ["HTTP/1.1 200 OK\r\n\r\n TOKEN\n", "HTTP/1.1 200 OK\r\n\r\n\nrole\n",
    "HTTP/1.1 200 OK\r\n\r\n" ++ credentials]

/-- The requests of a fetch from it. -/
def sampleRequests : List String :=
  [metadataTokenRequest, getRequest (credentialsEndpoint "") "TOKEN",
    getRequest (credentialsEndpoint "role") "TOKEN"]

theorem fetch_token_accepts_usable_imds :
    Effect.Returns (fetchToken (sampleImds "key") .imds) [] "key" sampleRequests ∧
    UsableToken "key" ∧ ImdsChain (sampleImds "key") "key" sampleRequests := by
  have hreturns : Effect.Returns (fetchToken (sampleImds "key") .imds) [] "key"
      sampleRequests := by
    unfold Effect.Returns
    decide +kernel
  have hanswers : ¬AnswersBlank (sampleImds "key") .imds := by
    rintro ⟨-, -, body₃, -, -, -, -, hbody₃, hblank⟩
    obtain ⟨raw, hraw, hparse⟩ := (exchange_success "").mp hbody₃
    cases hraw
    cases hparse
    revert hblank
    decide
  obtain ⟨husable, hchain⟩ := (fetch_token_accepts_usable _ _).mpr hanswers _ _ hreturns
  exact ⟨hreturns, husable, hchain rfl⟩

/-- A blank in the environment variable, and credentials with no body. -/
theorem fetch_token_accepts_blank :
    Effect.Returns (fetchToken (sampleSurroundings " " []) .env) [] " " [] ∧ ¬UsableToken " " ∧
    Effect.Returns (fetchToken (sampleImds "") .imds) [] "" sampleRequests ∧
    ¬UsableToken "" := by
  unfold Effect.Returns
  exact ⟨rfl, by decide, by decide +kernel, by decide⟩

end RemoBroker
