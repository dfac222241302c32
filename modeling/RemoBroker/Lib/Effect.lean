import Mathlib.Control.Basic

/-! Computations with errors and a state that may also have no result at all: what it is that one
returns, and one rule for each way to build it. -/

namespace Effect

variable {ε σ α β : Type} {before after : σ} {a a' : α} {b : β}
  {x : ExceptT ε (StateT σ Option) α} {f : α → ExceptT ε (StateT σ Option) β} {e : ε}
  {p : Prop} [Decidable p]

/-- A computation returns a value, and the state before becomes the one after. -/
def Returns (x : ExceptT ε (StateT σ Option) α) (before : σ) (a : α) (after : σ) : Prop :=
  x.run.run before = some (.ok a, after)

theorem returns_pure :
    Returns (pure a : ExceptT ε (StateT σ Option) α) before a' after ↔
      a' = a ∧ after = before := by
  simp only [Returns, ExceptT.run_pure, StateT.run_pure]
  constructor
  · rintro ⟨⟩
    exact ⟨rfl, rfl⟩
  · rintro ⟨rfl, rfl⟩
    rfl

theorem not_returns_throw :
    ¬Returns (throw e : ExceptT ε (StateT σ Option) α) before a after := by
  rintro ⟨⟩

theorem returns_bind : Returns (x >>= f) before b after ↔
    ∃ a between, Returns x before a between ∧ Returns (f a) between b after := by
  simp only [Returns, ExceptT.run_bind, StateT.run_bind, Option.bind_eq_bind,
    Option.bind_eq_some_iff, Prod.exists]
  constructor
  · rintro ⟨r, between, hx, hf⟩
    cases r with
    | ok a => exact ⟨a, between, hx, hf⟩
    | error e => cases hf
  · rintro ⟨a, between, hx, hf⟩
    exact ⟨.ok a, between, hx, hf⟩

theorem returns_get {g : σ → ExceptT ε (StateT σ Option) α} :
    Returns (get >>= g) before a after ↔ Returns (g before) before a after := Iff.rfl

theorem returns_set {s : σ} :
    Returns (set s >>= fun _ => x) before a after ↔ Returns x s a after := Iff.rfl

/-- A result that may be missing, in any state. -/
theorem returns_lift {r : Option (Except ε α)} :
    Returns (ExceptT.mk (liftM r) : ExceptT ε (StateT σ Option) α) before a after ↔
      r = some (.ok a) ∧ after = before := by
  cases r with
  | none => simp [Returns]
  | some r => simp [Returns, eq_comm]

/-- A check that stops the computation. -/
theorem returns_check :
    Returns (if p then throw e else pure a : ExceptT ε (StateT σ Option) α) before a' after ↔
      ¬p ∧ a' = a ∧ after = before := by
  by_cases hp : p
  · simp [hp, not_returns_throw]
  · simp [hp, returns_pure]

/-- A computation has a result, and the result and the state after it meet `Q`. -/
def Ensures (x : ExceptT ε (StateT σ Option) α) (before : σ) (Q : Except ε α → σ → Prop) : Prop :=
  ∃ r after, x.run.run before = some (r, after) ∧ Q r after

section
variable {Q R : Except ε α → σ → Prop} {Q' : Except ε β → σ → Prop}

theorem ensures_pure (h : Q (.ok a) before) :
    Ensures (pure a : ExceptT ε (StateT σ Option) α) before Q :=
  ⟨_, _, rfl, h⟩

theorem ensures_throw (h : Q (.error e) before) :
    Ensures (throw e : ExceptT ε (StateT σ Option) α) before Q :=
  ⟨_, _, rfl, h⟩

theorem ensures_get {g : σ → ExceptT ε (StateT σ Option) α} :
    Ensures (get >>= g) before Q ↔ Ensures (g before) before Q := Iff.rfl

theorem ensures_set {s : σ} :
    Ensures (set s >>= fun _ => x) before Q ↔ Ensures x s Q := Iff.rfl

theorem ensures_lift {o : Option (Except ε α)} {r : Except ε α} (ho : o = some r)
    (h : Q r before) : Ensures (ExceptT.mk (liftM o) : ExceptT ε (StateT σ Option) α) before Q :=
  ⟨r, before, by simp [ho], h⟩

theorem Ensures.bind (hx : Ensures x before Q) (hok : ∀ a s, Q (.ok a) s → Ensures (f a) s Q')
    (herror : ∀ e s, Q (.error e) s → Q' (.error e) s) : Ensures (x >>= f) before Q' := by
  obtain ⟨r, between, hrun, hr⟩ := hx
  cases r with
  | ok a =>
    obtain ⟨r', after, hrun', hr'⟩ := hok a between hr
    refine ⟨r', after, ?_, hr'⟩
    simp only [ExceptT.run_bind, StateT.run_bind, hrun, Option.bind_eq_bind, Option.bind_some]
    exact hrun'
  | error e =>
    refine ⟨.error e, between, ?_, herror e between hr⟩
    simp only [ExceptT.run_bind, StateT.run_bind, hrun, Option.bind_eq_bind, Option.bind_some]
    rfl

theorem Ensures.weaken (hx : Ensures x before Q) (h : ∀ r s, Q r s → R r s) :
    Ensures x before R := by
  obtain ⟨r, after, hrun, hr⟩ := hx
  exact ⟨r, after, hrun, h r after hr⟩

end

/-! Computations whose state is a list that they only add to. -/

variable {E : Type}

/-- A computation ends with a value or an error and has added the elements to the list. -/
def Writes (x : ExceptT ε (StateT (List E) Option) α) (r : Except ε α) (es : List E) : Prop :=
  ∀ before, x.run.run before = some (r, before ++ es)

section
variable {x : ExceptT ε (StateT (List E) Option) α} {f : α → ExceptT ε (StateT (List E) Option) β}
  {es es' : List E} {r r' : Except ε α} {s : Except ε β} {y : E}

theorem writes_pure : Writes (pure a : ExceptT ε (StateT (List E) Option) α) (.ok a) [] :=
  fun before => by simp

theorem writes_throw : Writes (throw e : ExceptT ε (StateT (List E) Option) α) (.error e) [] :=
  fun before => by simp

theorem writes_result : Writes (ExceptT.mk (pure r) : ExceptT ε (StateT (List E) Option) α) r [] :=
  fun before => by simp

theorem writes_add :
    Writes (modify (· ++ [y]) : ExceptT ε (StateT (List E) Option) PUnit) (.ok ⟨⟩) [y] :=
  fun _ => rfl

theorem writes_lift {o : Option α} (h : o = some a) :
    Writes (ExceptT.lift (StateT.lift o) : ExceptT ε (StateT (List E) Option) α) (.ok a) [] :=
  fun before => by simp [h, ExceptT.lift]

theorem Writes.bind (hx : Writes x (.ok a) es) (hf : Writes (f a) s es') :
    Writes (x >>= f) s (es ++ es') := by
  intro before
  simp only [ExceptT.run_bind, StateT.run_bind, hx before, Option.bind_eq_bind, Option.bind_some]
  exact (hf _).trans (by rw [List.append_assoc])

theorem Writes.stop (hx : Writes x (.error e) es) : Writes (x >>= f) (.error e) es := by
  intro before
  simp only [ExceptT.run_bind, StateT.run_bind, hx before, Option.bind_eq_bind, Option.bind_some]
  rfl

theorem Writes.unique (h : Writes x r es) (h' : Writes x r' es') : r = r' ∧ es = es' := by
  have heq := (h []).symm.trans (h' [])
  simpa using heq

end

end Effect
