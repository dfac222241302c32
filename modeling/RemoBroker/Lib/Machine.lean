import Mathlib.Data.List.Basic

/-! Machines that take one action at a time.  A step is a partial function: from a state and an
action it gives the next state and what an observer sees of the step, or `none` where the action
is not possible.  A list of actions is one interleaving of everything that runs in the machine, so
a statement about every list of actions is a statement about every schedule. -/

namespace Machine

variable {S A O S' O' : Type}

/-- The steps of a machine with states `S`, actions `A` and observations `O`. -/
abbrev Step (S A O : Type) := S → A → Option (S × List O)

/-- Take the actions in order: the last state and all observations, in order. -/
def exec (step : Step S A O) : S → List A → Option (S × List O)
  | s, [] => some (s, [])
  | s, a :: as =>
    match step s a with
    | none => none
    | some (t, o) => (exec step t as).map fun r => (r.1, o ++ r.2)

variable {step : Step S A O} {s t u : S} {a : A} {as bs : List A} {o tr os : List O}

@[simp] theorem exec_nil : exec step s [] = some (s, []) := rfl

theorem exec_cons_iff : exec step s (a :: as) = some (u, tr) ↔
    ∃ t o os, step s a = some (t, o) ∧ exec step t as = some (u, os) ∧ tr = o ++ os := by
  simp only [exec]
  cases hstep : step s a with
  | none => simp
  | some r =>
    obtain ⟨t, o⟩ := r
    simp only [Option.map_eq_some_iff, Prod.mk.injEq, Prod.exists]
    constructor
    · rintro ⟨v, os, hrun, rfl, rfl⟩
      exact ⟨t, o, os, rfl, hrun, rfl⟩
    · rintro ⟨t', o', os, heq, hrun, rfl⟩
      cases heq
      exact ⟨u, os, hrun, rfl, rfl⟩

theorem exec_cons (hstep : step s a = some (t, o)) (hrest : exec step t as = some (u, os)) :
    exec step s (a :: as) = some (u, o ++ os) := by
  simp [exec, hstep, hrest]

/-- Every step that a run takes, from the state it takes it in, meets `G`. -/
def Along (step : Step S A O) (G : S → A → Prop) : S → List A → Prop
  | _, [] => True
  | s, a :: as => G s a ∧ ∀ t o, step s a = some (t, o) → Along step G t as

def checkAlong (step : Step S A O) (g : S → A → Bool) : S → List A → Bool
  | _, [] => true
  | s, a :: as => g s a && match step s a with
    | none => true
    | some (t, _) => checkAlong step g t as

theorem exec_append (has : exec step s as = some (t, tr)) (hbs : exec step t bs = some (u, os)) :
    exec step s (as ++ bs) = some (u, tr ++ os) := by
  induction as generalizing s tr with
  | nil =>
    cases has
    exact hbs
  | cons a as ih =>
    rw [exec_cons_iff] at has
    obtain ⟨v, o, rest, hstep, hrest, rfl⟩ := has
    rw [List.append_assoc]
    exact exec_cons hstep (ih hrest)

/-- The last step of a run. -/
theorem exec_concat (hrun : exec step s (as ++ [a]) = some (u, tr)) :
    ∃ t tr₁ o, exec step s as = some (t, tr₁) ∧ step t a = some (u, o) ∧ tr = tr₁ ++ o := by
  induction as generalizing s tr with
  | nil =>
    rw [List.nil_append, exec_cons_iff] at hrun
    obtain ⟨t, o, os, ha, has, rfl⟩ := hrun
    cases has
    exact ⟨s, [], o, rfl, ha, by simp⟩
  | cons b as ih =>
    rw [List.cons_append, exec_cons_iff] at hrun
    obtain ⟨t, o, os, hb, has, rfl⟩ := hrun
    obtain ⟨v, tr₁, o', hv, ha, rfl⟩ := ih has
    exact ⟨v, o ++ tr₁, o', exec_cons hb hv, ha, (List.append_assoc ..).symm⟩

/-- What each step keeps, with a note taken of its action, holds at the end of a run with the notes
of all its actions. -/
theorem exec_foldl {N : Type} {note : N → A → N} {I : N → S → Prop} {n : N} (h0 : I n s)
    (hstep : ∀ n s a t o, I n s → step s a = some (t, o) → I (note n a) t)
    (hrun : exec step s as = some (u, tr)) : I (as.foldl note n) u := by
  induction as generalizing s n tr with
  | nil =>
    cases hrun
    exact h0
  | cons a as ih =>
    rw [exec_cons_iff] at hrun
    obtain ⟨t, o, os, ha, hrest, -⟩ := hrun
    exact ih (hstep n s a t o h0 ha) hrest

theorem along_of_forall {P : A → Prop} (h : ∀ a ∈ as, P a) : Along step (fun _ a => P a) s as := by
  induction as generalizing s with
  | nil => trivial
  | cons a as ih => exact ⟨h a (by simp), fun t _ _ => ih fun b hb => h b (by simp [hb])⟩

/-- A run that passes a check is along what the check decides, given an invariant `I` of the checked
steps. -/
theorem along_of_check {G : S → A → Prop} {g : S → A → Bool} {I : S → Prop} (h0 : I s)
    (hinv : ∀ s a t o, I s → g s a = true → step s a = some (t, o) → I t)
    (hg : ∀ s a, I s → g s a = true → G s a) (h : checkAlong step g s as = true) :
    Along step G s as := by
  induction as generalizing s with
  | nil => trivial
  | cons a as ih =>
    simp only [checkAlong, Bool.and_eq_true] at h
    refine ⟨hg s a h0 h.1, fun t o ha => ih (hinv s a t o h0 h.1 ha) ?_⟩
    simpa [ha] using h.2

theorem along_checked {g : S → A → Bool} (h : checkAlong step g s as = true) :
    Along step (fun s a => g s a = true) s as :=
  along_of_check (I := fun _ => True) trivial (fun _ _ _ _ _ _ _ => trivial) (fun _ _ _ hg => hg) h

/-- What holds of the empty history and is kept by each step that meets `G` holds of the history
and the state of every run along `G`. -/
theorem exec_induction_along {G : S → A → Prop} {I : List O → S → Prop} (h0 : I [] s)
    (hstep : ∀ tr s a t o, I tr s → G s a → step s a = some (t, o) → I (tr ++ o) t)
    (hG : Along step G s as) (hrun : exec step s as = some (u, tr)) : I tr u := by
  suffices h : ∀ as s pre tr, I pre s → Along step G s as → exec step s as = some (u, tr) →
      I (pre ++ tr) u from by simpa using h as s [] tr h0 hG hrun
  intro as
  induction as with
  | nil =>
    intro s pre tr hs _ hrun
    cases hrun
    simpa using hs
  | cons a as ih =>
    intro s pre tr hs hG hrun
    rw [exec_cons_iff] at hrun
    obtain ⟨t, o, os, ha, has, rfl⟩ := hrun
    rw [← List.append_assoc]
    exact ih t _ os (hstep _ _ _ _ _ hs hG.1 ha) (hG.2 t o ha) has

/-- What holds of the empty history and is kept by every step holds of every run. -/
theorem exec_induction {I : List O → S → Prop} (h0 : I [] s)
    (hstep : ∀ tr s a t o, I tr s → step s a = some (t, o) → I (tr ++ o) t)
    (hrun : exec step s as = some (u, tr)) : I tr u :=
  exec_induction_along (G := fun _ _ => True) h0 (fun tr s a t o hs _ => hstep tr s a t o hs)
    (along_of_forall fun _ _ => trivial) hrun

theorem exec_invariant_along {G : S → A → Prop} {I : S → Prop} (h0 : I s)
    (hstep : ∀ s a t o, I s → G s a → step s a = some (t, o) → I t)
    (hG : Along step G s as) (hrun : exec step s as = some (u, tr)) : I u :=
  exec_induction_along (I := fun _ s => I s) h0
    (fun _ s a t o hs hg ha => hstep s a t o hs hg ha) hG hrun

theorem exec_invariant {I : S → Prop} (h0 : I s)
    (hstep : ∀ s a t o, I s → step s a = some (t, o) → I t)
    (hrun : exec step s as = some (u, tr)) : I u :=
  exec_induction (I := fun _ s => I s) h0 (fun _ s a t o hs ha => hstep s a t o hs ha) hrun

/-- Steps that count bring the rank down until it is zero, and no step brings it up. -/
theorem exec_rank_along (own : A → Bool) (rank : S → Nat) {G : S → A → Prop}
    {I : List O → S → Prop} (h0 : I [] s)
    (hstep : ∀ tr s a t o, I tr s → G s a → step s a = some (t, o) →
      I (tr ++ o) t ∧ rank t ≤ rank s - if own a then 1 else 0)
    (hG : Along step G s as) (hrun : exec step s as = some (u, tr)) :
    I tr u ∧ rank u ≤ rank s - as.countP own := by
  suffices h : ∀ as s pre tr, I pre s → Along step G s as → exec step s as = some (u, tr) →
      I (pre ++ tr) u ∧ rank u ≤ rank s - as.countP own from by simpa using h as s [] tr h0 hG hrun
  intro as
  induction as with
  | nil =>
    intro s pre tr hs _ hrun
    cases hrun
    simpa using hs
  | cons a as ih =>
    intro s pre tr hs hG hrun
    rw [exec_cons_iff] at hrun
    obtain ⟨t, o, os, ha, has, rfl⟩ := hrun
    obtain ⟨ht, hrank⟩ := hstep _ _ _ _ _ hs hG.1 ha
    obtain ⟨hu, hle⟩ := ih t _ os ht (hG.2 t o ha) has
    rw [List.append_assoc] at hu
    refine ⟨hu, ?_⟩
    rw [List.countP_cons]
    omega

/-- Some run with actions in `P` only leads from the one state to the other. -/
def Reach (step : Step S A O) (P : A → Prop) (s t : S) : Prop :=
  ∃ as tr, exec step s as = some (t, tr) ∧ ∀ a ∈ as, P a

theorem Reach.refl {P : A → Prop} : Reach step P s s := ⟨[], [], rfl, by simp⟩

theorem Reach.head {P : A → Prop} (hstep : step s a = some (t, o)) (ha : P a)
    (h : Reach step P t u) : Reach step P s u := by
  obtain ⟨as, tr, hrun, has⟩ := h
  exact ⟨a :: as, o ++ tr, exec_cons hstep hrun, List.forall_mem_cons.mpr ⟨ha, has⟩⟩

theorem Reach.trans {P : A → Prop} (h : Reach step P s t) (h' : Reach step P t u) :
    Reach step P s u := by
  obtain ⟨as, tr, hrun, has⟩ := h
  obtain ⟨bs, os, hrun', hbs⟩ := h'
  exact ⟨as ++ bs, tr ++ os, exec_append hrun hrun', fun a ha =>
    (List.mem_append.mp ha).elim (has a) (hbs a)⟩

theorem Reach.invariant {P : A → Prop} {I : S → Prop}
    (hstep : ∀ s a t o, I s → step s a = some (t, o) → I t) (h : Reach step P s t) (h0 : I s) :
    I t := by
  obtain ⟨as, tr, hrun, -⟩ := h
  exact exec_invariant h0 hstep hrun

/-- Steps of one machine that another one takes as well lead it to a related state. -/
theorem Reach.simulate {B : Type} {step' : Step S' B O'} {P : A → Prop} {Q : B → Prop}
    {R : S → S' → Prop}
    (hstep : ∀ s x a t o, R s x → P a → step s a = some (t, o) →
      ∃ b y o', step' x b = some (y, o') ∧ Q b ∧ R t y)
    (h : Reach step P s t) {x : S'} (hR : R s x) : ∃ y, Reach step' Q x y ∧ R t y := by
  obtain ⟨as, tr, hrun, has⟩ := h
  induction as generalizing s x tr with
  | nil =>
    cases hrun
    exact ⟨x, .refl, hR⟩
  | cons a as ih =>
    rw [exec_cons_iff] at hrun
    obtain ⟨s', o, os, ha, hrest, -⟩ := hrun
    obtain ⟨hPa, hPas⟩ := List.forall_mem_cons.mp has
    obtain ⟨b, y, o', hb, hQ, hRy⟩ := hstep s x a s' o hR hPa ha
    obtain ⟨z, hz, hRz⟩ := ih hRy os hrest hPas
    exact ⟨z, .head hb hQ hz, hRz⟩

/-- A run without the actions that are not in `keep`.  `R` relates the states of the two runs: the
kept actions keep it and show the same, the others do not touch it and show nothing in `g`.  `I` is
an invariant of the full run that the proof of the two conditions may use. -/
theorem exec_filter {keep : A → Bool} {R : S → S → Prop} {g : O → Bool} {I : S → Prop} (h0 : I s)
    (hinv : ∀ s a t o, I s → step s a = some (t, o) → I t)
    (hkeep : ∀ s s' a t o, I s → R s s' → keep a = true → step s a = some (t, o) →
      ∃ t', step s' a = some (t', o) ∧ R t t')
    (hskip : ∀ s s' a t o, I s → R s s' → keep a = false → step s a = some (t, o) →
      R t s' ∧ o.filter g = [])
    (hR : R s t) (hrun : exec step s as = some (u, tr)) :
    ∃ v tr', exec step t (as.filter keep) = some (v, tr') ∧ R u v ∧ tr.filter g = tr'.filter g := by
  induction as generalizing s t tr with
  | nil =>
    cases hrun
    exact ⟨t, [], rfl, hR, rfl⟩
  | cons a as ih =>
    rw [exec_cons_iff] at hrun
    obtain ⟨s', o, os, ha, has, rfl⟩ := hrun
    have hs' : I s' := hinv _ _ _ _ h0 ha
    cases hk : keep a with
    | true =>
      obtain ⟨t', ha', hR'⟩ := hkeep _ _ _ _ _ h0 hR hk ha
      obtain ⟨v, tr', hrun', hv, htr⟩ := ih hs' hR' has
      rw [List.filter_cons_of_pos hk]
      refine ⟨v, o ++ tr', exec_cons ha' hrun', hv, ?_⟩
      rw [List.filter_append, List.filter_append, htr]
    | false =>
      obtain ⟨hR', ho⟩ := hskip _ _ _ _ _ h0 hR hk ha
      obtain ⟨v, tr', hrun', hv, htr⟩ := ih hs' hR' has
      rw [List.filter_cons_of_neg (by simp [hk])]
      refine ⟨v, tr', hrun', hv, ?_⟩
      rw [List.filter_append, ho, List.nil_append, htr]

/-- A machine that takes the same steps and shows more of them. -/
theorem exec_finer {step' : Step S A O'} {g : O' → Option O}
    (h : ∀ s a t o, step s a = some (t, o) → ∃ o', step' s a = some (t, o') ∧ o'.filterMap g = o)
    (hrun : exec step s as = some (u, tr)) :
    ∃ tr', exec step' s as = some (u, tr') ∧ tr'.filterMap g = tr := by
  induction as generalizing s tr with
  | nil =>
    cases hrun
    exact ⟨[], rfl, rfl⟩
  | cons a as ih =>
    rw [exec_cons_iff] at hrun
    obtain ⟨t, o, os, ha, has, rfl⟩ := hrun
    obtain ⟨o', ha', rfl⟩ := h s a t o ha
    obtain ⟨os', has', rfl⟩ := ih has
    exact ⟨o' ++ os', exec_cons ha' has', List.filterMap_append⟩

/-- A machine with notes of the actions in their states and of what it shows then; `shown` is what
is seen of a run. -/
def noted {N : Type} (step : Step S A O) (act : S → A → N → N) (note : S → N → O → N)
    (shown : N → O → Option O') : Step (S × N) A O' := fun x a =>
  (step x.1 a).map fun r =>
    ((r.1, r.2.foldl (note r.1) (act x.1 a x.2)), r.2.filterMap (shown x.2))

theorem noted_cases {N : Type} {act : S → A → N → N} {note : S → N → O → N}
    {shown : N → O → Option O'} {n n' : N} {o' : List O'}
    (h : noted step act note shown (s, n) a = some ((t, n'), o')) :
    ∃ o, step s a = some (t, o) ∧ n' = o.foldl (note t) (act s a n) ∧
      o' = o.filterMap (shown n) := by
  obtain ⟨⟨t, o⟩, hstep, heq⟩ := Option.map_eq_some_iff.mp h
  cases heq
  exact ⟨o, hstep, rfl, rfl⟩

def look (f : S → S') (g : O → Option O') (r : S × List O) : S' × List O' :=
  (f r.1, r.2.filterMap g)

/-- Two machines that look alike before and after each action look alike in every run. -/
theorem exec_lockstep {step' : Step S A O} {f : S → S'} {g : O → Option O'}
    (h : ∀ s t a, f s = f t → (step s a).map (look f g) = (step' t a).map (look f g))
    (h0 : f s = f t) : (exec step s as).map (look f g) = (exec step' t as).map (look f g) := by
  induction as generalizing s t with
  | nil => simp [look, h0]
  | cons a as ih =>
    have ha := h s t a h0
    cases hs : step s a with
    | none =>
      have ht : step' t a = none := by simpa [hs] using ha.symm
      simp [exec, hs, ht]
    | some r =>
      obtain ⟨⟨t', o'⟩, ht, heq⟩ := Option.map_eq_some_iff.mp (hs ▸ ha).symm
      obtain ⟨hstate, hobs⟩ := Prod.mk.inj heq
      have hrest := ih (s := r.1) (t := t') hstate.symm
      have hsplit : ∀ (u : S) (p : List O), look f g (u, r.2 ++ p) =
          ((look f g (u, p)).1, r.2.filterMap g ++ (look f g (u, p)).2) := by simp [look]
      have hsplit' : ∀ (u : S) (p : List O), look f g (u, o' ++ p) =
          ((look f g (u, p)).1, r.2.filterMap g ++ (look f g (u, p)).2) := by simp [look, hobs]
      simp only [exec, hs, ht, Option.map_map, Function.comp_def, hsplit, hsplit']
      simpa only [Option.map_map, Function.comp_def] using
        congrArg (Option.map fun v => (v.1, r.2.filterMap g ++ v.2)) hrest

theorem concat_eq {l l' : List O} {x : O} (h : l ++ [x] = l') :
    l = l'.dropLast ∧ l'.getLast? = some x := by
  subst h
  simp

/-- A prefix of a longer history is a prefix of the history, or reaches into what was added. -/
theorem prefix_append_cases {pre l r : List O} (h : pre <+: l ++ r) :
    pre <+: l ∨ ∃ r', pre = l ++ r' ∧ r' <+: r := by
  rcases List.prefix_or_prefix_of_prefix h (List.prefix_append l r) with hl | ⟨r', rfl⟩
  · exact .inl hl
  · exact .inr ⟨r', rfl, (List.prefix_append_right_inj l).mp h⟩

theorem mem_of_prefix_concat {pre l : List O} {x : O} (h : pre ++ [x] <+: l) : x ∈ l :=
  h.subset (by simp)

/-- An observation of a longer history was made in the history, or in what was added. -/
theorem concat_prefix_append_cases {pre l r : List O} {x : O} (h : pre ++ [x] <+: l ++ r) :
    pre ++ [x] <+: l ∨ ∃ r', pre = l ++ r' ∧ r' ++ [x] <+: r := by
  rcases prefix_append_cases h with hl | ⟨r', heq, hr⟩
  · exact .inl hl
  · rcases List.eq_nil_or_concat r' with rfl | ⟨r'', y, rfl⟩
    · rw [List.append_nil] at heq
      exact .inl (heq ▸ List.prefix_rfl)
    · rw [List.concat_eq_append, ← List.append_assoc] at heq
      obtain ⟨rfl, hxy⟩ := List.append_inj' heq rfl
      cases hxy
      exact .inr ⟨r'', rfl, List.concat_eq_append ▸ hr⟩

/-- An observation is made by one step of the run, after what the steps before it showed. -/
theorem exec_shows {pre : List O} {x : O} (hrun : exec step s as = some (u, tr))
    (hx : pre ++ [x] <+: tr) :
    ∃ as₁ a as₂ t tr₁ v o, as = as₁ ++ a :: as₂ ∧ exec step s as₁ = some (t, tr₁) ∧
      step t a = some (v, o) ∧ x ∈ o ∧ tr₁ <+: pre := by
  induction as generalizing s tr pre with
  | nil =>
    cases hrun
    simp at hx
  | cons a as ih =>
    rw [exec_cons_iff] at hrun
    obtain ⟨t, o, os, ha, has, rfl⟩ := hrun
    rcases concat_prefix_append_cases hx with hfirst | ⟨r, rfl, hr⟩
    · exact ⟨[], a, as, s, [], t, o, rfl, rfl, ha, mem_of_prefix_concat hfirst, List.nil_prefix⟩
    · obtain ⟨as₁, b, as₂, v, tr₁, w, o', rfl, hbefore, hb, hmem, htr₁⟩ := ih has hr
      exact ⟨a :: as₁, b, as₂, v, o ++ tr₁, w, o', rfl, exec_cons ha hbefore, hb, hmem,
        (List.prefix_append_right_inj o).mpr htr₁⟩

end Machine
