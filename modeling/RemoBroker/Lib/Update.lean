import Mathlib.Logic.Function.Basic

/-! Maps from keys to optional values that are functions, changed at one key at a time. -/

namespace Function

variable {α β : Type} [DecidableEq α]

/-- What an updated map holds is the new value, or was there before under another key. -/
theorem update_some_cases {f : α → Option β} {a x : α} {b c : β}
    (h : update f a (some b) x = some c) : (x = a ∧ c = b) ∨ (x ≠ a ∧ f x = some c) := by
  by_cases hx : x = a
  · subst hx
    rw [update_self] at h
    exact .inl ⟨rfl, (Option.some.inj h).symm⟩
  · rw [update_of_ne hx] at h
    exact .inr ⟨hx, h⟩

theorem update_some_of_ne {f : α → Option β} {a x : α} {b c : β}
    (h : update f a (some b) x = some c) (hne : c ≠ b) : x ≠ a ∧ f x = some c :=
  (update_some_cases h).resolve_left fun hnew => hne hnew.2

/-- An update of a key with another value keeps a value where it is. -/
theorem update_some_keeps {f : α → Option β} {a x : α} {b c : β} (h : f x = some c)
    (ha : f a ≠ some c) : update f a (some b) x = some c := by
  have hx : x ≠ a := by
    rintro rfl
    exact ha h
  rw [update_of_ne hx, h]

theorem update_isSome {f : α → Option β} {a x : α} {b : β} (h : (f x).isSome) :
    (update f a (some b) x).isSome := by
  by_cases hx : x = a
  · rw [hx, update_self]
    rfl
  · rwa [update_of_ne hx]

theorem update_ne_none {f : α → Option β} {a x : α} {b : β} (h : f x ≠ none) :
    update f a (some b) x ≠ none :=
  Option.isSome_iff_ne_none.mp (update_isSome (Option.isSome_iff_ne_none.mpr h))

/-- Maps that agree on some keys still do when both are updated alike. -/
theorem update_agree {D : α → Prop} {f g : α → β} {a : α} {b : β}
    (h : ∀ x, D x → g x = f x) : ∀ x, D x → update g a b x = update f a b x := by
  intro x hx
  by_cases hxa : x = a
  · rw [hxa, update_self, update_self]
  · rw [update_of_ne hxa, update_of_ne hxa, h x hx]

end Function
