import Mathlib.Data.List.Infix

/-! The first place of a pattern in a sequence, found by its windows. -/

namespace Search

variable {α : Type}

/-- The windows of `n` elements, `0 < n`, from left to right. -/
def windows (n : Nat) : List α → List (List α)
  | [] => []
  | x :: xs => if n ≤ xs.length + 1 then (x :: xs).take n :: windows n xs else []

variable [DecidableEq α] {a : α} {pat xs ys : List α} {i n : Nat}

/-- The index of the first window that is the pattern. -/
def position (pat xs : List α) : Option Nat :=
  (windows pat.length xs).findIdx? (· == pat)

omit [DecidableEq α] in
theorem windows_of_short (h : xs.length < n) : windows n xs = [] := by
  cases xs with
  | nil => rfl
  | cons x xs => exact if_neg (by simp at h; omega)

theorem position_cons (hpat : pat ≠ []) : position pat (a :: xs) =
    if pat <+: a :: xs then some 0 else (position pat xs).map (· + 1) := by
  have hpos := List.length_pos_of_ne_nil hpat
  by_cases hlen : pat.length ≤ xs.length + 1
  · have hiff : ((a :: xs).take pat.length == pat) = true ↔ pat <+: a :: xs := by
      rw [beq_iff_eq, List.prefix_iff_eq_take, eq_comm]
    rw [position, windows, if_pos hlen, List.findIdx?_cons]
    simp only [hiff, position]
  · have hnot : ¬pat <+: a :: xs := fun h => hlen (by simpa using h.length_le)
    have hshort : windows pat.length xs = [] := windows_of_short (by omega)
    rw [position, windows, if_neg hlen, if_neg hnot, position, hshort]
    rfl

theorem position_nil : position pat [] = none := rfl

theorem position_eq_none (hpat : pat ≠ []) : position pat xs = none ↔ ¬pat <:+: xs := by
  induction xs with
  | nil => simpa [position_nil] using hpat
  | cons a xs ih =>
    rw [position_cons hpat, List.infix_cons_iff]
    by_cases h : pat <+: a :: xs
    · simp [h]
    · simp [h, ih]

/-- The pattern is at the index, and at no index before. -/
theorem position_eq_some (hpat : pat ≠ []) : position pat xs = some i ↔
    (∃ before after, xs = before ++ pat ++ after ∧ before.length = i) ∧
      ∀ j < i, ¬pat <+: xs.drop j := by
  induction xs generalizing i with
  | nil => simp [position_nil, hpat]
  | cons a xs ih =>
    rw [position_cons hpat]
    by_cases h : pat <+: a :: xs
    · rw [if_pos h, Option.some.injEq]
      constructor
      · rintro rfl
        obtain ⟨after, hafter⟩ := h
        exact ⟨⟨[], after, hafter.symm, rfl⟩, by simp⟩
      · rintro ⟨-, hfirst⟩
        by_contra hne
        exact hfirst 0 (by omega) h
    · rw [if_neg h, Option.map_eq_some_iff]
      constructor
      · rintro ⟨k, hk, rfl⟩
        obtain ⟨⟨before, after, rfl, rfl⟩, hfirst⟩ := ih.mp hk
        refine ⟨⟨a :: before, after, by simp, rfl⟩, fun j hj => ?_⟩
        cases j with
        | zero => exact h
        | succ j => exact hfirst j (by omega)
      · rintro ⟨⟨before, after, heq, rfl⟩, hfirst⟩
        cases before with
        | nil => exact absurd ⟨after, heq.symm⟩ h
        | cons b before =>
          obtain ⟨rfl, rfl⟩ := List.cons.inj heq
          refine ⟨before.length, ih.mpr ⟨⟨before, after, rfl, rfl⟩, fun j hj => ?_⟩, rfl⟩
          exact hfirst (j + 1) (Nat.succ_lt_succ hj)

/-- A text without the first element of the pattern is passed over. -/
theorem position_append (h : a ∉ ys) :
    position (a :: pat) (ys ++ xs) = (position (a :: pat) xs).map (· + ys.length) := by
  induction ys with
  | nil => simp
  | cons y ys ih =>
    obtain ⟨hne, hrest⟩ := not_or.mp (mt List.mem_cons.mpr h)
    have hnot : ¬a :: pat <+: y :: (ys ++ xs) := fun hp => hne (List.cons_prefix_cons.mp hp).1
    rw [List.cons_append, position_cons (by simp), if_neg hnot, ih hrest, Option.map_map]
    congr 1

end Search
