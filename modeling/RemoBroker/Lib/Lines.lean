import Mathlib.Data.List.Induction

/-! Streams that are cut into lines by a separator. -/

namespace Lines

variable {α : Type} [DecidableEq α] (sep : α)

/-- The lines that a separator ends, without the separator, and what follows the last one. -/
def split : List α → List (List α) × List α
  | [] => ([], [])
  | b :: bs =>
    if b = sep then ([] :: (split bs).1, (split bs).2)
    else match (split bs).1 with
      | [] => ([], b :: (split bs).2)
      | l :: ls => ((b :: l) :: ls, (split bs).2)

def complete (bs : List α) : List (List α) := (split sep bs).1

def rest (bs : List α) : List α := (split sep bs).2

/-- The lines, each with the separator that ends it, and last what follows them, if anything
does. -/
def frames (bs : List α) : List (List α) :=
  (complete sep bs).map (· ++ [sep]) ++ if rest sep bs = [] then [] else [rest sep bs]

/-- Up to and with the first separator, or everything where there is none. -/
def first : List α → List α
  | [] => []
  | b :: bs => if b = sep then [b] else b :: first bs

variable {sep} {bs l : List α}

@[simp] theorem complete_nil : complete sep [] = [] := rfl

@[simp] theorem rest_nil : rest sep [] = [] := rfl

theorem split_cons {b : α} : split sep (b :: bs) =
    if b = sep then ([] :: (split sep bs).1, (split sep bs).2)
    else match (split sep bs).1 with
      | [] => ([], b :: (split sep bs).2)
      | l :: ls => ((b :: l) :: ls, (split sep bs).2) := rfl

/-- Text without a separator is added to the line that is not ended yet. -/
theorem split_append_text (h : sep ∉ l) (bs : List α) :
    split sep (bs ++ l) = ((split sep bs).1, (split sep bs).2 ++ l) := by
  induction bs with
  | nil =>
    induction l with
    | nil => rfl
    | cons c l ih =>
      have hc : c ≠ sep := fun heq => h (heq ▸ List.mem_cons_self)
      have hl := ih fun hmem => h (List.mem_cons_of_mem _ hmem)
      rw [List.nil_append] at hl ⊢
      rw [split_cons, if_neg hc, hl]
      rfl
  | cons b bs ih =>
    rw [List.cons_append, split_cons, split_cons, ih]
    split
    · rfl
    · cases (split sep bs).1 <;> rfl

/-- A separator ends the line that is not ended yet. -/
theorem split_append_sep (bs : List α) :
    split sep (bs ++ [sep]) = ((split sep bs).1 ++ [(split sep bs).2], []) := by
  induction bs with
  | nil => simp [split]
  | cons b bs ih =>
    rw [List.cons_append, split_cons, split_cons, ih]
    split
    · rfl
    · cases (split sep bs).1 <;> rfl

theorem complete_append_text (h : sep ∉ l) : complete sep (bs ++ l) = complete sep bs := by
  unfold complete
  rw [split_append_text h]

theorem rest_append_text (h : sep ∉ l) : rest sep (bs ++ l) = rest sep bs ++ l := by
  unfold rest
  rw [split_append_text h]

theorem complete_append_line (h : sep ∉ l) :
    complete sep (bs ++ (l ++ [sep])) = complete sep bs ++ [rest sep bs ++ l] := by
  rw [← List.append_assoc]
  unfold complete rest
  rw [split_append_sep, split_append_text h]

theorem rest_append_line : rest sep (bs ++ (l ++ [sep])) = [] := by
  rw [← List.append_assoc]
  unfold rest
  rw [split_append_sep]

/-- Texts without a separator, each ended by one, are the lines of what they make. -/
theorem split_lines {β : Type} {text : β → List α} {xs : List β} (h : ∀ x ∈ xs, sep ∉ text x) :
    split sep (xs.flatMap fun x => text x ++ [sep]) = (xs.map text, []) := by
  induction xs using List.reverseRecOn with
  | nil => rfl
  | append_singleton xs x ih =>
    have hxs := ih fun y hy => h y (List.mem_append_left _ hy)
    have hx := h x (List.mem_append_right _ List.mem_cons_self)
    rw [List.flatMap_append, List.flatMap_singleton, ← List.append_assoc, split_append_sep,
      split_append_text hx, hxs, List.map_append]
    rfl

/-! The frames of a stream are found one after the other. -/

section
variable {xs ys : List α} {n : Nat}

theorem first_cons {b : α} : first sep (b :: bs) = if b = sep then [b] else b :: first sep bs := rfl

theorem first_append_of_mem (h : sep ∈ xs) : first sep (xs ++ ys) = first sep xs := by
  induction xs with
  | nil => cases h
  | cons b xs ih =>
    rw [List.cons_append, first_cons, first_cons]
    split
    · rfl
    · rename_i hb
      rw [ih ((List.mem_cons.mp h).resolve_left (Ne.symm hb))]

theorem first_append_of_not_mem (h : sep ∉ xs) : first sep (xs ++ ys) = xs ++ first sep ys := by
  induction xs with
  | nil => rfl
  | cons b xs ih =>
    have hb : b ≠ sep := fun heq => h (heq ▸ List.mem_cons_self)
    rw [List.cons_append, first_cons, if_neg hb, ih fun hmem => h (List.mem_cons_of_mem _ hmem)]
    rfl

theorem first_of_not_mem (h : sep ∉ xs) : first sep xs = xs := by
  have happend : first sep (xs ++ []) = xs ++ first sep [] := first_append_of_not_mem h
  rwa [List.append_nil, first, List.append_nil] at happend

theorem first_prefix : first sep xs <+: xs := by
  induction xs with
  | nil => exact List.prefix_rfl
  | cons b xs ih =>
    rw [first_cons]
    split
    · exact List.prefix_append [b] xs
    · exact (List.prefix_cons_inj b).mpr ih

theorem first_eq_nil : first sep xs = [] ↔ xs = [] := by
  cases xs with
  | nil => simp [first]
  | cons b xs =>
    rw [first_cons]
    split <;> simp

theorem getLast?_first : (first sep xs).getLast? = some sep ↔ sep ∈ xs := by
  induction xs with
  | nil => simp [first]
  | cons b xs ih =>
    rw [first_cons]
    split
    · simp_all
    · rename_i hb
      rw [List.getLast?_cons]
      cases hlast : (first sep xs).getLast? <;> simp_all [Ne.symm hb]

/-- The separator stands at the end of the first frame only. -/
theorem not_mem_take_first (h : n < (first sep xs).length) : sep ∉ (first sep xs).take n := by
  induction xs generalizing n with
  | nil => simp [first] at h
  | cons b xs ih =>
    rw [first_cons] at h ⊢
    cases n with
    | zero => simp
    | succ n =>
      split at h
      · simp at h
      · rename_i hb
        rw [if_neg hb, List.take_succ_cons, List.mem_cons, not_or]
        exact ⟨Ne.symm hb, ih (by simpa using h)⟩

@[simp] theorem frames_nil : frames sep [] = [] := rfl

theorem frames_cons_sep : frames sep (sep :: bs) = [sep] :: frames sep bs := by
  unfold frames complete rest
  rw [split_cons, if_pos rfl]
  rfl

theorem frames_cons_ne {b : α} (hb : b ≠ sep) :
    frames sep (b :: bs) = match frames sep bs with
      | [] => [[b]]
      | f :: fs => (b :: f) :: fs := by
  unfold frames complete rest
  rw [split_cons, if_neg hb]
  cases hlines : (split sep bs).1 with
  | nil => cases hrest : (split sep bs).2 <;> rfl
  | cons l ls => rfl

/-- The first frame, and the frames of what follows it. -/
theorem frames_eq_cons (h : bs ≠ []) :
    frames sep bs = first sep bs :: frames sep (bs.drop (first sep bs).length) := by
  induction bs with
  | nil => exact absurd rfl h
  | cons b bs ih =>
    rw [first_cons]
    split
    · rename_i hb
      subst hb
      exact frames_cons_sep
    · rename_i hb
      rw [frames_cons_ne hb]
      by_cases hnil : bs = []
      · subst hnil
        rfl
      · rw [ih hnil]
        rfl

theorem frames_line (h : sep ∉ l) :
    frames sep (l ++ sep :: bs) = (l ++ [sep]) :: frames sep bs := by
  have hfirst : first sep (l ++ sep :: bs) = l ++ [sep] := by
    rw [first_append_of_not_mem h, first_cons, if_pos rfl]
  have hdrop : (l ++ sep :: bs).drop (l ++ [sep]).length = bs := by
    rw [List.append_cons l sep bs, List.drop_left]
  rw [frames_eq_cons (by simp), hfirst, hdrop]

/-- Only the last frame may lack its separator. -/
theorem getLast?_of_frames {before after : List (List α)} {f g : List α}
    (h : frames sep bs = before ++ f :: after) (hg : g ∈ before) : g.getLast? = some sep := by
  have hlines : ∀ l ∈ (complete sep bs).map (· ++ [sep]), l.getLast? = some sep := by
    intro l hl
    obtain ⟨text, _, rfl⟩ := List.mem_map.mp hl
    exact List.getLast?_concat
  rcases List.append_eq_append_iff.mp h with ⟨as, hbefore, htail⟩ | ⟨as, hlines', _⟩
  · have hnil : as = [] := by
      have hlength := congrArg List.length htail
      split at hlength <;> simp at hlength
      exact List.eq_nil_of_length_eq_zero (by omega)
    rw [hnil, List.append_nil] at hbefore
    exact hlines g (hbefore ▸ hg)
  · exact hlines g (hlines' ▸ List.mem_append_left _ hg)

theorem flatten_frames : (frames sep bs).flatten = bs := by
  induction bs with
  | nil => rfl
  | cons b bs ih =>
    by_cases hb : b = sep
    · subst hb
      rw [frames_cons_sep, List.flatten_cons, ih]
      rfl
    · rw [frames_cons_ne hb]
      cases hframes : frames sep bs with
      | nil =>
        rw [hframes] at ih
        rw [← ih]
        rfl
      | cons f fs =>
        rw [hframes] at ih
        rw [← ih]
        rfl

end

end Lines
