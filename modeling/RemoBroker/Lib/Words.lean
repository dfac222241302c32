import Mathlib.Data.List.DropRight

/-! Texts in which the elements with `p` are the blanks: a text without the blanks around it, and
the words of a text. -/

namespace Words

variable {α : Type}

def trim (p : α → Bool) (l : List α) : List α := (l.dropWhile p).rdropWhile p

/-- The non-empty pieces between the blanks. -/
def words (p : α → Bool) (l : List α) : List (List α) :=
  (l.splitOnP p).filter fun w => !w.isEmpty

variable {p : α → Bool} {l w rest : List α} {c : α}

theorem mem_dropWhile (hc : p c = false) : c ∈ l.dropWhile p ↔ c ∈ l := by
  have hsplit : l.takeWhile p ++ l.dropWhile p = l := List.takeWhile_append_dropWhile
  have hnot : c ∉ l.takeWhile p := fun h => by
    rw [List.mem_takeWhile_imp h] at hc
    cases hc
  conv_rhs => rw [← hsplit, List.mem_append]
  simp [hnot]

/-- Only blanks are trimmed. -/
theorem mem_trim (hc : p c = false) : c ∈ trim p l ↔ c ∈ l := by
  rw [trim, List.rdropWhile, List.mem_reverse, mem_dropWhile hc, List.mem_reverse,
    mem_dropWhile hc]

theorem trim_eq_nil : trim p l = [] ↔ ∀ c ∈ l, p c = true := by
  rw [trim, List.rdropWhile_eq_nil_iff]
  constructor
  · intro h c hc
    by_contra hnot
    have hfalse : p c = false := by simpa using hnot
    exact hnot (h c ((mem_dropWhile hfalse).mpr hc))
  · intro h c hc
    exact h c ((List.dropWhile_sublist p).subset hc)

theorem words_append (hw : ∀ x ∈ w, p x = false) (hne : w ≠ []) (hc : p c = true) :
    words p (w ++ c :: rest) = w :: words p rest := by
  rw [words, List.splitOnP_append_cons_of_forall_mem hw c hc, List.filter_cons_of_pos]
  · rfl
  · simpa using hne

end Words
