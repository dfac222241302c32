import Mathlib.Data.List.Basic
import Mathlib.Data.List.Perm.Basic

/-! A sink that fails at times, with a bounded queue in front of it for the items that it refused.
Each item that comes in first lets the sink take items from the front of the queue, and is then
taken itself or put at the back of the queue, where it pushes out the oldest item if the queue is
full.  The ledger says where each item went. -/

namespace RetryQueue

open List

variable {α : Type}

/-- The items that the sink took, in the order in which it took them, those in the queue, and those
that were pushed out of it. -/
structure Ledger (α : Type) where
  written : List α
  buffered : List α
  evicted : List α

def Ledger.empty : Ledger α := ⟨[], [], []⟩

/-- The item `x` comes in: the sink takes `k` items of the queue, and `x` itself if `wrote`. -/
def Ledger.iter (cap : Nat) (l : Ledger α) (x : α) (k : Nat) (wrote : Bool) : Ledger α :=
  if wrote then ⟨l.written ++ l.buffered.take k ++ [x], l.buffered.drop k, l.evicted⟩
  else if (l.buffered.drop k).length = cap then
    ⟨l.written ++ l.buffered.take k, (l.buffered.drop k).tail ++ [x],
      l.evicted ++ (l.buffered.drop k).take 1⟩
  else ⟨l.written ++ l.buffered.take k, l.buffered.drop k ++ [x], l.evicted⟩

variable {cap k : Nat} {l : Ledger α} {x : α} {wrote : Bool} {received : List α}

theorem take_one_append_tail (xs : List α) : xs.take 1 ++ xs.tail = xs := by
  cases xs <;> rfl

/-- Every item that came in is in one place, the queue is within its bound, and the items pushed
out came in before those in the queue. -/
structure Accounted (cap : Nat) (received : List α) (l : Ledger α) : Prop where
  perm : (l.written ++ l.buffered ++ l.evicted).Perm received
  inOrder : l.evicted ++ l.buffered <+ received
  bounded : l.buffered.length ≤ cap

theorem accounted_empty : Accounted cap [] (Ledger.empty : Ledger α) :=
  ⟨.refl _, List.Sublist.refl _, Nat.zero_le cap⟩

theorem Accounted.length (h : Accounted cap received l) :
    l.written.length + l.buffered.length + l.evicted.length = received.length := by
  simpa [Nat.add_assoc] using h.perm.length_eq

theorem Accounted.iter (hcap : 0 < cap) (h : Accounted cap received l) :
    Accounted cap (received ++ [x]) (l.iter cap x k wrote) := by
  classical
  have hsplit := take_append_drop k l.buffered
  have hdrop : l.evicted ++ l.buffered.drop k <+ received :=
    ((Sublist.refl _).append (drop_sublist _ _)).trans h.inOrder
  have hlength : (l.buffered.drop k).length ≤ cap :=
    Nat.le_trans (drop_sublist _ _).length_le h.bounded
  have hcount : ∀ a, (l.written.count a + ((l.buffered.take k).count a +
      (l.buffered.drop k).count a)) + l.evicted.count a = received.count a := by
    intro a
    have htake : (l.buffered.take k).count a + (l.buffered.drop k).count a =
        l.buffered.count a := by
      rw [← count_append, hsplit]
    rw [htake]
    simpa [Nat.add_assoc] using perm_iff_count.mp h.perm a
  unfold Ledger.iter
  split
  · refine ⟨perm_iff_count.mpr fun a => ?_, hdrop.trans (sublist_append_left _ _), hlength⟩
    have ha := hcount a
    simp only [count_append]
    omega
  · split
    · rename_i hfull
      have hone := take_one_append_tail (l.buffered.drop k)
      refine ⟨perm_iff_count.mpr fun a => ?_, ?_, ?_⟩
      · have ha := hcount a
        rw [← hone, count_append] at ha
        simp only [count_append]
        omega
      · have hjoin : l.evicted ++ (l.buffered.drop k).take 1 ++ ((l.buffered.drop k).tail ++ [x]) =
            l.evicted ++ l.buffered.drop k ++ [x] := by
          rw [append_assoc, ← append_assoc (take 1 _), hone, append_assoc]
        show l.evicted ++ (l.buffered.drop k).take 1 ++ ((l.buffered.drop k).tail ++ [x]) <+ _
        rw [hjoin]
        exact hdrop.append (Sublist.refl _)
      · show ((l.buffered.drop k).tail ++ [x]).length ≤ cap
        rw [length_append, length_tail, hfull, length_singleton]
        omega
    · rename_i hroom
      refine ⟨perm_iff_count.mpr fun a => ?_, ?_, ?_⟩
      · have ha := hcount a
        simp only [count_append]
        omega
      · show l.evicted ++ (l.buffered.drop k ++ [x]) <+ _
        rw [← append_assoc]
        exact hdrop.append (Sublist.refl _)
      · show (l.buffered.drop k ++ [x]).length ≤ cap
        rw [length_append, length_singleton]
        omega

/-- Only an item that a full queue has to take pushes an item out, and this is the oldest. -/
theorem Ledger.iter_evicted (hcap : 0 < cap) : (l.iter cap x k wrote).evicted = l.evicted ∨
    wrote = false ∧ (l.buffered.drop k).length = cap ∧ ∃ y, (l.buffered.drop k).head? = some y ∧
      (l.iter cap x k wrote).evicted = l.evicted ++ [y] := by
  unfold Ledger.iter
  split
  · exact .inl rfl
  · rename_i hwrote
    split
    · rename_i hfull
      refine .inr ⟨by simpa using hwrote, hfull, ?_⟩
      cases hdrop : l.buffered.drop k with
      | nil =>
        rw [hdrop, length_nil] at hfull
        omega
      | cons y ys => exact ⟨y, rfl, rfl⟩
    · exact .inl rfl

/-- If the sink takes an item that comes in only after it took the whole queue, it takes the items
in the order in which they came in. -/
theorem Ledger.iter_sublist (h : l.written ++ l.buffered <+ received)
    (hdrained : wrote = true → l.buffered.drop k = []) :
    (l.iter cap x k wrote).written ++ (l.iter cap x k wrote).buffered <+ received ++ [x] := by
  have hsplit := take_append_drop k l.buffered
  unfold Ledger.iter
  split
  · rename_i hwrote
    have hall : l.buffered.take k = l.buffered := by
      rw [hdrained hwrote, append_nil] at hsplit
      exact hsplit
    show l.written ++ l.buffered.take k ++ [x] ++ l.buffered.drop k <+ received ++ [x]
    rw [hdrained hwrote, hall, append_nil]
    exact h.append (Sublist.refl _)
  · split
    · show l.written ++ l.buffered.take k ++ ((l.buffered.drop k).tail ++ [x]) <+ received ++ [x]
      rw [← append_assoc]
      refine Sublist.append (Sublist.trans ?_ h) (Sublist.refl _)
      rw [append_assoc]
      refine (Sublist.refl _).append ?_
      nth_rewrite 3 [← hsplit]
      exact (Sublist.refl _).append (tail_sublist _)
    · show l.written ++ l.buffered.take k ++ (l.buffered.drop k ++ [x]) <+ received ++ [x]
      rw [← append_assoc, append_assoc l.written, hsplit]
      exact h.append (Sublist.refl _)

end RetryQueue
