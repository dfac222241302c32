import Mathlib.Data.Set.Card

/-! Sets of spawned tasks that retain a task, finished or not, until it is joined: how many tasks
such a set retains, and how many of all tasks have not finished, counted from the events of a
run. -/

namespace JoinSet

/-- The tasks that were spawned into a set, by whether they have finished, and those that the set
retains. -/
structure Tasks (ι : Type) where
  retained : List ι
  finished : ι → Option Bool

inductive Event (ι : Type) where
  | spawn (i : ι)
  | finish (i : ι)
  | join (i : ι)
  /-- The set is dropped; the tasks that were in it finish by themselves or by an abort. -/
  | drop

variable {ι : Type} [DecidableEq ι]

namespace Tasks

def new : Tasks ι := ⟨[], fun _ => none⟩

@[simps]
def spawn (x : Tasks ι) (i : ι) : Tasks ι :=
  ⟨i :: x.retained, Function.update x.finished i (some false)⟩

@[simps]
def finish (x : Tasks ι) (i : ι) : Tasks ι :=
  { x with finished := Function.update x.finished i (some true) }

@[simps]
def join (x : Tasks ι) (i : ι) : Tasks ι := { x with retained := x.retained.erase i }

@[simps]
def drop (x : Tasks ι) : Tasks ι := { x with retained := [] }

/-- The number of tasks that have not finished, in the set or not. -/
noncomputable def unfinished (x : Tasks ι) : Nat := {i | x.finished i = some false}.ncard

/-- The tasks that have not finished are in the set. -/
def Held (x : Tasks ι) : Prop := ∀ i, x.finished i = some false → i ∈ x.retained

end Tasks

inductive Step (x : Tasks ι) : Event ι → Tasks ι → Prop where
  | spawn {i} (fresh : x.finished i = none) : Step x (.spawn i) (x.spawn i)
  | finish {i} (running : x.finished i = some false) : Step x (.finish i) (x.finish i)
  | join {i} (mem : i ∈ x.retained) (done : x.finished i ≠ some false) :
      Step x (.join i) (x.join i)
  | drop : Step x .drop x.drop

/-- How many tasks were spawned, have ended, and have left the set. -/
structure Tally where
  spawned : Nat
  ended : Nat
  left : Nat

def Tally.note (n : Tally) : Event ι → Tally
  | .spawn _ => { n with spawned := n.spawned + 1 }
  | .finish _ => { n with ended := n.ended + 1 }
  | .join _ => { n with left := n.left + 1 }
  | .drop => { n with left := n.spawned }

def tally (es : List (Event ι)) : Tally := es.foldl Tally.note ⟨0, 0, 0⟩

omit [DecidableEq ι] in
theorem tally_filterMap {α : Type} {event : α → Option (Event ι)} {as : List α} :
    tally (as.filterMap event) = as.foldl (fun n a => (event a).elim n n.note) ⟨0, 0, 0⟩ := by
  rw [tally, List.foldl_filterMap]
  congr 1
  funext n a
  cases event a <;> rfl

/-- A set whose numbers agree with a tally. -/
structure Accounted (x : Tasks ι) (n : Tally) : Prop where
  nodup : x.retained.Nodup
  spawned : ∀ i ∈ x.retained, x.finished i ≠ none
  finite : {i | x.finished i ≠ none}.Finite
  retained : x.retained.length + n.left = n.spawned
  unfinished : x.unfinished + n.ended = n.spawned

variable {x y : Tasks ι} {n : Tally} {e : Event ι} {i : ι}

omit [DecidableEq ι] in
theorem Accounted.new : Accounted (Tasks.new : Tasks ι) ⟨0, 0, 0⟩ := by
  constructor <;> simp [Tasks.new, Tasks.unfinished]

omit [DecidableEq ι] in
theorem Accounted.finite_running (h : Accounted x n) : {i | x.finished i = some false}.Finite :=
  h.finite.subset fun i hi => by simp [show x.finished i = some false from hi]

theorem Tasks.unfinished_spawn (hfinite : {i | x.finished i = some false}.Finite)
    (fresh : x.finished i = none) : (x.spawn i).unfinished = x.unfinished + 1 := by
  have hset : {j | (x.spawn i).finished j = some false} =
      insert i {j | x.finished j = some false} := by
    ext j
    by_cases hj : j = i <;> simp [Function.update, hj]
  rw [unfinished, hset, Set.ncard_insert_of_notMem (by simp [fresh]) hfinite, unfinished]

theorem Tasks.unfinished_finish (hfinite : {i | x.finished i = some false}.Finite)
    (running : x.finished i = some false) : (x.finish i).unfinished + 1 = x.unfinished := by
  have hset : {j | (x.finish i).finished j = some false} =
      {j | x.finished j = some false} \ {i} := by
    ext j
    by_cases hj : j = i <;> simp [Function.update, hj]
  have hmem : i ∈ {j | x.finished j = some false} := running
  rw [unfinished, hset, Set.ncard_sdiff_singleton_add_one hmem hfinite, unfinished]

/-- A step spawns at most one task. -/
theorem Step.finite (step : Step x e y) (h : {i | x.finished i ≠ none}.Finite) :
    {i | y.finished i ≠ none}.Finite := by
  cases step with
  | @spawn i _ =>
    refine (h.insert i).subset fun j hj => ?_
    by_cases heq : j = i
    · exact .inl heq
    · simpa [heq, Function.update_of_ne] using hj
  | @finish i running =>
    refine h.subset fun j hj => ?_
    by_cases heq : j = i
    · simp [heq, running]
    · simpa [heq, Function.update_of_ne] using hj
  | join | drop => exact h

/-- Only a set that is dropped gives up tasks that have not finished. -/
theorem Step.held (step : Step x e y) (h : x.Held) (he : e ≠ .drop) : y.Held := by
  intro j hj
  cases step with
  | @spawn i fresh =>
    by_cases heq : j = i
    · exact heq ▸ List.mem_cons_self
    · exact List.mem_cons_of_mem _ (h j (by simpa [heq, Function.update_of_ne] using hj))
  | @finish i running =>
    by_cases heq : j = i
    · simp [heq] at hj
    · exact h j (by simpa [heq, Function.update_of_ne] using hj)
  | @join i mem done =>
    have hne : j ≠ i := fun heq => done (heq ▸ hj)
    exact (List.mem_erase_of_ne hne).mpr (h j hj)
  | drop => exact absurd rfl he

theorem Accounted.spawn (h : Accounted x n) (fresh : x.finished i = none) :
    Accounted (x.spawn i) (n.note (.spawn i)) := by
  have hmem : i ∉ x.retained := fun hmem => h.spawned i hmem fresh
  refine ⟨List.nodup_cons.mpr ⟨hmem, h.nodup⟩, ?_, (Step.spawn fresh).finite h.finite, ?_, ?_⟩
  · intro j hj
    by_cases heq : j = i
    · simp [heq]
    · have hold := h.spawned j ((List.mem_cons.mp hj).resolve_left heq)
      simpa [Function.update_of_ne heq] using hold
  · have hretained := h.retained
    simp only [Tasks.spawn_retained, List.length_cons, Tally.note]
    omega
  · have hunfinished := h.unfinished
    rw [Tasks.unfinished_spawn h.finite_running fresh]
    simp only [Tally.note]
    omega

theorem Accounted.finish (h : Accounted x n) (running : x.finished i = some false) :
    Accounted (x.finish i) (n.note (.finish i)) := by
  refine ⟨h.nodup, ?_, (Step.finish running).finite h.finite, h.retained, ?_⟩
  · intro j hj
    by_cases heq : j = i
    · simp [heq]
    · simpa [Function.update_of_ne heq] using h.spawned j hj
  · have hunfinished := h.unfinished
    have hfinish := Tasks.unfinished_finish h.finite_running running
    simp only [Tally.note]
    omega

theorem Accounted.join (h : Accounted x n) (mem : i ∈ x.retained) :
    Accounted (x.join i) (n.note (.join i)) := by
  refine ⟨h.nodup.erase i, fun j hj => h.spawned j (List.mem_of_mem_erase hj), h.finite, ?_,
    h.unfinished⟩
  have hretained := h.retained
  have hpos := List.length_pos_of_mem mem
  simp only [Tasks.join_retained, List.length_erase_of_mem mem, Tally.note]
  omega

omit [DecidableEq ι] in
theorem Accounted.drop (h : Accounted x n) : Accounted x.drop (n.note (.drop : Event ι)) :=
  ⟨List.nodup_nil, by simp, h.finite, Nat.zero_add _, h.unfinished⟩

theorem Accounted.step (h : Accounted x n) (step : Step x e y) : Accounted y (n.note e) := by
  cases step with
  | spawn fresh => exact h.spawn fresh
  | finish running => exact h.finish running
  | join mem => exact h.join mem
  | drop => exact h.drop

omit [DecidableEq ι] in
/-- What a set retains beyond the unfinished tasks is what has ended and not left it. -/
theorem Accounted.retained_add (h : Accounted x n) :
    x.retained.length + n.left = x.unfinished + n.ended :=
  h.retained.trans h.unfinished.symm

end JoinSet
