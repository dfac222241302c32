import Mathlib.Data.List.Nodup

/-! Linearizability.  Requests on a shared object overlap; they are linearizable if they can be put
into one order in which the object, used by one request at a time, answers each of them as it was
answered, and in which no request comes after one that was made when it had been answered.  The rule
for it: each request takes effect at one moment between its call and its answer, and the object
allows the effects in the order of these moments. -/

namespace Linear

variable {Id Op Ret Res S : Type}

/-- What is seen of the requests: their calls and their answers. -/
inductive Event (Id Op Res : Type) where
  | inv (id : Id) (op : Op)
  | res (id : Id) (response : Res)

/-- A request that has taken effect, with the outcome. -/
structure Commit (Id Op Ret : Type) where
  id : Id
  op : Op
  ret : Ret

/-- An event, or the moment at which a request takes effect. -/
inductive Mark (Id Op Ret Res : Type) where
  | inv (id : Id) (op : Op)
  | com (id : Id) (op : Op) (ret : Ret)
  | res (id : Id) (response : Res)

namespace Mark

def id : Mark Id Op Ret Res → Id
  | .inv id _ => id
  | .com id _ _ => id
  | .res id _ => id

def event : Mark Id Op Ret Res → Option (Event Id Op Res)
  | .inv id op => some (.inv id op)
  | .com _ _ _ => none
  | .res id response => some (.res id response)

def commit : Mark Id Op Ret Res → Option (Commit Id Op Ret)
  | .com id op ret => some ⟨id, op, ret⟩
  | _ => none

end Mark

def events (h : List (Mark Id Op Ret Res)) : List (Event Id Op Res) := h.filterMap Mark.event

def commits (h : List (Mark Id Op Ret Res)) : List (Commit Id Op Ret) := h.filterMap Mark.commit

/-- The object goes through the requests one at a time. -/
inductive Legal (allows : S → Op → Ret → S → Prop) (s : S) :
    List (Commit Id Op Ret) → S → Prop where
  | nil : Legal allows s [] s
  | concat {log t c u} (legal : Legal allows s log t) (allowed : allows t c.op c.ret u) :
      Legal allows s (log ++ [c]) u

/-- An order of the requests, with their outcomes, that explains what was seen of them. -/
structure Linearization (allows : S → Op → Ret → S → Prop) (agrees : Op → Ret → Res → Prop) (s : S)
    (h : List (Event Id Op Res)) (log : List (Commit Id Op Ret)) : Prop where
  legal : ∃ t, Legal allows s log t
  once : (log.map Commit.id).Nodup
  invoked : ∀ c ∈ log, .inv c.id c.op ∈ h
  answered : ∀ id response, .res id response ∈ h →
    ∃ op ret, ⟨id, op, ret⟩ ∈ log ∧ agrees op ret response
  inOrder : ∀ before after a response b op, h = before ++ .res a response :: after →
    .inv b op ∈ after → ∀ c ∈ log, c.id = b →
      ∃ l l', log = l ++ l' ∧ (∃ d ∈ l, d.id = a) ∧ c ∈ l'

/-- The marks of one request, in their order. -/
inductive Shape (agrees : Op → Ret → Res → Prop) (id : Id) : List (Mark Id Op Ret Res) → Prop where
  | fresh : Shape agrees id []
  | invoked (op) : Shape agrees id [.inv id op]
  | committed (op ret) : Shape agrees id [.inv id op, .com id op ret]
  | answered {op ret response} (agree : agrees op ret response) :
      Shape agrees id [.inv id op, .com id op ret, .res id response]

section
variable {allows : S → Op → Ret → S → Prop} {agrees : Op → Ret → Res → Prop} {s t : S} {id : Id}
  {h x y l : List (Mark Id Op Ret Res)} {op : Op} {ret : Ret} {response : Res}

theorem mem_commits {c : Commit Id Op Ret} : c ∈ commits h ↔ .com c.id c.op c.ret ∈ h := by
  rw [commits, List.mem_filterMap]
  constructor
  · rintro ⟨m, hm, hcommit⟩
    cases m with
    | com id op ret =>
      cases hcommit
      exact hm
    | _ => cases hcommit
  · intro hm
    exact ⟨_, hm, rfl⟩

theorem mem_events {e : Event Id Op Res} : e ∈ events h ↔
    (∃ id op, e = .inv id op ∧ .inv id op ∈ h) ∨
      ∃ id response, e = .res id response ∧ .res id response ∈ h := by
  rw [events, List.mem_filterMap]
  constructor
  · rintro ⟨m, hm, hevent⟩
    cases m with
    | inv id op =>
      cases hevent
      exact .inl ⟨id, op, rfl, hm⟩
    | com id op ret => cases hevent
    | res id response =>
      cases hevent
      exact .inr ⟨id, response, rfl, hm⟩
  · rintro (⟨id, op, rfl, hm⟩ | ⟨id, response, rfl, hm⟩)
    · exact ⟨_, hm, rfl⟩
    · exact ⟨_, hm, rfl⟩

theorem Shape.invoked_of_commit (shape : Shape agrees id l) (hm : .com id op ret ∈ l) :
    .inv id op ∈ l := by
  cases shape <;> simp_all

theorem Shape.commit_of_answer (shape : Shape agrees id l) (hm : .res id response ∈ l) :
    ∃ op ret, .com id op ret ∈ l ∧ agrees op ret response := by
  cases shape with
  | answered agree =>
    simp only [List.mem_cons, reduceCtorEq, Mark.res.injEq, true_and, List.not_mem_nil, or_false,
      false_or] at hm
    subst hm
    exact ⟨_, _, by simp, agree⟩
  | _ => simp at hm

theorem Shape.length_commits_le (shape : Shape agrees id l) : (commits l).length ≤ 1 := by
  cases shape with
  | fresh => exact Nat.zero_le 1
  | invoked => exact Nat.zero_le 1
  | committed => exact Nat.le_refl 1
  | answered => exact Nat.le_refl 1

/-- A request takes effect before its answer. -/
theorem Shape.commit_before (shape : Shape agrees id (x ++ .res id response :: y)) :
    ∃ op ret, .com id op ret ∈ x := by
  generalize hl : x ++ .res id response :: y = l at shape
  cases shape with
  | answered agree =>
    match x with
    | [] => cases hl
    | [_] => cases hl
    | [_, _] =>
      cases hl
      exact ⟨_, _, List.mem_cons_of_mem _ List.mem_cons_self⟩
    | _ :: _ :: _ :: _ => simp at hl
  | _ =>
    have hmem : Mark.res id response ∈ x ++ .res id response :: y := by simp
    rw [hl] at hmem
    simp at hmem

/-- A request takes effect after its call. -/
theorem Shape.commit_after (shape : Shape agrees id (x ++ y)) (hinv : .inv id op ∈ y) :
    ∀ op' ret, .com id op' ret ∉ x := by
  intro op' ret hcom
  generalize hl : x ++ y = l at shape
  cases x with
  | nil => cases hcom
  | cons m x =>
    -- the call is the first mark of a request
    have htail : Mark.inv id op ∈ l.tail := by
      rw [← hl]
      exact List.mem_append_right x hinv
    cases shape <;> simp at htail

variable [DecidableEq Id]

/-- The marks of one request. -/
def marksOf (id : Id) (h : List (Mark Id Op Ret Res)) : List (Mark Id Op Ret Res) :=
  h.filter fun m => m.id = id

theorem marksOf_append : marksOf id (x ++ y) = marksOf id x ++ marksOf id y := by
  simp [marksOf]

theorem commits_marksOf :
    commits (marksOf id h) = (commits h).filter fun c => c.id = id := by
  induction h with
  | nil => rfl
  | cons m h ih =>
    have hcons : ∀ l : List (Mark Id Op Ret Res),
        commits (m :: l) = m.commit.toList ++ commits l := by
      intro l
      cases m <;> rfl
    have hid : m.commit.toList.filter (fun c => c.id = id) =
        if m.id = id then m.commit.toList else [] := by
      by_cases hm : m.id = id <;> cases m <;> simp_all [Mark.commit, Mark.id]
    rw [hcons, List.filter_append, hid, ← ih, marksOf, List.filter_cons]
    by_cases hm : m.id = id
    · simp only [hm, decide_true, if_true, hcons]
      rfl
    · simp only [hm, decide_false, Bool.false_eq_true, if_false, List.nil_append]
      rfl

theorem nodup_commits (hshape : ∀ id, Shape agrees id (marksOf id h)) :
    ((commits h).map Commit.id).Nodup := by
  rw [List.nodup_iff_count_le_one]
  intro id
  have hcount : ((commits h).map Commit.id).count id = (commits (marksOf id h)).length := by
    rw [commits_marksOf, List.count, List.countP_map, List.countP_eq_length_filter]
    rfl
  rw [hcount]
  exact (hshape id).length_commits_le

/-- The rule of commit points. -/
theorem linearization_of_marks (hlegal : Legal allows s (commits h) t)
    (hshape : ∀ id, Shape agrees id (marksOf id h)) :
    Linearization allows agrees s (events h) (commits h) := by
  refine ⟨⟨t, hlegal⟩, nodup_commits hshape, ?_, ?_, ?_⟩
  · intro c hc
    have hcom : Mark.com c.id c.op c.ret ∈ marksOf c.id h := by
      simpa [marksOf, Mark.id] using mem_commits.mp hc
    have hinv := (hshape c.id).invoked_of_commit hcom
    exact mem_events.mpr (.inl ⟨c.id, c.op, rfl, (List.mem_filter.mp hinv).1⟩)
  · intro id response hres
    rcases mem_events.mp hres with ⟨_, _, heq, -⟩ | ⟨_, _, heq, hm⟩
    · cases heq
    · cases heq
      have hmark : Mark.res id response ∈ marksOf id h := by simpa [marksOf, Mark.id] using hm
      obtain ⟨op, ret, hcom, hagree⟩ := (hshape id).commit_of_answer hmark
      exact ⟨op, ret, mem_commits.mpr (List.mem_filter.mp hcom).1, hagree⟩
  · intro before after a response b op hsplit hinv c hc hb
    subst hb
    -- the history is cut at the answer
    obtain ⟨x, z, rfl, -, hz⟩ := List.filterMap_eq_append_iff.mp hsplit
    obtain ⟨skip, m, y, rfl, hskip, hm, rfl⟩ := List.filterMap_eq_cons_iff.mp hz
    obtain rfl : m = .res a response := by
      cases m <;> cases hm
      rfl
    have hafter : Mark.inv c.id op ∈ marksOf c.id (.res a response :: y) := by
      rcases mem_events.mp hinv with ⟨_, _, heq, hmem⟩ | ⟨_, _, heq, -⟩
      · cases heq
        simpa [marksOf, Mark.id] using hmem
      · cases heq
    have hshapeA := hshape a
    have hshapeB := hshape c.id
    rw [← List.append_assoc, marksOf_append] at hshapeA hshapeB
    have hcut : marksOf a (.res a response :: y) = .res a response :: marksOf a y := by
      simp [marksOf, Mark.id]
    rw [hcut] at hshapeA
    obtain ⟨opA, retA, hcomA⟩ := hshapeA.commit_before
    have hbeforeB := hshapeB.commit_after hafter
    refine ⟨commits (x ++ skip), commits (.res a response :: y), ?_,
      ⟨⟨a, opA, retA⟩, mem_commits.mpr (List.mem_filter.mp hcomA).1, rfl⟩, ?_⟩
    · rw [← List.append_assoc]
      exact List.filterMap_append
    · have hcom := mem_commits.mp hc
      rw [← List.append_assoc] at hcom
      rcases List.mem_append.mp hcom with hcom | hcom
      · exact absurd (by simpa [marksOf, Mark.id] using hcom) (hbeforeB c.op c.ret)
      · exact mem_commits.mpr hcom

end

end Linear
