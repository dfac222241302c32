import Mathlib.Data.List.Basic

/-! Readers of bytes.  A reader takes a value off the front of a text and leaves the rest.  It is
exact for a relation between values and texts if it takes only texts of the relation, and takes each
of them wherever what comes after it is in `follow`. -/

/-- Take a value off the front of a text, or refuse the text. -/
abbrev ByteReader (α : Type) := List UInt8 → Option (α × List UInt8)

namespace ByteReader

variable {α β γ : Type}

structure Exact (p : ByteReader α) (R : α → List UInt8 → Prop) (follow : List UInt8 → Prop) :
    Prop where
  sound : ∀ {bs a rest}, p bs = some (a, rest) → ∃ t, bs = t ++ rest ∧ R a t
  complete : ∀ {a t}, R a t → ∀ rest, follow rest → p (t ++ rest) = some (a, rest)

/-- One reader after the other. -/
def both (p : ByteReader α) (q : ByteReader β) (f : α → β → γ) : ByteReader γ := fun bs => do
  let (a, bs) ← p bs
  let (b, bs) ← q bs
  some (f a b, bs)

/-- These bytes. -/
def expect (text : List UInt8) (a : α) : ByteReader α := fun bs =>
  if text <+: bs then some (a, bs.drop text.length) else none

/-- The bytes up to the first one without `test`. -/
def run (test : UInt8 → Bool) : ByteReader (List UInt8) := fun bs =>
  some (bs.takeWhile test, bs.dropWhile test)

/-- As `run`, with one byte at least. -/
def run1 (test : UInt8 → Bool) : ByteReader (List UInt8) := fun bs =>
  if bs.head?.any test then run test bs else none

/-- Nothing, unless the text starts with a byte that has `start`. -/
def optional (start : UInt8 → Bool) (p : ByteReader (List UInt8)) : ByteReader (List UInt8) :=
  fun bs => if bs.head?.any start then p bs else some ([], bs)

/-- The text does not start with a byte that has `test`. -/
def NotAt (test : UInt8 → Bool) (bs : List UInt8) : Prop := bs.head?.any test = false

variable {p : ByteReader α} {q : ByteReader β} {P : α → List UInt8 → Prop}
  {Q : β → List UInt8 → Prop} {F G : List UInt8 → Prop} {test : UInt8 → Bool}
  {bs t rest : List UInt8} {b : UInt8}

@[simp] theorem notAt_nil : NotAt test [] := rfl

@[simp] theorem notAt_cons : NotAt test (b :: bs) ↔ test b = false := Iff.rfl

theorem Exact.follows (h : Exact p P F) (hfollow : ∀ rest, G rest → F rest) : Exact p P G :=
  ⟨h.sound, fun ha rest hrest => h.complete ha rest (hfollow _ hrest)⟩

theorem Exact.both {f : α → β → γ} (hp : Exact p P F) (hq : Exact q Q G)
    (hfollow : ∀ b t rest, Q b t → G rest → F (t ++ rest)) :
    Exact (both p q f) (fun c t => ∃ a b x y, c = f a b ∧ t = x ++ y ∧ P a x ∧ Q b y) G := by
  constructor
  · intro bs c rest h
    simp only [ByteReader.both, Option.bind_eq_bind, Option.bind_eq_some_iff, Prod.exists] at h
    obtain ⟨a, between, ha, b, last, hb, heq⟩ := h
    cases heq
    obtain ⟨x, rfl, hx⟩ := hp.sound ha
    obtain ⟨y, rfl, hy⟩ := hq.sound hb
    exact ⟨x ++ y, (List.append_assoc ..).symm, a, b, x, y, rfl, rfl, hx, hy⟩
  · rintro c t ⟨a, b, x, y, rfl, rfl, hx, hy⟩ rest hrest
    have ha := hp.complete hx _ (hfollow b y rest hy hrest)
    have hb := hq.complete hy rest hrest
    simp only [ByteReader.both, List.append_assoc, ha, hb, Option.bind_eq_bind, Option.bind_some]

theorem exact_expect {a : α} :
    Exact (expect t a) (fun c x => c = a ∧ x = t) fun _ => True := by
  constructor
  · intro bs c rest h
    simp only [expect] at h
    split at h
    · rename_i hprefix
      cases h
      exact ⟨t, (List.prefix_iff_eq_append.mp hprefix).symm, rfl, rfl⟩
    · cases h
  · rintro c x ⟨rfl, rfl⟩ rest -
    simp [expect]

theorem exact_run : Exact (run test) (fun a x => a = x ∧ ∀ b ∈ x, test b = true) (NotAt test) := by
  constructor
  · intro bs a rest h
    cases h
    exact ⟨bs.takeWhile test, List.takeWhile_append_dropWhile.symm, rfl,
      List.all_eq_true.mp List.all_takeWhile⟩
  · rintro a x ⟨rfl, hx⟩ rest hrest
    have htake : rest.takeWhile test = [] := by
      cases rest with
      | nil => rfl
      | cons b rest => simp [notAt_cons.mp hrest]
    have hdrop : rest.dropWhile test = rest := by
      cases rest with
      | nil => rfl
      | cons b rest => simp [notAt_cons.mp hrest]
    rw [run, List.takeWhile_append_of_pos hx, List.dropWhile_append_of_pos hx, htake, hdrop,
      List.append_nil]

theorem exact_run1 :
    Exact (run1 test) (fun a x => a = x ∧ x ≠ [] ∧ ∀ b ∈ x, test b = true) (NotAt test) := by
  constructor
  · intro bs a rest h
    simp only [run1] at h
    split at h
    · rename_i hhead
      obtain ⟨x, hbs, rfl, hx⟩ := exact_run.sound h
      refine ⟨a, hbs, rfl, ?_, hx⟩
      rintro rfl
      cases bs with
      | nil => cases hhead
      | cons b bs =>
        have hb : test b = true := hhead
        simp [run, hb] at h
    · cases h
  · rintro a x ⟨rfl, hne, hx⟩ rest hrest
    obtain ⟨b, x, rfl⟩ := List.exists_cons_of_ne_nil hne
    have hhead : ((b :: x ++ rest).head?.any test) = true := hx b List.mem_cons_self
    rw [run1, if_pos hhead]
    exact exact_run.complete ⟨rfl, hx⟩ rest hrest

/-- The part that may be missing starts like no text that may come after it. -/
theorem Exact.optional {p : ByteReader (List UInt8)} {R : List UInt8 → Prop}
    (start : UInt8 → Bool) (h : Exact p (fun a x => a = x ∧ R x) F)
    (hstart : ∀ x rest, R x → (x ++ rest).head?.any start = true) :
    Exact (optional start p) (fun a x => a = x ∧ (x = [] ∨ R x))
      fun rest => F rest ∧ NotAt start rest := by
  constructor
  · intro bs a rest hp
    simp only [ByteReader.optional] at hp
    split at hp
    · obtain ⟨x, rfl, rfl, hx⟩ := h.sound hp
      exact ⟨a, rfl, rfl, .inr hx⟩
    · cases hp
      exact ⟨[], rfl, rfl, .inl rfl⟩
  · rintro a x ⟨rfl, rfl | hx⟩ rest ⟨hfollow, hnot⟩
    · rw [ByteReader.optional, List.nil_append, if_neg (by simpa [NotAt] using hnot)]
    · rw [ByteReader.optional, if_pos (hstart a rest hx)]
      exact h.complete ⟨rfl, hx⟩ rest hfollow

end ByteReader
