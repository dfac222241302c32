import Mathlib.Computability.Language

/-! The regular expressions of character classes with a bounded number of repetitions, as languages:
`[..]` is `charClass`, and `[..]{m,n}` is `between`. -/

namespace Language

def inRanges (ranges : List (Char × Char)) (c : Char) : Bool :=
  ranges.any fun r => r.1 ≤ c && c ≤ r.2

/-- One character of the ranges. -/
def charClass (ranges : List (Char × Char)) : Language Char :=
  {w | ∃ c, w = [c] ∧ inRanges ranges c = true}

/-- From `m` to `n` repetitions. -/
def between {α : Type} (l : Language α) (m n : Nat) : Language α := l ^ m * (1 + l) ^ (n - m)

variable {ranges : List (Char × Char)} {w : List Char} {m n : Nat}

theorem mem_charClass_pow :
    w ∈ charClass ranges ^ n ↔ w.length = n ∧ ∀ c ∈ w, inRanges ranges c = true := by
  induction n generalizing w with
  | zero =>
    rw [pow_zero, mem_one]
    constructor
    · rintro rfl
      simp
    · rintro ⟨hlen, -⟩
      exact List.eq_nil_of_length_eq_zero hlen
  | succ n ih =>
    rw [pow_succ', mem_mul]
    constructor
    · rintro ⟨a, ⟨c, rfl, hc⟩, b, hb, rfl⟩
      obtain ⟨hlen, hall⟩ := ih.mp hb
      exact ⟨by simp [hlen], by simpa [hc] using hall⟩
    · rintro ⟨hlen, hall⟩
      cases w with
      | nil => cases hlen
      | cons c w =>
        refine ⟨[c], ⟨c, rfl, hall c (by simp)⟩, w, ih.mpr ⟨by simpa using hlen, ?_⟩, rfl⟩
        exact fun d hd => hall d (by simp [hd])

theorem mem_upTo :
    w ∈ (1 + charClass ranges) ^ n ↔ w.length ≤ n ∧ ∀ c ∈ w, inRanges ranges c = true := by
  induction n generalizing w with
  | zero =>
    rw [pow_zero, mem_one, Nat.le_zero, List.length_eq_zero_iff]
    exact ⟨fun h => ⟨h, by simp [h]⟩, And.left⟩
  | succ n ih =>
    rw [pow_succ', mem_mul]
    constructor
    · rintro ⟨a, ha, b, hb, rfl⟩
      obtain ⟨hlen, hall⟩ := ih.mp hb
      rcases (mem_add ..).mp ha with rfl | ⟨c, rfl, hc⟩
      · exact ⟨by simp; omega, by simpa using hall⟩
      · exact ⟨by simpa using hlen, by simpa [hc] using hall⟩
    · rintro ⟨hlen, hall⟩
      cases w with
      | nil => exact ⟨[], .inl rfl, [], ih.mpr ⟨Nat.zero_le n, by simp⟩, rfl⟩
      | cons c w =>
        refine ⟨[c], .inr ⟨c, rfl, hall c (by simp)⟩, w, ih.mpr ⟨by simpa using hlen, ?_⟩, rfl⟩
        exact fun d hd => hall d (by simp [hd])

theorem mem_between (h : m ≤ n) : w ∈ between (charClass ranges) m n ↔
    m ≤ w.length ∧ w.length ≤ n ∧ ∀ c ∈ w, inRanges ranges c = true := by
  rw [between, mem_mul]
  constructor
  · rintro ⟨a, ha, b, hb, rfl⟩
    obtain ⟨hlen, hall⟩ := mem_charClass_pow.mp ha
    obtain ⟨hlen', hall'⟩ := mem_upTo.mp hb
    refine ⟨by simp; omega, by simp; omega, fun c hc => ?_⟩
    rcases List.mem_append.mp hc with hc | hc
    · exact hall c hc
    · exact hall' c hc
  · rintro ⟨hmin, hmax, hall⟩
    refine ⟨w.take m, mem_charClass_pow.mpr ⟨by simpa using hmin, ?_⟩, w.drop m,
      mem_upTo.mpr ⟨by simp; omega, ?_⟩, List.take_append_drop m w⟩
    · exact fun c hc => hall c (List.mem_of_mem_take hc)
    · exact fun c hc => hall c (List.mem_of_mem_drop hc)

end Language
