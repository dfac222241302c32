import Mathlib.Data.List.Infix
import RemoBroker.Lib.JsonText.Render

/-! The bytes that an object starts with are nowhere else in its compact form, where its values are
texts and numbers: a brace inside a text comes before an escaped quotation mark or before the end of
the text, and a name starts with neither a comma nor a brace. -/

namespace Json

/-- A brace, a quotation mark and the first byte of a name. -/
def opening (b : UInt8) : List UInt8 := [123, 34, b]

def isLetter (b : UInt8) : Prop := 97 ≤ b ∧ b ≤ 122

def Free (b : UInt8) (l : List UInt8) : Prop := ¬opening b <:+: l

variable {b : UInt8} {l m s : List UInt8} {fields : List (List UInt8 × List UInt8)}

theorem free_of_notMem (h : 123 ∉ l) : Free b l :=
  fun hinside => h (hinside.subset List.mem_cons_self)

/-- Nothing opens across the border of two parts if the second one starts like no rest of an
opening. -/
theorem free_append (hl : Free b l) (hm : Free b m) (hhead : ∀ c ∈ m.head?, c ≠ 34 ∧ c ≠ b) :
    Free b (l ++ m) := by
  intro hinside
  rcases List.infix_append_iff.mp hinside with h | h | ⟨x, y, hxy, hx, hy⟩
  · exact hl h
  · exact hm h
  · match x with
    | [] => exact hm (hxy ▸ hy.isInfix)
    | [_] =>
      obtain ⟨-, rfl⟩ := List.cons.inj hxy
      obtain ⟨rest, rfl⟩ := hy
      exact (hhead 34 rfl).1 rfl
    | [_, _] =>
      obtain ⟨-, hy'⟩ := List.cons.inj hxy
      obtain ⟨-, rfl⟩ := List.cons.inj hy'
      obtain ⟨rest, rfl⟩ := hy
      exact (hhead b rfl).2 rfl
    | c :: d :: e :: x =>
      have hlength := congrArg List.length hxy
      simp only [opening, List.length_cons, List.length_append, List.length_nil] at hlength
      have hnil : y = [] := List.eq_nil_of_length_eq_zero (by omega)
      rw [hnil, List.append_nil] at hxy
      exact hl (hxy ▸ hx.isInfix)

theorem quote_of_escape (c : UInt8) : escape c = [92, 34] ∨ 34 ∉ escape c := by
  have hall : ∀ n : Fin 256, escape (UInt8.ofNat n) = [92, 34] ∨ 34 ∉ escape (UInt8.ofNat n) := by
    decide +kernel
  have hc := hall ⟨c.toNat, c.toNat_lt⟩
  rwa [UInt8.ofNat_toNat] at hc

/-- Each quotation mark inside a text comes after a backslash. -/
theorem quote_of_escaped {x y : List UInt8} (h : escaped s = x ++ 34 :: y) :
    x.getLast? = some 92 := by
  induction s generalizing x with
  | nil => simp [escaped] at h
  | cons c s ih =>
    rw [escaped, List.flatMap_cons] at h
    rcases List.append_eq_append_iff.mp h with ⟨x', rfl, hx'⟩ | ⟨c', hc, hy⟩
    · have hlast := ih hx'
      rw [List.getLast?_append, hlast]
      rfl
    · cases c' with
      | nil => exact absurd (ih (x := []) hy.symm) (by simp)
      | cons q c' =>
        cases (List.cons.inj hy).1
        rcases quote_of_escape c with hquote | hnone
        · rw [hquote] at hc
          rcases x with - | ⟨c₁, - | ⟨c₂, x⟩⟩
          · cases hc
          · cases hc
            rfl
          · simp at hc
        · exact absurd (hc ▸ by simp) hnone

theorem free_string (hb : b ≠ 34) : Free b (string s) := by
  have hescaped : Free b (escaped s) := by
    rintro ⟨x, y, hxy⟩
    have hlast := @quote_of_escaped s (x ++ [123]) (b :: y) (by simp [← hxy, opening])
    simp at hlast
  intro hinside
  rw [string, List.cons_append, List.infix_cons_iff, List.infix_concat_iff] at hinside
  rcases hinside with hprefix | hsuffix | hinside
  · cases (List.cons_prefix_cons.mp hprefix).1
  · obtain ⟨x, hx⟩ := hsuffix
    have hlast := congrArg List.getLast? hx
    simp [opening] at hlast
    exact hb hlast
  · exact hescaped hinside

theorem free_number {n : Nat} : Free b (number n) := by
  refine free_of_notMem fun hmem => ?_
  exact absurd (JsonText.isDigit_of_mem_number hmem) (by decide)

theorem free_integer (z : Int) : Free b (integer z) := by
  unfold integer
  split
  · refine free_of_notMem fun hmem => ?_
    rcases List.mem_cons.mp hmem with heq | hmem
    · cases heq
    · exact absurd (JsonText.isDigit_of_mem_number hmem) (by decide)
  · exact free_number

theorem free_member {f : List UInt8 × List UInt8} (hb : isLetter b) (hf : Free b f.2) :
    Free b (member f) := by
  have h34 : b ≠ 34 := by rintro rfl; exact absurd hb.1 (by decide)
  have h58 : b ≠ 58 := by rintro rfl; exact absurd hb.1 (by decide)
  refine free_append (free_string h34) ?_ ?_
  · intro hinside
    rcases List.infix_cons_iff.mp hinside with hprefix | hinside
    · cases (List.cons_prefix_cons.mp hprefix).1
    · exact hf hinside
  · simpa using Ne.symm h58

theorem free_members (hb : isLetter b) (h : ∀ f ∈ fields, Free b f.2) :
    Free b ([44].intercalate (fields.map member) ++ [125]) := by
  have h44 : b ≠ 44 := by rintro rfl; exact absurd hb.1 (by decide)
  have h125 : b ≠ 125 := by rintro rfl; exact absurd hb.2 (by decide)
  have hclose : Free b [125] := free_of_notMem (by decide)
  induction fields with
  | nil => exact hclose
  | cons f fields ih =>
    have hf := free_member hb (h f List.mem_cons_self)
    have hrest := ih fun g hg => h g (List.mem_cons_of_mem _ hg)
    cases fields with
    | nil => simpa using free_append hf hclose (by simpa using Ne.symm h125)
    | cons g fields =>
      rw [List.map_cons, List.map_cons, List.intercalate_cons_cons, List.append_assoc,
        List.append_assoc]
      refine free_append hf ?_ (by simpa using Ne.symm h44)
      intro hinside
      rcases List.infix_cons_iff.mp hinside with hprefix | hinside
      · cases (List.cons_prefix_cons.mp hprefix).1
      · exact hrest hinside

theorem opening_prefix {name value : List UInt8} (h : (escaped name).head? = some b) :
    opening b <+: object ((name, value) :: fields) := by
  obtain ⟨rest, hrest⟩ := List.head?_eq_some_iff.mp h
  have hmembers : ∃ after, [44].intercalate ((member (name, value)) :: fields.map member) =
      member (name, value) ++ after := by
    cases fields with
    | nil => exact ⟨[], by simp⟩
    | cons f fields =>
      exact ⟨_, by rw [List.map_cons, List.intercalate_cons_cons, List.append_assoc]⟩
  obtain ⟨after, hafter⟩ := hmembers
  rw [object, List.map_cons, hafter, member, string, hrest]
  exact ⟨rest ++ [34] ++ 58 :: value ++ after ++ [125], by simp [opening]⟩

/-- No object of this kind ends with another text that starts like an object. -/
theorem eq_nil_of_object_suffix {text : List UInt8} (hb : isLetter b)
    (h : ∀ f ∈ fields, Free b f.2) (hl : opening b <+: l) (heq : text ++ l = object fields) :
    text = [] := by
  cases text with
  | nil => rfl
  | cons c text =>
    have hbody : text ++ l = [44].intercalate (fields.map member) ++ [125] := (List.cons.inj heq).2
    have hinside : opening b <:+: text ++ l := hl.isInfix.trans (List.suffix_append text l).isInfix
    exact absurd (hbody ▸ hinside) (free_members hb h)

end Json
