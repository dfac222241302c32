import Mathlib.Algebra.BigOperators.Group.List.Basic
import Mathlib.Algebra.GroupWithZero.Nat
import Mathlib.Data.List.Basic

/-! JSON in its compact form, as bytes: strings with the escapes that JSON asks for, numbers,
arrays and objects; how long these are, and that none of them holds a newline. -/

namespace Json

def newline : UInt8 := 10

def hexDigit (n : UInt8) : UInt8 := if n < 10 then 48 + n else 87 + n

/-- A byte as it stands inside a string: the quotation mark, the backslash and the control
characters are escaped. -/
def escape (b : UInt8) : List UInt8 :=
  if b = 34 then [92, 34]
  else if b = 92 then [92, 92]
  else if b = 8 then [92, 98]
  else if b = 9 then [92, 116]
  else if b = 10 then [92, 110]
  else if b = 12 then [92, 102]
  else if b = 13 then [92, 114]
  else if b < 32 then [92, 117, 48, 48, hexDigit (b / 16), hexDigit (b % 16)]
  else [b]

def escaped (s : List UInt8) : List UInt8 := s.flatMap escape

def string (s : List UInt8) : List UInt8 := 34 :: escaped s ++ [34]

def number (n : Nat) : List UInt8 := (Nat.toDigits 10 n).map Char.toUInt8

def integer (z : Int) : List UInt8 :=
  if z < 0 then 45 :: number z.natAbs else number z.natAbs

def bool (b : Bool) : List UInt8 :=
  if b then [116, 114, 117, 101] else [102, 97, 108, 115, 101]

def array (items : List (List UInt8)) : List UInt8 := 91 :: [44].intercalate items ++ [93]

def member (field : List UInt8 × List UInt8) : List UInt8 := string field.1 ++ 58 :: field.2

def object (fields : List (List UInt8 × List UInt8)) : List UInt8 :=
  123 :: [44].intercalate (fields.map member) ++ [125]

variable {s t : List UInt8} {n : Nat} {items : List (List UInt8)}
  {fields : List (List UInt8 × List UInt8)}

@[simp] theorem escaped_append : escaped (s ++ t) = escaped s ++ escaped t := by
  simp [escaped]

theorem length_string : (string s).length = (escaped s).length + 2 := by
  simp [string]

theorem length_number_le {k : Nat} (hk : 0 < k) (h : n < 10 ^ k) : (number n).length ≤ k := by
  rw [number, List.length_map]
  exact (Nat.length_toDigits_le_iff (by decide) hk).mpr h

theorem length_intercalate (sep : UInt8) (items : List (List UInt8)) :
    ([sep].intercalate items).length = (items.map List.length).sum + (items.length - 1) := by
  induction items with
  | nil => rfl
  | cons item items ih =>
    cases items with
    | nil => simp
    | cons next items =>
      rw [List.intercalate_cons_cons]
      simp only [List.length_append, ih, List.map_cons, List.sum_cons, List.length_cons,
        List.length_nil]
      omega

theorem length_array :
    (array items).length = (items.map List.length).sum + (items.length - 1) + 2 := by
  simp only [array, List.length_append, List.length_cons, List.length_nil, length_intercalate]

/-- The bytes of an object are those of its values and of the object with empty values. -/
theorem length_object : (object fields).length =
    (object (fields.map fun f => (f.1, []))).length + (fields.map fun f => f.2.length).sum := by
  have hmembers : ((fields.map member).map List.length).sum =
      (((fields.map fun f => (f.1, ([] : List UInt8))).map member).map List.length).sum +
        (fields.map fun f => f.2.length).sum := by
    induction fields with
    | nil => rfl
    | cons f fields ih =>
      simp only [List.map_cons, List.sum_cons, member, List.length_append, List.length_cons,
        List.length_nil] at ih ⊢
      omega
  simp only [object, List.length_append, List.length_cons, List.length_nil, length_intercalate,
    hmembers, List.length_map]
  omega

/-! No JSON text holds a newline. -/

theorem escape_inline (b : UInt8) : newline ∉ escape b := by
  have hall : ∀ n : Fin 256, newline ∉ escape (UInt8.ofNat n) := by decide +kernel
  have hb := hall ⟨b.toNat, b.toNat_lt⟩
  rwa [UInt8.ofNat_toNat] at hb

theorem string_inline : newline ∉ string s := by
  have hs : newline ∉ escaped s := by
    intro hmem
    obtain ⟨b, _, hb⟩ := List.mem_flatMap.mp hmem
    exact escape_inline b hb
  simpa [string, hs] using by decide

theorem number_inline : newline ∉ number n := by
  intro hmem
  obtain ⟨c, hc, heq⟩ := List.mem_map.mp hmem
  have hdigit : 48 ≤ c.val ∧ c.val ≤ 57 := by
    have := Nat.isDigit_of_mem_toDigits (by decide) (by decide) hc
    simpa [Char.isDigit] using this
  have hval : c.val.toNat % 256 = 10 := congrArg UInt8.toNat heq
  have hlow : 48 ≤ c.val.toNat := UInt32.le_iff_toNat_le.mp hdigit.1
  have hhigh : c.val.toNat ≤ 57 := UInt32.le_iff_toNat_le.mp hdigit.2
  omega

theorem integer_inline (z : Int) : newline ∉ integer z := by
  unfold integer
  split
  · simpa [number_inline] using by decide
  · exact number_inline

theorem bool_inline (b : Bool) : newline ∉ bool b := by
  cases b <;> decide

theorem intercalate_inline {sep : UInt8} (hsep : newline ≠ sep)
    (h : ∀ item ∈ items, newline ∉ item) : newline ∉ [sep].intercalate items := by
  induction items with
  | nil => simp
  | cons item items ih =>
    cases items with
    | nil => simpa using h
    | cons next items =>
      have hrest := ih fun x hx => h x (List.mem_cons_of_mem _ hx)
      have hitem := h item List.mem_cons_self
      rw [List.intercalate_cons_cons]
      simp [hitem, hsep, hrest]

theorem array_inline (h : ∀ item ∈ items, newline ∉ item) : newline ∉ array items := by
  have hitems := intercalate_inline (show newline ≠ 44 by decide) h
  simpa [array, hitems] using by decide

theorem object_inline (h : ∀ f ∈ fields, newline ∉ f.2) : newline ∉ object fields := by
  have hmembers : ∀ m ∈ fields.map member, newline ∉ m := by
    intro m hm
    obtain ⟨f, hf, rfl⟩ := List.mem_map.mp hm
    have hvalue := h f hf
    simpa [member, string_inline, hvalue] using by decide
  have hfields := intercalate_inline (show newline ≠ 44 by decide) hmembers
  simpa [object, hfields] using by decide

end Json
