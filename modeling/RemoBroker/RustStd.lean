import Mathlib.Data.String.Basic

/-! What the broker uses of the Rust standard library: the bytes of a `str`, `Duration` and
`Instant`, and `Path::join` and `Path::file_name` on Unix, where a path is a string with `/`
between its components. -/

namespace RemoBroker

/-- The UTF-8 bytes of a string, `str::bytes`. -/
def bytes (s : String) : List UInt8 := s.toUTF8.data.toList

abbrev Duration := Nat

/-- A reading of the monotonic clock in nanoseconds. -/
abbrev Instant := Nat

def Duration.fromSecs (s : Nat) : Duration := s * 1000000000
def Duration.fromMillis (ms : Nat) : Duration := ms * 1000000
def Duration.asSecs (d : Duration) : Nat := d / 1000000000
def Duration.asMillis (d : Duration) : Nat := d / 1000000

/-- `u32::try_from(n).unwrap_or(u32::MAX)`. -/
def saturatingU32 (n : Nat) : UInt32 :=
  if n < 2 ^ 32 then UInt32.ofNat n else UInt32.ofNat (2 ^ 32 - 1)

theorem Duration.fromSecs_le {a b : Nat} : Duration.fromSecs a ≤ Duration.fromSecs b ↔ a ≤ b :=
  Nat.mul_le_mul_right_iff (by decide)

theorem Duration.fromSecs_pos {s : Nat} (h : 0 < s) : 0 < Duration.fromSecs s :=
  Nat.mul_pos h (by simp)

namespace Path

/-- `Path::is_absolute` on Unix. -/
def isAbsolute (p : String) : Bool := p.toList.head? == some '/'

/-- `Path::join`: an absolute second path replaces the first, and no separator is added after an
empty path or after one that ends with a separator. -/
def join (base rel : String) : String :=
  if isAbsolute rel then rel
  else if base.toList.getLast?.all (· == '/') then base ++ rel
  else base ++ "/" ++ rel

/-- The components of a path other than the root: repeated separators and `.` are dropped, as
`Path::components` does everywhere but at the start of a relative path. -/
def components (p : String) : List (List Char) :=
  (p.toList.splitOn '/').filter fun c => c != [] && c != ['.']

/-- `Path::file_name`: the last component, unless it is `..` or there is none. -/
def fileName (p : String) : Option String :=
  match (components p).getLast? with
  | none => none
  | some c => if c = ['.', '.'] then none else some (String.ofList c)

theorem isAbsolute_append {s t : String} (h : s.toList ≠ []) :
    isAbsolute (s ++ t) = isAbsolute s := by
  unfold isAbsolute
  rw [String.toList_append]
  cases hs : s.toList with
  | nil => exact absurd hs h
  | cons c cs => rfl

theorem bytes_of_isAbsolute {s : String} (h : isAbsolute s = true) :
    (bytes s).head? = some 47 := by
  have hs : ∃ cs, s.toList = '/' :: cs := by
    unfold isAbsolute at h
    cases hl : s.toList with
    | nil => simp [hl] at h
    | cons c cs =>
      simp only [hl, List.head?_cons, beq_iff_eq, Option.some.injEq] at h
      exact ⟨cs, by rw [h]⟩
  obtain ⟨cs, hcs⟩ := hs
  have hslash : ['/'].utf8Encode.data.toList = [47] := by decide
  unfold bytes String.toUTF8
  rw [← String.utf8Encode_toList, hcs, List.utf8Encode_cons, ByteArray.data_append,
    Array.toList_append, hslash]
  rfl

theorem join_injective {dir a b : String} (ha : isAbsolute a = false) (hb : isAbsolute b = false)
    (h : join dir a = join dir b) : a = b := by
  simp only [join, ha, hb, Bool.false_eq_true, ↓reduceIte] at h
  have hcancel : ∀ p : String, p ++ a = p ++ b → a = b := by
    intro p hp
    apply String.toList_inj.mp
    have := congrArg String.toList hp
    simpa [String.toList_append] using this
  split at h
  · exact hcancel _ h
  · exact hcancel _ h

example : join "/run/remo-broker" "admin.sock" = "/run/remo-broker/admin.sock" := by decide

example : fileName "/projects/foo/./" = some "foo" := by decide

end Path

end RemoBroker
