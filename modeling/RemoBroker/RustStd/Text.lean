import RemoBroker.Lib.Lines
import RemoBroker.Lib.Utf8
import RemoBroker.Lib.Words
import RemoBroker.RustStd

/-! What `src/bootstrap.rs` uses of `str`: its conversions from bytes, white space, lines, and the
text form of `u16`. -/

namespace RemoBroker

/-- `&v[..n]`, and nothing where it panics. -/
def sliceTo {α : Type} (v : List α) (n : Nat) : Option (List α) :=
  if n ≤ v.length then some (v.take n) else none

/-- `&v[n..]`, and nothing where it panics. -/
def sliceFrom {α : Type} (v : List α) (n : Nat) : Option (List α) :=
  if n ≤ v.length then some (v.drop n) else none

namespace Str

def fromUtf8 (v : List UInt8) : Option String := (Utf8.decode v).map String.ofList

def fromUtf8Lossy (v : List UInt8) : String := String.ofList (Utf8.decodeLossy v)

/-- The characters with the Unicode property `White_Space`, from the first to the last of each
range. -/
def whiteSpace : List (Nat × Nat) :=
  [(0x9, 0xD), (0x20, 0x20), (0x85, 0x85), (0xA0, 0xA0), (0x1680, 0x1680), (0x2000, 0x200A),
    (0x2028, 0x2029), (0x202F, 0x202F), (0x205F, 0x205F), (0x3000, 0x3000)]

/-- `char::is_whitespace`. -/
def isWhitespace (c : Char) : Bool := whiteSpace.any fun r => r.1 ≤ c.toNat && c.toNat ≤ r.2

def trim (s : String) : String := String.ofList (Words.trim isWhitespace s.toList)

def splitWhitespace (s : String) : List String :=
  (Words.words isWhitespace s.toList).map String.ofList

/-- A line without the `\n` or `\r\n` that ends it. -/
def stripLineEnd (line : List Char) : List Char :=
  if line.getLast? = some '\n' then
    if line.dropLast.getLast? = some '\r' then line.dropLast.dropLast else line.dropLast
  else line

/-- `str::lines`. -/
def lines (s : String) : List String :=
  (Lines.frames '\n' s.toList).map fun line => String.ofList (stripLineEnd line)

/-- The digits of a `u16`, with the number read so far. -/
def readU16 : Nat → List Char → Option Nat
  | n, [] => some n
  | n, c :: cs =>
    if c.isDigit ∧ 10 * n + (c.toNat - '0'.toNat) < 2 ^ 16 then
      readU16 (10 * n + (c.toNat - '0'.toNat)) cs
    else none

def skipPlus : List Char → List Char
  | '+' :: digits => digits
  | digits => digits

/-- `u16::from_str`: digits, after at most one `+`. -/
def parseU16 (s : String) : Option UInt16 :=
  if skipPlus s.toList = [] then none else (readU16 0 (skipPlus s.toList)).map UInt16.ofNat

/-- `str::strip_prefix`. -/
def stripPrefix (text s : String) : Option String :=
  if text.toList <+: s.toList then some (String.ofList (s.toList.drop text.toList.length)) else none

/-- `str::rsplit_once`. -/
def rsplitOnce (s : String) (c : Char) : Option (String × String) :=
  if c ∈ s.toList then
    some (String.ofList (s.toList.rdropWhile (· ≠ c)).dropLast,
      String.ofList (s.toList.rtakeWhile (· ≠ c)))
  else none

/-- A text of white space alone. -/
def Blank (s : String) : Prop := ∀ c ∈ s.toList, isWhitespace c = true

instance (s : String) : Decidable (Blank s) := List.decidableBAll _ s.toList

variable {s : String}

theorem fromUtf8_eq_some {v : List UInt8} : fromUtf8 v = some s ↔ v = Utf8.encode s.toList := by
  rw [fromUtf8, Option.map_eq_some_iff]
  constructor
  · rintro ⟨cs, hcs, rfl⟩
    rw [String.toList_ofList]
    exact Utf8.decode_eq_some.mp hcs
  · intro h
    exact ⟨s.toList, Utf8.decode_eq_some.mpr h, String.ofList_toList⟩

theorem trim_eq_empty : trim s = "" ↔ Blank s := by
  rw [trim, ← String.toList_inj, String.toList_ofList]
  exact Words.trim_eq_nil

/-- Trimming takes no character away but white space. -/
theorem blank_trim : Blank (trim s) ↔ Blank s := by
  unfold Blank trim
  rw [String.toList_ofList]
  constructor
  · intro h c hc
    by_contra hnot
    have hfalse : isWhitespace c = false := by simpa using hnot
    exact hnot (h c ((Words.mem_trim hfalse).mpr hc))
  · intro h c hc
    by_contra hnot
    have hfalse : isWhitespace c = false := by simpa using hnot
    exact hnot (h c ((Words.mem_trim hfalse).mp hc))

theorem mem_stripLineEnd {line : List Char} {c : Char} (hc : isWhitespace c = false) :
    c ∈ stripLineEnd line ↔ c ∈ line := by
  have hdrop : ∀ {l : List Char} {d : Char}, l.getLast? = some d → isWhitespace d = true →
      (c ∈ l.dropLast ↔ c ∈ l) := by
    intro l d hl hd
    have hne : c ≠ d := by
      rintro rfl
      rw [hd] at hc
      cases hc
    obtain ⟨text, rfl⟩ := List.getLast?_eq_some_iff.mp hl
    simp [hne]
  unfold stripLineEnd
  split
  · rename_i hnewline
    split
    · rename_i hreturn
      rw [hdrop hreturn (by decide), hdrop hnewline (by decide)]
    · exact hdrop hnewline (by decide)
  · rfl

/-- A text is blank if its lines are. -/
theorem blank_lines : (∀ line ∈ lines s, Blank line) ↔ Blank s := by
  have hmem : ∀ c, isWhitespace c = false →
      ((∃ line ∈ lines s, c ∈ line.toList) ↔ c ∈ s.toList) := by
    intro c hc
    have hflat : c ∈ s.toList ↔ ∃ f ∈ Lines.frames '\n' s.toList, c ∈ f := by
      rw [← List.mem_flatten, Lines.flatten_frames]
    simp [hflat, lines, mem_stripLineEnd hc]
  constructor
  · intro h c hc
    by_contra hnot
    obtain ⟨line, hline, hmem⟩ := (hmem c (by simpa using hnot)).mpr hc
    exact hnot (h line hline c hmem)
  · intro h line hline c hc
    by_contra hnot
    exact hnot (h c ((hmem c (by simpa using hnot)).mp ⟨line, hline, hc⟩))

theorem lines_of_last (hne : s ≠ "") (h : '\n' ∉ s.toList) : lines s = [s] := by
  have hnil : s.toList ≠ [] := fun hnil => hne (String.toList_eq_nil_iff.mp hnil)
  have hstrip : stripLineEnd s.toList = s.toList :=
    if_neg fun hlast => h (List.mem_of_getLast? hlast)
  have hframes : Lines.frames '\n' s.toList = [s.toList] := by
    rw [Lines.frames_eq_cons hnil, Lines.first_of_not_mem h, List.drop_length, Lines.frames_nil]
  rw [lines, hframes, List.map_singleton, hstrip, String.ofList_toList]

theorem lines_append {rest : List Char} (h : '\n' ∉ s.toList) :
    lines (String.ofList (s.toList ++ '\r' :: '\n' :: rest)) = s :: lines (String.ofList rest) := by
  have hline : '\n' ∉ s.toList ++ ['\r'] := by simpa using h
  have hframes : Lines.frames '\n' (s.toList ++ '\r' :: '\n' :: rest) =
      (s.toList ++ ['\r'] ++ ['\n']) :: Lines.frames '\n' rest := by
    rw [List.append_cons, Lines.frames_line hline]
  have hstrip : stripLineEnd (s.toList ++ ['\r'] ++ ['\n']) = s.toList := by
    rw [stripLineEnd, List.getLast?_concat, if_pos rfl, List.dropLast_concat,
      List.getLast?_concat, if_pos rfl, List.dropLast_concat]
  simp only [lines, String.toList_ofList]
  rw [hframes, List.map_cons, hstrip, String.ofList_toList]

end Str

end RemoBroker
