import RemoBroker.Manifest
import RemoBroker.Lib.Pattern
import RemoBroker.Lib.Utf8

/-! The names of projects and of secrets as the documentation gives them, by regular expressions
over characters, and that the checks of `src/manifest.rs`, which look at bytes, accept exactly
these. -/

namespace RemoBroker

open Language Utf8

/-- `[a-z0-9]` -/
def headRanges : List (Char × Char) := [('a', 'z'), ('0', '9')]

/-- `[a-z0-9_-]` -/
def nameRanges : List (Char × Char) := [('a', 'z'), ('0', '9'), ('_', '_'), ('-', '-')]

/-- `[A-Za-z0-9_]` -/
def secretRanges : List (Char × Char) := [('A', 'Z'), ('a', 'z'), ('0', '9'), ('_', '_')]

/-- `^[a-z0-9][a-z0-9_-]{0,63}$` -/
def projectNamePattern : Language Char :=
  charClass headRanges * between (charClass nameRanges) 0 63

/-- `^[A-Za-z0-9_]{1,128}$` -/
def secretNamePattern : Language Char := between (charClass secretRanges) 1 128

theorem bytes_eq_encode (s : String) : bytes s = encode s.toList := by
  unfold bytes String.toUTF8
  rw [← String.utf8Encode_toList, List.utf8Encode, List.data_toByteArray]
  rfl

theorem lt_of_inRanges {ranges : List (Char × Char)} (hranges : ∀ r ∈ ranges, r.2.toNat < 128)
    (c : Char) (h : inRanges ranges c = true) : c.toNat < 128 := by
  obtain ⟨r, hr, hc⟩ := List.any_eq_true.mp h
  simp only [Bool.and_eq_true, decide_eq_true_eq] at hc
  exact Nat.lt_of_le_of_lt (UInt32.le_iff_toNat_le.mp hc.2) (hranges r hr)

/-! The tests of a byte that the checks make. -/

def isHeadByte (b : UInt8) : Bool := isAsciiLowercase b || isAsciiDigit b

def isNameByte (b : UInt8) : Bool := isAsciiLowercase b || isAsciiDigit b || b == 95 || b == 45

def isSecretByte (b : UInt8) : Bool := isAsciiAlphanumeric b || b == 95

theorem isHeadByte_ascii : ∀ n < 128, isHeadByte (UInt8.ofNat n) =
    inRanges headRanges (Char.ofNat n) := by
  decide +kernel

theorem isNameByte_ascii : ∀ n < 128, isNameByte (UInt8.ofNat n) =
    inRanges nameRanges (Char.ofNat n) := by
  decide +kernel

theorem isSecretByte_ascii : ∀ n < 128, isSecretByte (UInt8.ofNat n) =
    inRanges secretRanges (Char.ofNat n) := by
  decide +kernel

theorem lt_of_isNameByte (b : UInt8) (h : isNameByte b = true) : b < 128 := by
  simp [isNameByte, isAsciiLowercase, isAsciiDigit, UInt8.le_iff_toNat_le,
    ← UInt8.toNat_inj] at h
  rw [UInt8.lt_iff_toNat_lt]
  simp
  omega

theorem lt_of_isSecretByte (b : UInt8) (h : isSecretByte b = true) : b < 128 := by
  simp [isSecretByte, isAsciiAlphanumeric, isAsciiLowercase, isAsciiUppercase, isAsciiDigit,
    UInt8.le_iff_toNat_le, ← UInt8.toNat_inj] at h
  rw [UInt8.lt_iff_toNat_lt]
  simp
  omega

theorem all_isNameByte {cs : List Char} :
    (∀ b ∈ encode cs, isNameByte b = true) ↔ ∀ c ∈ cs, inRanges nameRanges c = true :=
  all_encode isNameByte_ascii lt_of_isNameByte (lt_of_inRanges (by decide))

theorem all_isSecretByte {cs : List Char} :
    (∀ b ∈ encode cs, isSecretByte b = true) ↔ ∀ c ∈ cs, inRanges secretRanges c = true :=
  all_encode isSecretByte_ascii lt_of_isSecretByte (lt_of_inRanges (by decide))

theorem nameRanges_of_headRanges {c : Char} (h : inRanges headRanges c = true) :
    inRanges nameRanges c = true := by
  simp only [inRanges, headRanges, nameRanges, List.any_cons, List.any_nil, Bool.or_false,
    Bool.or_eq_true] at h ⊢
  tauto

theorem mem_projectNamePattern {w : List Char} : w ∈ projectNamePattern ↔
    ∃ c cs, w = c :: cs ∧ inRanges headRanges c = true ∧ cs.length ≤ 63 ∧
      ∀ d ∈ cs, inRanges nameRanges d = true := by
  rw [projectNamePattern, mem_mul]
  constructor
  · rintro ⟨a, ⟨c, rfl, hc⟩, cs, hcs, rfl⟩
    obtain ⟨-, hlen, hall⟩ := (mem_between (Nat.zero_le 63)).mp hcs
    exact ⟨c, cs, rfl, hc, hlen, hall⟩
  · rintro ⟨c, cs, rfl, hc, hlen, hall⟩
    exact ⟨[c], ⟨c, rfl, hc⟩, cs, (mem_between (Nat.zero_le 63)).mpr ⟨Nat.zero_le _, hlen, hall⟩,
      rfl⟩

theorem isValidProjectName_eq_true {s : String} : isValidProjectName s = true ↔
    ∃ first rest, bytes s = first :: rest ∧ rest.length ≤ 63 ∧ isHeadByte first = true ∧
      ∀ b ∈ rest, isNameByte b = true := by
  unfold isValidProjectName
  cases bytes s with
  | nil => simp
  | cons first rest =>
    have hlen : ¬projectNameMaxLen < (first :: rest).length ↔ rest.length ≤ 63 := by
      rw [Nat.not_lt, List.length_cons]
      exact Nat.succ_le_succ_iff
    have hhead : ¬(!isAsciiLowercase first && !isAsciiDigit first) = true ↔
        isHeadByte first = true := by
      simp only [isHeadByte, Bool.and_eq_true, Bool.not_eq_true', Bool.or_eq_true]
      cases isAsciiLowercase first <;> cases isAsciiDigit first <;> simp
    simp only [Bool.if_false_left, Bool.and_eq_true, Bool.not_eq_true', decide_eq_false_iff_not,
      hlen, List.all_eq_true]
    constructor
    · rintro ⟨hmax, hfirst, hrest⟩
      exact ⟨first, rest, rfl, hmax, hhead.mp (by simpa using hfirst), hrest⟩
    · rintro ⟨_, _, heq, hmax, hfirst, hrest⟩
      cases heq
      exact ⟨hmax, by simpa using hhead.mpr hfirst, hrest⟩

theorem isHeadByte_iff {c : Char} (h : c.toNat < 128) :
    isHeadByte (UInt8.ofNat c.toNat) = inRanges headRanges c := by
  rw [isHeadByte_ascii c.toNat h, Char.ofNat_toNat]

/-- The check of `is_valid_project_name` is the documented pattern. -/
theorem isValidProjectName_iff {s : String} :
    isValidProjectName s = true ↔ s.toList ∈ projectNamePattern := by
  rw [isValidProjectName_eq_true, mem_projectNamePattern, bytes_eq_encode]
  constructor
  · rintro ⟨first, rest, hbytes, hlen, hfirst, hrest⟩
    have hall : ∀ c ∈ s.toList, inRanges nameRanges c = true := by
      refine all_isNameByte.mp fun b hb => ?_
      rw [hbytes] at hb
      rcases List.mem_cons.mp hb with rfl | hb
      · simp only [isNameByte, isHeadByte] at hfirst ⊢
        simp [hfirst]
      · exact hrest b hb
    have hascii := fun c hc => lt_of_inRanges (by decide) c (hall c hc)
    rw [encode_of_ascii hascii] at hbytes
    obtain ⟨c, cs, hs, rfl, rfl⟩ := List.map_eq_cons_iff.mp hbytes
    rw [hs] at hall hascii
    rw [isHeadByte_iff (hascii c (by simp))] at hfirst
    exact ⟨c, cs, hs, hfirst, by simpa using hlen, fun d hd => hall d (by simp [hd])⟩
  · rintro ⟨c, cs, hs, hc, hlen, hall⟩
    have hname : ∀ d ∈ c :: cs, inRanges nameRanges d = true := by
      simpa [nameRanges_of_headRanges hc] using hall
    have hascii := fun d hd => lt_of_inRanges (by decide) d (hname d hd)
    refine ⟨UInt8.ofNat c.toNat, cs.map fun d => UInt8.ofNat d.toNat, ?_, by simpa using hlen,
      ?_, ?_⟩
    · rw [hs, encode_of_ascii hascii, List.map_cons]
    · rw [isHeadByte_iff (hascii c (by simp)), hc]
    · rw [← encode_of_ascii fun d hd => hascii d (by simp [hd])]
      exact all_isNameByte.mpr hall

/-- The check of `is_valid_secret_name` is the documented pattern. -/
theorem isValidSecretName_iff {s : String} :
    isValidSecretName s = true ↔ s.toList ∈ secretNamePattern := by
  have hall : (bytes s).all isSecretByte = true ↔
      ∀ c ∈ s.toList, inRanges secretRanges c = true := by
    rw [List.all_eq_true, bytes_eq_encode]
    exact all_isSecretByte
  have hvalid : isValidSecretName s = true ↔ 1 ≤ (bytes s).length ∧
      (bytes s).length ≤ secretNameMaxLen ∧ (bytes s).all isSecretByte = true := by
    rw [isValidSecretName]
    split
    · rename_i h
      simp only [Bool.or_eq_true, decide_eq_true_eq] at h
      rcases h with h | h
      · simp [h]
      · simp only [Bool.false_eq_true, false_iff]
        omega
    · rename_i h
      simp only [Bool.or_eq_true, decide_eq_true_eq, not_or] at h
      have hpos := List.length_pos_of_ne_nil h.1
      exact ⟨fun hb => ⟨hpos, by omega, hb⟩, fun hb => hb.2.2⟩
  rw [secretNamePattern, mem_between (by decide), hvalid, hall]
  constructor
  · rintro ⟨hmin, hmax, hs⟩
    have hlen := length_encode_of_ascii fun c hc => lt_of_inRanges (by decide) c (hs c hc)
    rw [← bytes_eq_encode] at hlen
    exact ⟨hlen ▸ hmin, hlen ▸ hmax, hs⟩
  · rintro ⟨hmin, hmax, hs⟩
    have hlen := length_encode_of_ascii fun c hc => lt_of_inRanges (by decide) c (hs c hc)
    rw [← bytes_eq_encode] at hlen
    exact ⟨hlen ▸ hmin, hlen ▸ hmax, hs⟩

end RemoBroker
