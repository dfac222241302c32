import Mathlib.Data.String.Basic

/-! The UTF-8 form of a text.  The ASCII characters of a text and the bytes below 128 of its form
are the same ones; any bytes are pieces of such a form and ill-formed pieces between them. -/

namespace Utf8

/-- The UTF-8 form of a text. -/
def encode (cs : List Char) : List UInt8 := cs.flatMap String.utf8EncodeChar

variable {c : Char} {cs : List Char}

@[simp] theorem encode_nil : encode [] = [] := rfl

@[simp] theorem encode_cons : encode (c :: cs) = String.utf8EncodeChar c ++ encode cs := rfl

@[simp] theorem encode_append {ds : List Char} : encode (cs ++ ds) = encode cs ++ encode ds :=
  List.flatMap_append

theorem encodeChar_of_ascii (h : c.toNat < 128) :
    String.utf8EncodeChar c = [UInt8.ofNat c.toNat] := by
  have hle : c.val.toNat ≤ 127 := Nat.le_of_lt_succ h
  simp only [String.utf8EncodeChar, if_pos hle]
  rfl

/-- A character outside ASCII has no byte below 128. -/
theorem byte_of_not_ascii {b : UInt8} (h : 128 ≤ c.toNat) (hb : b ∈ String.utf8EncodeChar c) :
    128 ≤ b := by
  have hnot : ¬c.val.toNat ≤ 127 := by
    rw [Nat.not_le]
    exact h
  have hlarge : ∀ n, 128 ≤ n → n < 256 → 128 ≤ UInt8.ofNat n := fun n hle hlt => by
    rw [UInt8.le_iff_toNat_le, UInt8.toNat_ofNat_of_lt' hlt]
    exact hle
  simp only [String.utf8EncodeChar, if_neg hnot] at hb
  split at hb
  · simp only [List.mem_cons, List.not_mem_nil, or_false] at hb
    rcases hb with rfl | rfl <;> exact hlarge _ (by omega) (by omega)
  · split at hb
    · simp only [List.mem_cons, List.not_mem_nil, or_false] at hb
      rcases hb with rfl | rfl | rfl <;> exact hlarge _ (by omega) (by omega)
    · simp only [List.mem_cons, List.not_mem_nil, or_false] at hb
      rcases hb with rfl | rfl | rfl | rfl <;> exact hlarge _ (by omega) (by omega)

theorem encode_ne_nil (h : cs ≠ []) : encode cs ≠ [] := by
  cases cs with
  | nil => exact absurd rfl h
  | cons c cs => simp [String.utf8EncodeChar_ne_nil]

theorem encode_of_ascii (h : ∀ c ∈ cs, c.toNat < 128) :
    encode cs = cs.map fun c => UInt8.ofNat c.toNat := by
  induction cs with
  | nil => rfl
  | cons c cs ih =>
    rw [encode_cons, encodeChar_of_ascii (h c (by simp)), ih fun d hd => h d (by simp [hd])]
    rfl

theorem ascii_of_encode (h : ∀ b ∈ encode cs, b < 128) : ∀ c ∈ cs, c.toNat < 128 := by
  intro c hc
  by_contra hnot
  obtain ⟨b, hb⟩ := List.exists_mem_of_ne_nil _ (String.utf8EncodeChar_ne_nil (c := c))
  have hge := byte_of_not_ascii (Nat.not_lt.mp hnot) hb
  have hlt := h b (List.mem_flatMap.mpr ⟨c, hc, hb⟩)
  rw [UInt8.lt_iff_toNat_lt] at hlt
  rw [UInt8.le_iff_toNat_le] at hge
  omega

theorem mem_encode_of_ascii (hc : c.toNat < 128) : UInt8.ofNat c.toNat ∈ encode cs ↔ c ∈ cs := by
  rw [encode, List.mem_flatMap]
  constructor
  · rintro ⟨d, hd, hmem⟩
    by_cases hascii : d.toNat < 128
    · rw [encodeChar_of_ascii hascii, List.mem_singleton] at hmem
      have hnat := congrArg UInt8.toNat hmem
      rw [UInt8.toNat_ofNat_of_lt' (Nat.lt_trans hc (by decide)),
        UInt8.toNat_ofNat_of_lt' (Nat.lt_trans hascii (by decide))] at hnat
      rwa [Char.toNat_inj.mp hnat]
    · have hge := byte_of_not_ascii (Nat.not_lt.mp hascii) hmem
      rw [UInt8.le_iff_toNat_le, UInt8.toNat_ofNat_of_lt' (Nat.lt_trans hc (by decide))] at hge
      exact absurd hge (Nat.not_le.mpr hc)
  · intro h
    exact ⟨c, h, by simp [encodeChar_of_ascii hc]⟩

/-- A test of bytes and a test of characters that agree on ASCII and fail outside of it agree on
the text, which is then as long in bytes as in characters. -/
theorem all_encode {p : UInt8 → Bool} {q : Char → Bool}
    (hascii : ∀ n < 128, p (UInt8.ofNat n) = q (Char.ofNat n)) (hp : ∀ b, p b = true → b < 128)
    (hq : ∀ c, q c = true → c.toNat < 128) :
    (∀ b ∈ encode cs, p b = true) ↔ ∀ c ∈ cs, q c = true := by
  have hsame : ∀ c : Char, c.toNat < 128 → p (UInt8.ofNat c.toNat) = q c := fun c hc => by
    rw [hascii c.toNat hc, Char.ofNat_toNat]
  constructor
  · intro h c hc
    have hall := ascii_of_encode fun b hb => hp b (h b hb)
    rw [encode_of_ascii hall] at h
    rw [← hsame c (hall c hc)]
    exact h _ (List.mem_map_of_mem hc)
  · intro h b hb
    rw [encode_of_ascii fun c hc => hq c (h c hc)] at hb
    obtain ⟨c, hc, rfl⟩ := List.mem_map.mp hb
    rw [hsame c (hq c (h c hc))]
    exact h c hc

theorem length_encode_of_ascii (h : ∀ c ∈ cs, c.toNat < 128) :
    (encode cs).length = cs.length := by
  rw [encode_of_ascii h, List.length_map]

/-- The character that the bytes start with. -/
def decodeChar (bs : List UInt8) : Option Char := bs.toByteArray.utf8DecodeChar? 0

/-- The second bytes that a first byte allows, where a form has more than two. -/
def secondRange (b : UInt8) : UInt8 × UInt8 :=
  if b = 0xE0 then (0xA0, 0xBF)
  else if b = 0xED then (0x80, 0x9F)
  else if b = 0xF0 then (0x90, 0xBF)
  else if b = 0xF4 then (0x80, 0x8F)
  else (0x80, 0xBF)

/-- Where the bytes start with no character: how many of them start one, which the next byte does
not go on with, and one if none do. -/
def invalidLength : List UInt8 → Nat
  | b :: c :: rest =>
    if 0xE0 ≤ b ∧ b ≤ 0xF4 ∧ (secondRange b).1 ≤ c ∧ c ≤ (secondRange b).2 then
      if 0xF0 ≤ b ∧ rest.head?.any fun d => 0x80 ≤ d && d ≤ 0xBF then 3 else 2
    else 1
  | _ => 1

/-- The characters and the ill-formed pieces of the bytes after `skip` bytes, in order. -/
def chunksFrom : Nat → List UInt8 → List (Option Char)
  | _, [] => []
  | skip + 1, _ :: bs => chunksFrom skip bs
  | 0, b :: bs =>
    match decodeChar (b :: bs) with
    | some c => some c :: chunksFrom (c.utf8Size - 1) bs
    | none => none :: chunksFrom (invalidLength (b :: bs) - 1) bs

def chunks (bs : List UInt8) : List (Option Char) := chunksFrom 0 bs

/-- The text whose form the bytes are. -/
def decode (bs : List UInt8) : Option (List Char) := (chunks bs).mapM id

/-- The characters of the bytes, with U+FFFD for each ill-formed piece. -/
def decodeLossy (bs : List UInt8) : List Char := (chunks bs).map (·.getD (Char.ofNat 0xFFFD))

variable {b : UInt8} {bs : List UInt8}

theorem decodeChar_encodeChar : decodeChar (String.utf8EncodeChar c ++ bs) = some c := by
  rw [decodeChar, List.toByteArray_append]
  exact ByteArray.utf8DecodeChar?_utf8EncodeChar_append

theorem decodeChar_eq_some (h : decodeChar bs = some c) :
    ∃ rest, bs = String.utf8EncodeChar c ++ rest := by
  obtain ⟨l, hl⟩ := ByteArray.exists_of_utf8DecodeChar?_eq_some h
  refine ⟨l.data.toList, ?_⟩
  have hdata := congrArg (fun b => b.data.toList) hl
  simpa [ByteArray.data_append, List.data_toByteArray] using hdata

theorem chunksFrom_eq_drop {skip : Nat} : chunksFrom skip bs = chunks (bs.drop skip) := by
  induction skip generalizing bs with
  | zero => rfl
  | succ skip ih =>
    cases bs with
    | nil => rfl
    | cons b bs => exact ih

theorem chunks_encodeChar_append :
    chunks (String.utf8EncodeChar c ++ bs) = some c :: chunks bs := by
  have hlen : (String.utf8EncodeChar c).length = c.utf8Size := String.length_utf8EncodeChar c
  have hchar : decodeChar (String.utf8EncodeChar c ++ bs) = some c := decodeChar_encodeChar
  have hpos := c.utf8Size_pos
  cases hform : String.utf8EncodeChar c with
  | nil => simp [hform] at hlen; omega
  | cons b tail =>
    rw [hform] at hlen hchar
    rw [List.cons_append] at hchar ⊢
    have hdrop : (tail ++ bs).drop (c.utf8Size - 1) = bs := by
      rw [← hlen]
      exact List.drop_left
    rw [chunks, chunksFrom, hchar]
    simp only [chunksFrom_eq_drop, hdrop]

theorem chunks_encode : chunks (encode cs) = cs.map some := by
  induction cs with
  | nil => rfl
  | cons c cs ih => rw [encode_cons, chunks_encodeChar_append, ih, List.map_cons]

theorem eq_encode_of_chunks (h : chunks bs = cs.map some) : bs = encode cs := by
  induction cs generalizing bs with
  | nil =>
    cases bs with
    | nil => rfl
    | cons b bs =>
      rw [chunks, chunksFrom] at h
      split at h <;> cases h
  | cons c cs ih =>
    have hchar : decodeChar bs = some c := by
      cases bs with
      | nil => cases h
      | cons b bs =>
        rw [chunks, chunksFrom] at h
        split at h
        · rename_i d hd
          rw [hd, ← (List.cons.inj h).1]
        · cases h
    obtain ⟨rest, rfl⟩ := decodeChar_eq_some hchar
    rw [chunks_encodeChar_append] at h
    rw [encode_cons, ih (List.cons.inj h).2]

theorem mapM_id_eq_some {α : Type} {l : List (Option α)} {xs : List α} :
    l.mapM id = some xs ↔ l = xs.map some := by
  induction l generalizing xs with
  | nil => cases xs <;> simp
  | cons x l ih =>
    cases x with
    | none => cases xs <;> simp
    | some a => cases xs <;> simp [Option.bind_eq_some_iff, ih, and_comm]

/-- What decodes are the forms of texts. -/
theorem decode_eq_some : decode bs = some cs ↔ bs = encode cs := by
  rw [decode, mapM_id_eq_some]
  constructor
  · exact eq_encode_of_chunks
  · rintro rfl
    exact chunks_encode

example : decodeLossy (encode "Hello ".toList ++ [0xF0, 0x90, 0x80] ++ encode "World".toList) =
    "Hello \uFFFDWorld".toList := by decide

end Utf8
