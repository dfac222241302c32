import RemoBroker.Lib.JsonText.Exact

/-! The compact form of a value is one of its texts, so that reading it gives the value back. -/

namespace JsonText

variable {inRange : List UInt8 → Bool} {depth n : Nat} {s : String} {b : UInt8}

/-- The numbers that a reader represents, among them the integers of 64 bits. -/
structure NumberFormat where
  inRange : List UInt8 → Bool
  inRange_number : ∀ n < 2 ^ 64, inRange (Json.number n) = true
  inRange_negative : ∀ n ≤ 2 ^ 63, inRange (45 :: Json.number n) = true

/-- The integer that a token of digits alone writes. -/
def natural (token : List UInt8) : Option Nat :=
  if token.all isDigit then some (token.foldl (fun n b => 10 * n + (b.toNat - 48)) 0) else none

theorem piece_escape : Piece [b] (Json.escape b) := by
  have hall : ∀ n : Fin 256,
      piece (Json.escape (UInt8.ofNat n)) = some ([UInt8.ofNat n], []) := by decide +kernel
  have hb := hall ⟨b.toNat, b.toNat_lt⟩
  rw [UInt8.ofNat_toNat] at hb
  obtain ⟨t, ht, hpiece⟩ := exact_piece.sound hb
  rwa [ht, List.append_nil]

theorem pieces_escaped (bs : List UInt8) : Pieces bs (Json.escaped bs ++ [34]) := by
  induction bs with
  | nil => exact .nil
  | cons b bs ih =>
    rw [Json.escaped, List.flatMap_cons, List.append_assoc]
    exact .cons piece_escape ih

theorem stringText_string : StringText s (Json.string (Utf8.encode s.toList)) :=
  ⟨_, rfl, pieces_escaped _⟩

theorem toUInt8_digit {c : Char} (h : c.isDigit = true) :
    isDigit c.toUInt8 = true ∧ c.toUInt8.toNat = c.toNat := by
  have hrange : 48 ≤ c.toNat ∧ c.toNat ≤ 57 := by
    simp only [Char.isDigit, Bool.and_eq_true, decide_eq_true_eq, UInt32.le_iff_toNat_le] at h
    exact h
  have hnat : c.toUInt8.toNat = c.toNat := by
    have : c.toUInt8.toNat = c.toNat % 256 := rfl
    omega
  refine ⟨?_, hnat⟩
  simp only [isDigit, Bool.and_eq_true, decide_eq_true_eq, UInt8.le_iff_toNat_le, hnat]
  exact hrange

theorem isDigit_of_mem_number (h : b ∈ Json.number n) : isDigit b = true := by
  obtain ⟨c, hc, rfl⟩ := List.mem_map.mp h
  exact (toUInt8_digit (Nat.isDigit_of_mem_toDigits (by decide) (by decide) hc)).1

theorem head_number (hn : n ≠ 0) : (Json.number n).head? ≠ some 48 := by
  induction n using Nat.strongRecOn with
  | ind n ih =>
    by_cases hsmall : n < 10
    · have hall : ∀ k : Fin 10, k.val ≠ 0 → (Json.number k).head? ≠ some 48 := by decide
      exact hall ⟨n, hsmall⟩ hn
    · have hdigits := Nat.toDigits_of_base_le (b := 10) (n := n) (by decide) (Nat.not_lt.mp hsmall)
      have hne : Json.number (n / 10) ≠ [] := by simp [Json.number]
      have happend : Json.number n =
          Json.number (n / 10) ++ [(Nat.digitChar (n % 10)).toUInt8] := by
        rw [Json.number, hdigits, List.map_append]
        rfl
      rw [happend, List.head?_append_of_ne_nil _ hne]
      exact ih (n / 10) (by omega) (by omega)

theorem integerText_number : IntegerText (Json.number n) := by
  by_cases hn : n = 0
  · subst hn
    exact .inl (by decide)
  · exact .inr ⟨⟨by simp [Json.number], fun _ => isDigit_of_mem_number⟩, head_number hn⟩

theorem numberText_number : NumberText (Json.number n) :=
  ⟨[], Json.number n, [], [], by simp, .inl rfl, integerText_number, .inl rfl, .inl rfl⟩

theorem numberText_integer (z : Int) : NumberText (Json.integer z) := by
  unfold Json.integer
  split
  · exact ⟨[45], Json.number z.natAbs, [], [], by simp, .inr rfl, integerText_number, .inl rfl,
      .inl rfl⟩
  · exact numberText_number

theorem natural_number : natural (Json.number n) = some n := by
  have hall : (Json.number n).all isDigit = true :=
    List.all_eq_true.mpr fun _ => isDigit_of_mem_number
  have hfold : ∀ (cs : List Char) (k : Nat), (∀ c ∈ cs, c.isDigit = true) →
      (cs.map Char.toUInt8).foldl (fun n b => 10 * n + (b.toNat - 48)) k =
        Nat.ofDigitChars 10 cs k := by
    intro cs
    induction cs with
    | nil => intros; rfl
    | cons c cs ih =>
      intro k hcs
      have hc := (toUInt8_digit (hcs c List.mem_cons_self)).2
      rw [List.map_cons, List.foldl_cons, hc]
      exact ih _ fun d hd => hcs d (List.mem_cons_of_mem _ hd)
  rw [natural, if_pos hall, Json.number,
    hfold _ 0 fun c hc => Nat.isDigit_of_mem_toDigits (by decide) (by decide) hc,
    Nat.ofDigitChars_toDigits (by decide) (by decide)]

theorem items_intercalate {α : Type} {R : α → List UInt8 → Prop} {close : UInt8} {as : List α}
    {ts : List (List UInt8)} (h : List.Forall₂ R as ts) :
    Items R close as ([44].intercalate ts ++ [close]) := by
  have hspace : Space [] := by simp [Space]
  have hmore : ∀ {a t as ts}, R a t → List.Forall₂ R as ts →
      More R close (a :: as) ([44].intercalate (t :: ts) ++ [close]) := by
    intro a t as ts ha has
    induction has generalizing a t with
    | nil =>
      have hlast : More R close [a] (t ++ ([] ++ [close])) := .last ha hspace
      simpa using hlast
    | cons hb _ ih =>
      rw [List.intercalate_cons_cons]
      simpa using More.cons ha hspace hspace (ih hb)
  cases h with
  | nil => exact .empty hspace
  | cons ha has => exact Items.more (w := []) hspace (hmore ha has)

theorem text_array {items : List JsonValue} {ts : List (List UInt8)}
    (h : List.Forall₂ (Text inRange depth) items ts) :
    Text inRange (depth + 1) (.array items) (Json.array ts) :=
  ⟨_, rfl, items_intercalate h⟩

/-- A member and the field that it is written as. -/
def FieldText (inRange : List UInt8 → Bool) (depth : Nat) (m : String × JsonValue)
    (f : List UInt8 × List UInt8) : Prop :=
  f.1 = Utf8.encode m.1.toList ∧ Text inRange depth m.2 f.2

theorem text_object {members : List (String × JsonValue)} {fields : List (List UInt8 × List UInt8)}
    (h : List.Forall₂ (FieldText inRange depth) members fields) :
    Text inRange (depth + 1) (.object members) (Json.object fields) := by
  have hmembers : List.Forall₂ (MemberText (Text inRange depth)) members
      (fields.map Json.member) := by
    rw [List.forall₂_map_right_iff]
    refine h.imp fun m f hf => ?_
    refine ⟨Json.string f.1, [58], f.2, rfl, hf.1 ▸ stringText_string, ?_, hf.2⟩
    exact ⟨[], [], rfl, by simp [Space], by simp [Space]⟩
  exact ⟨_, rfl, items_intercalate hmembers⟩

/-- A compact form stands for itself on a line of its own. -/
theorem isText_line {v : JsonValue} {t w : List UInt8} (h : Text inRange maxDepth v t)
    (hw : Space w) : IsText inRange (t ++ w) v :=
  ⟨[], t, w, rfl, by simp [Space], h, hw⟩

end JsonText
