import RemoBroker.Lib.JsonText

/-! The reader of JSON texts takes what the grammar says: `fromSlice` gives a value for bytes
exactly if the bytes are a text of that value. -/

namespace JsonText

open ByteReader

/-- The bytes that can go on with a number. -/
def isNumeral (b : UInt8) : Bool := isDigit b || b = 46 || isExponent b

/-! ### Numbers -/

theorem exact_digits : Exact digits (fun a x => a = x ∧ Digits x) (NotAt isDigit) := exact_run1

theorem integer_of_ne_zero {bs : List UInt8} (h : bs.head? ≠ some 48) :
    integer bs = digits bs := by
  cases bs with
  | nil => rfl
  | cons b bs =>
    unfold integer
    split
    · rename_i heq
      cases heq
      exact absurd rfl h
    · rfl

theorem exact_integer : Exact integer (fun a x => a = x ∧ IntegerText x) (NotAt isDigit) := by
  constructor
  · intro bs a rest h
    by_cases hzero : bs.head? = some 48
    · obtain ⟨bs, rfl⟩ := List.head?_eq_some_iff.mp hzero
      simp only [integer] at h
      split at h
      · cases h
      · cases h
        exact ⟨[48], rfl, rfl, .inl rfl⟩
    · rw [integer_of_ne_zero hzero] at h
      obtain ⟨x, rfl, rfl, hx⟩ := exact_digits.sound h
      refine ⟨a, rfl, rfl, .inr ⟨hx, ?_⟩⟩
      rwa [List.head?_append_of_ne_nil _ hx.1] at hzero
  · rintro a x ⟨rfl, rfl | ⟨hx, hzero⟩⟩ rest hrest
    · have hnot : ¬rest.head?.any isDigit = true := by simpa [NotAt] using hrest
      simp [integer, hnot]
    · rw [integer_of_ne_zero (by rwa [List.head?_append_of_ne_nil _ hx.1])]
      exact exact_digits.complete ⟨rfl, hx⟩ rest hrest

theorem exact_one (test : UInt8 → Bool) :
    Exact (one test) (fun a x => a = x ∧ ∃ b, test b = true ∧ x = [b]) fun _ => True := by
  constructor
  · intro bs a rest h
    cases bs with
    | nil => cases h
    | cons b bs =>
      simp only [one] at h
      split at h
      · rename_i hb
        cases h
        exact ⟨[b], rfl, rfl, b, hb, rfl⟩
      · cases h
  · rintro a x ⟨rfl, b, hb, rfl⟩ rest -
    simp [one, hb]

theorem exact_fraction : Exact fraction (fun a x => a = x ∧ FractionText x) (NotAt isDigit) := by
  have h := (exact_one (· = 46)).both (f := (· ++ ·)) exact_digits
    fun _ _ _ _ _ => trivial
  constructor
  · intro bs a rest ha
    obtain ⟨_, rfl, _, _, _, _, rfl, rfl, ⟨rfl, _, hdot, rfl⟩, rfl, hds⟩ := h.sound ha
    cases of_decide_eq_true hdot
    exact ⟨_, rfl, rfl, _, rfl, hds⟩
  · rintro a x ⟨rfl, ds, rfl, hds⟩ rest hrest
    exact h.complete ⟨[46], ds, [46], ds, rfl, rfl, ⟨rfl, 46, rfl, rfl⟩, rfl, hds⟩ rest hrest

theorem sign_of_digit {b : UInt8} (h : isDigit b = true) : isSign b = false := by
  simp only [isDigit, Bool.and_eq_true, decide_eq_true_eq, UInt8.le_iff_toNat_le] at h
  have h43 : b ≠ 43 := by rintro rfl; exact absurd h.1 (by decide)
  have h45 : b ≠ 45 := by rintro rfl; exact absurd h.1 (by decide)
  simp [isSign, h43, h45]

theorem Digits.notAt {test : UInt8 → Bool} {x rest : List UInt8} (hx : Digits x)
    (h : ∀ b, isDigit b = true → test b = false) : NotAt test (x ++ rest) := by
  obtain ⟨b, x, rfl⟩ := List.exists_cons_of_ne_nil hx.1
  exact h b (hx.2 b List.mem_cons_self)

theorem exact_exponent :
    Exact exponent (fun a x => a = x ∧ ExponentText x) (NotAt isDigit) := by
  have hsign := (exact_one isSign).optional isSign
    fun x rest ⟨b, hb, hx⟩ => by simp [hx, hb]
  have htail := hsign.both (f := (· ++ ·)) exact_digits
    fun b t rest ht _ => ⟨trivial, ht.2.notAt fun _ => sign_of_digit⟩
  have h := (exact_one isExponent).both (f := (· ++ ·)) htail
    fun _ _ _ _ _ => trivial
  constructor
  · intro bs a rest ha
    obtain ⟨_, rfl, _, _, _, _, rfl, rfl, ⟨rfl, e, he, rfl⟩, s, ds, _, _, rfl, rfl, ⟨rfl, hs⟩, rfl,
      hds⟩ := h.sound ha
    exact ⟨_, rfl, rfl, e, s, ds, rfl, he, hs, hds⟩
  · rintro a x ⟨rfl, e, s, ds, rfl, he, hs, hds⟩ rest hrest
    exact h.complete ⟨[e], s ++ ds, [e], s ++ ds, rfl, rfl, ⟨rfl, e, he, rfl⟩, s, ds, s, ds, rfl,
      rfl, ⟨rfl, hs⟩, rfl, hds⟩ rest hrest

theorem notAt_of_numeral {test : UInt8 → Bool} {rest : List UInt8}
    (htest : ∀ b, test b = true → isNumeral b = true) (h : NotAt isNumeral rest) :
    NotAt test rest := by
  cases rest with
  | nil => rfl
  | cons b rest =>
    rw [notAt_cons] at h ⊢
    by_contra hnot
    rw [htest b (Bool.eq_true_of_not_eq_false hnot)] at h
    cases h

/-- A part that may be missing, before a rest that starts with none of the bytes. -/
theorem notAt_optional {test : UInt8 → Bool} {R : List UInt8 → Prop} {x rest : List UInt8}
    (hx : x = [] ∨ R x) (hR : R x → NotAt test (x ++ rest)) (hrest : NotAt test rest) :
    NotAt test (x ++ rest) := by
  rcases hx with rfl | hx
  · exact hrest
  · exact hR hx

theorem FractionText.notAt {test : UInt8 → Bool} {x rest : List UInt8} (h : FractionText x)
    (htest : test 46 = false) : NotAt test (x ++ rest) := by
  obtain ⟨ds, rfl, -⟩ := h
  exact htest

theorem ExponentText.notAt {test : UInt8 → Bool} {x rest : List UInt8} (h : ExponentText x)
    (hlower : test 101 = false) (hupper : test 69 = false) : NotAt test (x ++ rest) := by
  obtain ⟨e, s, ds, rfl, he, -⟩ := h
  obtain rfl | rfl : e = 101 ∨ e = 69 := by simpa [isExponent] using he
  · exact hlower
  · exact hupper

theorem ExponentText.starts {x rest : List UInt8} (h : ExponentText x) :
    (x ++ rest).head?.any isExponent = true := by
  obtain ⟨e, s, ds, rfl, he, -⟩ := h
  exact he

theorem IntegerText.notAt {test : UInt8 → Bool} {x rest : List UInt8} (h : IntegerText x)
    (htest : ∀ b, isDigit b = true → test b = false) : NotAt test (x ++ rest) := by
  rcases h with rfl | ⟨hx, -⟩
  · exact htest 48 rfl
  · exact hx.notAt htest

theorem minus_of_digit {b : UInt8} (h : isDigit b = true) : decide (b = 45) = false := by
  have := sign_of_digit h
  simp only [isSign, Bool.or_eq_false_iff] at this
  exact this.2

theorem exact_number : Exact number (fun a x => a = x ∧ NumberText x) (NotAt isNumeral) := by
  have hexponent : Exact (optional isExponent exponent) _ (NotAt isNumeral) :=
    (exact_exponent.optional isExponent fun x rest hx => hx.starts).follows fun rest h =>
      ⟨notAt_of_numeral (by simp +contextual [isNumeral]) h,
        notAt_of_numeral (by simp +contextual [isNumeral]) h⟩
  have hfraction := exact_fraction.optional (· = 46) fun x rest ⟨ds, hx, _⟩ => by
    simp [hx]
  have htail := hfraction.both (f := (· ++ ·)) hexponent fun _ x rest hx hrest =>
    ⟨notAt_optional hx.2 (·.notAt rfl rfl)
        (notAt_of_numeral (by simp +contextual [isNumeral]) hrest),
      notAt_optional hx.2 (·.notAt rfl rfl) (notAt_of_numeral (by simp [isNumeral]) hrest)⟩
  have hunsigned := exact_integer.both (f := (· ++ ·)) htail fun _ _ rest hx hrest => by
    obtain ⟨f, e, _, _, -, rfl, ⟨rfl, hf⟩, rfl, he⟩ := hx
    have hdigit : NotAt isDigit rest := notAt_of_numeral (by simp +contextual [isNumeral]) hrest
    rw [List.append_assoc]
    exact notAt_optional hf (·.notAt rfl) (notAt_optional he (·.notAt rfl rfl) hdigit)
  have hminus := (exact_one (· = 45)).optional (· = 45) fun x rest hx => by
    obtain ⟨b, hb, rfl⟩ := hx
    exact hb
  have h := hminus.both (f := (· ++ ·)) hunsigned fun _ _ rest hx _ => by
    obtain ⟨i, _, _, _, -, rfl, ⟨rfl, hi⟩, -⟩ := hx
    rw [List.append_assoc]
    exact ⟨trivial, hi.notAt fun _ => minus_of_digit⟩
  constructor
  · intro bs a rest ha
    obtain ⟨_, rfl, s, _, _, _, rfl, rfl, ⟨rfl, hs⟩, i, _, _, _, rfl, rfl, ⟨rfl, hi⟩, f, e, _, _,
      rfl, rfl, ⟨rfl, hf⟩, rfl, he⟩ := h.sound ha
    exact ⟨_, rfl, rfl, s, i, f, e, rfl, by simpa using hs, hi, hf, he⟩
  · rintro a x ⟨rfl, s, i, f, e, rfl, hs, hi, hf, he⟩ rest hrest
    exact h.complete ⟨s, _, s, _, rfl, rfl, ⟨rfl, by simpa using hs⟩, i, _, i, _, rfl, rfl,
      ⟨rfl, hi⟩, f, e, f, e, rfl, rfl, ⟨rfl, hf⟩, rfl, he⟩ rest hrest

/-! ### Strings -/

theorem hex4_eq_some {bs rest : List UInt8} {n : Nat} (h : hex4 bs = some (n, rest)) :
    ∃ t, bs = t ++ rest ∧ ∀ rest', hex4 (t ++ rest') = some (n, rest') := by
  match bs with
  | a :: b :: c :: d :: bs =>
    simp only [hex4, Option.bind_eq_bind, Option.bind_eq_some_iff, Option.some.injEq,
      Prod.mk.injEq] at h
    obtain ⟨va, ha, vb, hb, vc, hc, vd, hd, rfl, rfl⟩ := h
    refine ⟨[a, b, c, d], rfl, fun rest' => ?_⟩
    simp [hex4, ha, hb, hc, hd]
  | [] => cases h
  | [_] => cases h
  | [_, _] => cases h
  | [_, _, _] => cases h

theorem exact_hex4 : Exact hex4 (fun n t => hex4 t = some (n, [])) fun _ => True := by
  constructor
  · intro bs n rest h
    obtain ⟨t, rfl, ht⟩ := hex4_eq_some h
    exact ⟨t, rfl, by simpa using ht []⟩
  · rintro n t ht rest -
    obtain ⟨u, hu, hall⟩ := hex4_eq_some ht
    rw [List.append_nil] at hu
    rw [hu]
    exact hall rest

theorem exact_secondHalf : Exact secondHalf
    (fun m t => ∃ u, t = 92 :: 117 :: u ∧ hex4 u = some (m, [])) fun _ => True := by
  have h := (exact_expect (t := [92, 117]) (a := ())).both (f := fun _ m => m) exact_hex4
    fun _ _ _ _ _ => trivial
  constructor
  · intro bs m rest hm
    obtain ⟨_, rfl, _, m, _, u, rfl, rfl, ⟨-, rfl⟩, hu⟩ := h.sound hm
    exact ⟨_, rfl, u, rfl, hu⟩
  · rintro m _ ⟨u, rfl, hu⟩ rest -
    exact h.complete ⟨(), m, [92, 117], u, rfl, rfl, ⟨rfl, rfl⟩, hu⟩ rest trivial

theorem not_trail_of_lead {n : Nat} (h : isLead n = true) : isTrail n = false := by
  simp only [isLead, isTrail, Bool.and_eq_true, decide_eq_true_eq, Bool.and_eq_false_iff,
    decide_eq_false_iff_not] at h ⊢
  omega

theorem exact_codepoint : Exact codepoint Codepoint fun _ => True := by
  constructor
  · intro bs d rest h
    simp only [codepoint, Option.bind_eq_bind, Option.bind_eq_some_iff, Prod.exists] at h
    obtain ⟨n, between, hn, h⟩ := h
    obtain ⟨t, rfl, ht⟩ := exact_hex4.sound hn
    split at h
    · cases h
    · rename_i htrail
      split at h
      · rename_i hlead
        obtain ⟨⟨m, last⟩, hm, hlast⟩ := Option.bind_eq_some_iff.mp h
        obtain ⟨_, rfl, u, rfl, hu⟩ := exact_secondHalf.sound hm
        simp only [Option.ite_none_right_eq_some, Option.some.injEq, Prod.mk.injEq] at hlast
        obtain ⟨hpair, rfl, rfl⟩ := hlast
        exact ⟨t ++ 92 :: 117 :: u, by simp, .pair ht hlead hu hpair⟩
      · rename_i hlead
        cases h
        exact ⟨t, rfl, .single ht (by simpa using hlead) (by simpa using htrail)⟩
  · rintro d _ (⟨hn, hlead, htrail⟩ | @⟨n, m, t, u, hn, hlead, hm, htrail⟩) rest -
    · simp [codepoint, exact_hex4.complete hn _ trivial, hlead, htrail]
    · have hsecond := exact_secondHalf.complete ⟨u, rfl, hm⟩ rest trivial
      simp only [List.cons_append] at hsecond
      simp [codepoint, exact_hex4.complete hn _ trivial, hlead, not_trail_of_lead hlead, hsecond,
        htrail]

theorem exact_piece : Exact piece Piece fun _ => True := by
  constructor
  · intro bs d rest h
    cases bs with
    | nil => cases h
    | cons b bs =>
      simp only [piece] at h
      split at h
      · rename_i hb
        subst hb
        cases bs with
        | nil => cases h
        | cons b bs =>
          simp only [escape] at h
          split at h
          · rename_i hb
            subst hb
            obtain ⟨t, rfl, ht⟩ := exact_codepoint.sound h
            exact ⟨92 :: 117 :: t, rfl, .codepoint ht⟩
          · obtain ⟨c, hc, heq⟩ := Option.map_eq_some_iff.mp h
            cases heq
            exact ⟨[92, b], rfl, .escape hc⟩
      · rename_i hescape
        simp only [Option.ite_none_left_eq_some, not_or, Option.some.injEq, Prod.mk.injEq] at h
        obtain ⟨⟨hquote, hcontrol⟩, rfl, rfl⟩ := h
        exact ⟨[b], rfl, .plain hescape hquote (UInt8.not_lt.mp hcontrol)⟩
  · rintro d _ (⟨hescape, hquote, hcontrol⟩ | @⟨b, c, hc⟩ | ⟨hd⟩) rest -
    · simp [piece, hescape, hquote, UInt8.not_lt.mpr hcontrol]
    · have hb : b ≠ 117 := by
        rintro rfl
        cases hc
      simp [piece, escape, hb, hc]
    · simpa [piece, escape] using exact_codepoint.complete hd rest trivial

theorem Piece.ne_nil {d t : List UInt8} (h : Piece d t) : t ≠ [] := by
  cases h <;> simp

theorem Piece.starts {d t rest : List UInt8} (h : Piece d t) : (t ++ rest).head? ≠ some 34 := by
  cases h with
  | plain _ hquote _ => simpa using hquote
  | escape => simp
  | codepoint => simp

theorem pieces_sound {fuel : Nat} {bs ds rest : List UInt8}
    (h : pieces fuel bs = some (ds, rest)) : ∃ t, bs = t ++ rest ∧ Pieces ds t := by
  induction fuel generalizing bs ds with
  | zero => cases h
  | succ fuel ih =>
    simp only [pieces] at h
    split at h
    · rename_i hquote
      obtain ⟨bs, rfl⟩ := List.head?_eq_some_iff.mp hquote
      cases h
      exact ⟨[34], rfl, .nil⟩
    · simp only [both, Option.bind_eq_bind, Option.bind_eq_some_iff, Prod.exists] at h
      obtain ⟨d, between, hd, es, last, hes, heq⟩ := h
      cases heq
      obtain ⟨x, rfl, hx⟩ := exact_piece.sound hd
      obtain ⟨y, rfl, hy⟩ := ih hes
      exact ⟨x ++ y, (List.append_assoc ..).symm, .cons hx hy⟩

theorem pieces_complete {fuel : Nat} {ds t : List UInt8} (rest : List UInt8) (h : Pieces ds t)
    (hfuel : t.length ≤ fuel) : pieces fuel (t ++ rest) = some (ds, rest) := by
  induction h generalizing fuel with
  | nil =>
    cases fuel with
    | zero => cases hfuel
    | succ fuel => rfl
  | @cons d x ds y hpiece _ ih =>
    have hpos := List.length_pos_of_ne_nil hpiece.ne_nil
    rw [List.length_append] at hfuel
    cases fuel with
    | zero => omega
    | succ fuel =>
      have hrest := @ih fuel (by omega)
      have hfirst := exact_piece.complete hpiece (y ++ rest) trivial
      rw [List.append_assoc, pieces, if_neg hpiece.starts]
      simp only [both, hfirst, hrest, Option.bind_eq_bind, Option.bind_some]

theorem exact_string : Exact string StringText fun _ => True := by
  constructor
  · intro bs s rest h
    unfold string at h
    split at h
    · rename_i bs
      simp only [Option.bind_eq_bind, Option.bind_eq_some_iff, Prod.exists] at h
      obtain ⟨ds, last, hds, cs, hcs, heq⟩ := h
      cases heq
      obtain ⟨t, rfl, ht⟩ := pieces_sound hds
      rw [Utf8.decode_eq_some.mp hcs] at ht
      exact ⟨34 :: t, rfl, t, rfl, by simpa using ht⟩
    · cases h
  · rintro s _ ⟨t, rfl, ht⟩ rest -
    have hfuel : t.length ≤ (t ++ rest).length := by simp
    have hpieces := pieces_complete rest ht hfuel
    have hdecode := Utf8.decode_eq_some.mpr (rfl : Utf8.encode s.toList = _)
    simp only [string, List.cons_append, hpieces, hdecode, Option.bind_eq_bind, Option.bind_some,
      String.ofList_toList]

/-! ### Lists of items -/

theorem skipSpace_eq (bs : List UInt8) : ∃ w, bs = w ++ skipSpace bs ∧ Space w :=
  ⟨bs.takeWhile isSpace, List.takeWhile_append_dropWhile.symm,
    List.all_eq_true.mp List.all_takeWhile⟩

theorem skipSpace_append {w rest : List UInt8} (hw : Space w) (hrest : NotAt isSpace rest) :
    skipSpace (w ++ rest) = rest := by
  rw [skipSpace, List.dropWhile_append_of_pos hw]
  cases rest with
  | nil => rfl
  | cons b rest => simp [notAt_cons.mp hrest]

theorem numeral_of_space {b : UInt8} (h : isSpace b = true) : isNumeral b = false := by
  simp only [isSpace, Bool.or_eq_true, decide_eq_true_eq] at h
  rcases h with ((rfl | rfl) | rfl) | rfl <;> rfl

theorem Space.notAt {test : UInt8 → Bool} {w rest : List UInt8} (hw : Space w)
    (htest : ∀ b, isSpace b = true → test b = false) (hrest : NotAt test rest) :
    NotAt test (w ++ rest) := by
  cases w with
  | nil => exact hrest
  | cons b w => exact htest b (hw b List.mem_cons_self)

/-- The text starts with a byte of its own. -/
def Opens (t : List UInt8) : Prop :=
  ∃ b u, t = b :: u ∧ isSpace b = false ∧ b ≠ 93 ∧ b ≠ 125

def isClose (b : UInt8) : Prop := b = 93 ∨ b = 125

theorem Opens.notAt_space {t rest : List UInt8} (h : Opens t) : NotAt isSpace (t ++ rest) := by
  obtain ⟨b, u, rfl, hspace, -⟩ := h
  exact hspace

section
variable {α : Type} {item : ByteReader α} {R : α → List UInt8 → Prop} {close : UInt8}
  {as : List α} {bs t rest : List UInt8} {fuel : Nat}

theorem more_sound (hitem : Exact item R (NotAt isNumeral))
    (h : more item close fuel bs = some (as, rest)) : ∃ t, bs = t ++ rest ∧ More R close as t := by
  induction fuel generalizing bs as with
  | zero => cases h
  | succ fuel ih =>
    simp only [more, Option.bind_eq_bind, Option.bind_eq_some_iff, Prod.exists] at h
    obtain ⟨a, between, ha, h⟩ := h
    obtain ⟨x, rfl, hx⟩ := hitem.sound ha
    obtain ⟨w, hbetween, hw⟩ := skipSpace_eq between
    split at h
    · cases h
    · rename_i b last hskip
      rw [hskip] at hbetween
      split at h
      · rename_i hcomma
        simp only [Option.bind_eq_some_iff, Prod.exists] at h
        obtain ⟨as, rest', has, heq⟩ := h
        cases heq
        obtain ⟨w', hlast, hw'⟩ := skipSpace_eq last
        obtain ⟨t, ht, hmore⟩ := ih has
        refine ⟨x ++ (w ++ 44 :: (w' ++ t)), ?_, .cons hx hw hw' hmore⟩
        rw [hbetween, hcomma, hlast, ht]
        simp
      · split at h
        · rename_i hclose
          cases h
          refine ⟨x ++ (w ++ [close]), ?_, .last hx hw⟩
          rw [hbetween, hclose]
          simp
        · cases h

theorem More.opens (hopens : ∀ a t, R a t → Opens t) (h : More R close as t) : Opens t := by
  cases h with
  | last hx _ =>
    obtain ⟨b, u, rfl, hb⟩ := hopens _ _ hx
    exact ⟨b, _, rfl, hb⟩
  | cons hx _ _ _ =>
    obtain ⟨b, u, rfl, hb⟩ := hopens _ _ hx
    exact ⟨b, _, rfl, hb⟩

theorem more_complete (hitem : Exact item R (NotAt isNumeral)) (hopens : ∀ a t, R a t → Opens t)
    (hclose : isClose close) (rest : List UInt8) (h : More R close as t)
    (hfuel : t.length ≤ fuel) : more item close fuel (t ++ rest) = some (as, rest) := by
  have hend : isNumeral close = false ∧ isSpace close = false ∧ close ≠ 44 := by
    rcases hclose with rfl | rfl <;> decide
  induction h generalizing fuel with
  | @last a x w hx hw =>
    rw [List.length_append, List.length_append, List.length_singleton] at hfuel
    cases fuel with
    | zero => omega
    | succ fuel =>
      have hnumeral : NotAt isNumeral (w ++ close :: rest) :=
        hw.notAt (fun _ => numeral_of_space) hend.1
      have hskip : skipSpace (w ++ close :: rest) = close :: rest := skipSpace_append hw hend.2.1
      have ha := hitem.complete hx _ hnumeral
      simp [more, ha, hskip, hend.2.2]
  | @cons a x w w' as t hx hw hw' hmore ih =>
    simp only [List.length_append, List.length_cons] at hfuel
    cases fuel with
    | zero => omega
    | succ fuel =>
      have hnumeral : NotAt isNumeral (w ++ 44 :: (w' ++ (t ++ rest))) :=
        hw.notAt (fun _ => numeral_of_space) rfl
      have hskip : skipSpace (w ++ 44 :: (w' ++ (t ++ rest))) = 44 :: (w' ++ (t ++ rest)) :=
        skipSpace_append hw rfl
      have hskip' : skipSpace (w' ++ (t ++ rest)) = t ++ rest :=
        skipSpace_append hw' (hmore.opens hopens).notAt_space
      have ha := hitem.complete hx _ hnumeral
      have has := @ih fuel (by omega)
      simp [more, ha, hskip, hskip', has]

theorem exact_items (close : UInt8) (hitem : Exact item R (NotAt isNumeral))
    (hopens : ∀ a t, R a t → Opens t) (hclose : isClose close) :
    Exact (items item close) (Items R close) fun _ => True := by
  constructor
  · intro bs as rest h
    obtain ⟨w, hbs, hw⟩ := skipSpace_eq bs
    simp only [items] at h
    split at h
    · cases h
    · rename_i b last hskip
      rw [hskip] at hbs
      split at h
      · rename_i hb
        cases h
        refine ⟨w ++ [close], ?_, .empty hw⟩
        rw [hbs, hb]
        simp
      · obtain ⟨t, ht, hmore⟩ := more_sound hitem h
        refine ⟨w ++ t, ?_, .more hw hmore⟩
        rw [hbs, ht, List.append_assoc]
  · rintro as _ (@⟨w, hw⟩ | @⟨w, as, t, hw, hmore⟩) rest -
    · have hspace : isSpace close = false := by
        rcases hclose with rfl | rfl <;> rfl
      have hskip : skipSpace (w ++ close :: rest) = close :: rest := skipSpace_append hw hspace
      simp [items, hskip]
    · have hopen := hmore.opens hopens
      have hskip : skipSpace (w ++ (t ++ rest)) = t ++ rest := skipSpace_append hw hopen.notAt_space
      have hfuel : t.length ≤ (w ++ (t ++ rest)).length := by
        simp only [List.length_append]
        omega
      have hdone := more_complete hitem hopens hclose rest hmore hfuel
      obtain ⟨b, u, rfl, -, hne⟩ := hopen
      have hb : b ≠ close := by
        rcases hclose with rfl | rfl
        · exact hne.1
        · exact hne.2
      rw [List.append_assoc]
      rw [List.cons_append] at hskip hdone ⊢
      simp only [items, hskip, if_neg hb, hdone]

end

/-! ### Values -/

theorem exact_colon : Exact colon (fun _ t => ColonText t) (NotAt isSpace) := by
  constructor
  · intro bs _ rest h
    obtain ⟨w, hbs, hw⟩ := skipSpace_eq bs
    simp only [colon] at h
    split at h
    · rename_i last hskip
      cases h
      obtain ⟨w', hlast, hw'⟩ := skipSpace_eq last
      refine ⟨w ++ 58 :: w', ?_, w, w', rfl, hw, hw'⟩
      rw [List.append_assoc, List.cons_append, ← hlast, ← hskip]
      exact hbs
    · cases h
  · rintro _ _ ⟨w, w', rfl, hw, hw'⟩ rest hrest
    have hskip : skipSpace (w ++ 58 :: (w' ++ rest)) = 58 :: (w' ++ rest) := skipSpace_append hw rfl
    simp [colon, hskip, skipSpace_append hw' hrest]

section
variable {value : ByteReader JsonValue} {R : JsonValue → List UInt8 → Prop}

theorem exact_member (hvalue : Exact value R (NotAt isNumeral))
    (hopens : ∀ v t, R v t → Opens t) :
    Exact (member value) (MemberText R) (NotAt isNumeral) := by
  have htail := exact_colon.both (f := fun _ v => v) hvalue
    fun v t rest ht _ => (hopens v t ht).notAt_space
  have h := exact_string.both (f := Prod.mk) htail fun _ _ _ _ _ => trivial
  constructor
  · intro bs m rest hm
    obtain ⟨_, rfl, s, _, x, _, rfl, rfl, hx, _, v, c, y, rfl, rfl, hc, hy⟩ := h.sound hm
    exact ⟨_, rfl, x, c, y, rfl, hx, hc, hy⟩
  · rintro ⟨s, v⟩ _ ⟨x, c, y, rfl, hx, hc, hy⟩ rest hrest
    exact h.complete ⟨s, v, x, _, rfl, rfl, hx, (), v, c, y, rfl, rfl, hc, hy⟩ rest hrest

theorem MemberText.opens {m : String × JsonValue} {t : List UInt8} (h : MemberText R m t) :
    Opens t := by
  obtain ⟨_, c, y, rfl, ⟨ts, rfl, -⟩, -⟩ := h
  exact ⟨34, _, rfl, by decide⟩

end

section
variable {inRange : List UInt8 → Bool} {v : JsonValue} {t rest bs : List UInt8} {depth : Nat}

/-- No other scalar and no array or object starts like a number. -/
def isOther (b : UInt8) : Bool :=
  b = 110 || b = 116 || b = 102 || b = 34 || b = 91 || b = 123

theorem NumberText.starts (h : NumberText t) :
    ∃ b u, t = b :: u ∧ isSpace b = false ∧ isOther b = false ∧ b ≠ 93 ∧ b ≠ 125 := by
  have hdigit : ∀ b, isDigit b = true →
      isSpace b = false ∧ isOther b = false ∧ b ≠ 93 ∧ b ≠ 125 := by
    intro b hb
    simp only [isDigit, Bool.and_eq_true, decide_eq_true_eq, UInt8.le_iff_toNat_le] at hb
    have hne : ∀ c : UInt8, c.toNat < 48 ∨ 57 < c.toNat → b ≠ c := by
      rintro c hc rfl
      have hlow : 48 ≤ b.toNat := hb.1
      have hhigh : b.toNat ≤ 57 := hb.2
      omega
    simp [isSpace, isOther, hne]
  obtain ⟨s, i, f, e, rfl, rfl | rfl, hi, -⟩ := h
  · rcases hi with rfl | ⟨⟨hne, hi⟩, -⟩
    · exact ⟨48, _, rfl, by decide⟩
    · obtain ⟨b, i, rfl⟩ := List.exists_cons_of_ne_nil hne
      exact ⟨b, _, rfl, hdigit b (hi b List.mem_cons_self)⟩
  · exact ⟨45, _, rfl, by decide⟩

theorem ScalarText.starts (h : ScalarText inRange v t) :
    ∃ b u, t = b :: u ∧ isSpace b = false ∧ b ≠ 93 ∧ b ≠ 125 ∧ b ≠ 91 ∧ b ≠ 123 := by
  match v with
  | .null => exact ⟨110, _, h, by decide⟩
  | .bool true => exact ⟨116, _, h, by decide⟩
  | .bool false => exact ⟨102, _, h, by decide⟩
  | .number token =>
    obtain ⟨rfl, ht, -⟩ := h
    obtain ⟨b, u, rfl, hspace, hother, h93, h125⟩ := ht.starts
    simp only [isOther, Bool.or_eq_false_iff, decide_eq_false_iff_not] at hother
    exact ⟨b, u, rfl, hspace, h93, h125, hother.1.2, hother.2⟩
  | .string s =>
    obtain ⟨u, rfl, -⟩ := h
    exact ⟨34, u, rfl, by decide⟩

theorem exact_scalar : Exact (scalar inRange) (ScalarText inRange) (NotAt isNumeral) := by
  constructor
  · intro bs v rest h
    simp only [scalar] at h
    split at h
    · obtain ⟨_, rfl, rfl, rfl⟩ := exact_expect.sound h
      exact ⟨_, rfl, rfl⟩
    · split at h
      · obtain ⟨_, rfl, rfl, rfl⟩ := exact_expect.sound h
        exact ⟨_, rfl, rfl⟩
      · split at h
        · obtain ⟨_, rfl, rfl, rfl⟩ := exact_expect.sound h
          exact ⟨_, rfl, rfl⟩
        · split at h
          · obtain ⟨⟨s, last⟩, hs, heq⟩ := Option.map_eq_some_iff.mp h
            cases heq
            exact exact_string.sound hs
          · obtain ⟨⟨token, last⟩, hnumber, hlast⟩ := Option.bind_eq_some_iff.mp h
            simp only [Option.ite_none_right_eq_some, Option.some.injEq, Prod.mk.injEq] at hlast
            obtain ⟨hrange, rfl, rfl⟩ := hlast
            obtain ⟨_, rfl, rfl, ht⟩ := exact_number.sound hnumber
            exact ⟨_, rfl, rfl, ht, hrange⟩
  · intro v t h rest hrest
    match v with
    | .null =>
      cases h
      exact (exact_expect (t := [110, 117, 108, 108])).complete ⟨rfl, rfl⟩ rest trivial
    | .bool true =>
      cases h
      exact (exact_expect (t := Json.bool true)).complete ⟨rfl, rfl⟩ rest trivial
    | .bool false =>
      cases h
      exact (exact_expect (t := Json.bool false)).complete ⟨rfl, rfl⟩ rest trivial
    | .number token =>
      obtain ⟨rfl, ht, hrange⟩ := h
      have hnumber := exact_number.complete ⟨rfl, ht⟩ rest hrest
      obtain ⟨b, u, rfl, -, hother, -⟩ := ht.starts
      simp only [isOther, Bool.or_eq_false_iff, decide_eq_false_iff_not] at hother
      rw [List.cons_append] at hnumber ⊢
      simp [scalar, hnumber, hrange, hother]
    | .string s =>
      have hs := exact_string.complete h rest trivial
      obtain ⟨u, rfl, -⟩ := h
      rw [List.cons_append] at hs ⊢
      simp [scalar, hs]

theorem text_zero : Text inRange 0 v t ↔ ScalarText inRange v t := by
  cases v <;> rfl

/-- An array, an object or a scalar. -/
theorem text_succ : Text inRange (depth + 1) v t ↔
    (∃ items u, v = .array items ∧ t = 91 :: u ∧ Items (Text inRange depth) 93 items u) ∨
    (∃ members u, v = .object members ∧ t = 123 :: u ∧
      Items (MemberText (Text inRange depth)) 125 members u) ∨
    ScalarText inRange v t := by
  cases v <;> simp [Text, ScalarText]

theorem Text.opens (h : Text inRange depth v t) : Opens t := by
  have hscalar : ∀ {v t}, ScalarText inRange v t → Opens t := fun h => by
    obtain ⟨b, u, rfl, hspace, h93, h125, -⟩ := h.starts
    exact ⟨b, u, rfl, hspace, h93, h125⟩
  cases depth with
  | zero => exact hscalar (text_zero.mp h)
  | succ depth =>
    obtain ⟨items, u, -, rfl, -⟩ | ⟨members, u, -, rfl, -⟩ | h := text_succ.mp h
    · exact ⟨91, u, rfl, by decide⟩
    · exact ⟨123, u, rfl, by decide⟩
    · exact hscalar h

theorem exact_value :
    Exact (value inRange depth) (Text inRange depth) (NotAt isNumeral) := by
  induction depth with
  | zero =>
    exact ⟨fun h => by simpa only [text_zero] using exact_scalar.sound h,
      fun h => exact_scalar.complete (text_zero.mp h)⟩
  | succ depth ih =>
    have harray := exact_items 93 ih (fun _ _ => Text.opens) (.inl rfl)
    have hobject := exact_items 125 (exact_member ih fun _ _ => Text.opens)
      (fun _ _ => MemberText.opens) (.inr rfl)
    constructor
    · intro bs v rest h
      simp only [value] at h
      split at h
      · rename_i hhead
        obtain ⟨bs, rfl⟩ := List.head?_eq_some_iff.mp hhead
        obtain ⟨⟨items, last⟩, hitems, heq⟩ := Option.map_eq_some_iff.mp h
        cases heq
        obtain ⟨u, hu, hitems⟩ := harray.sound hitems
        rw [List.tail_cons] at hu
        rw [hu]
        exact ⟨91 :: u, rfl, u, rfl, hitems⟩
      · split at h
        · rename_i hhead
          obtain ⟨bs, rfl⟩ := List.head?_eq_some_iff.mp hhead
          obtain ⟨⟨members, last⟩, hmembers, heq⟩ := Option.map_eq_some_iff.mp h
          cases heq
          obtain ⟨u, hu, hmembers⟩ := hobject.sound hmembers
          rw [List.tail_cons] at hu
          rw [hu]
          exact ⟨123 :: u, rfl, u, rfl, hmembers⟩
        · obtain ⟨t, rfl, ht⟩ := exact_scalar.sound h
          exact ⟨t, rfl, text_succ.mpr (.inr (.inr ht))⟩
    · intro v t h rest hrest
      obtain ⟨items, u, rfl, rfl, hitems⟩ | ⟨members, u, rfl, rfl, hmembers⟩ | h := text_succ.mp h
      · have hdone := harray.complete hitems rest trivial
        simp [value, hdone]
      · have hdone := hobject.complete hmembers rest trivial
        simp [value, hdone]
      · have hdone := exact_scalar.complete h rest hrest
        obtain ⟨b, u, rfl, -, -, -, h91, h123⟩ := h.starts
        rw [List.cons_append] at hdone ⊢
        simp [value, h91, h123, hdone]

/-- Exactly the texts are read, and as what they are texts of. -/
theorem fromSlice_eq_some : fromSlice inRange bs = some v ↔ IsText inRange bs v := by
  constructor
  · intro h
    simp only [fromSlice, Option.bind_eq_bind, Option.bind_eq_some_iff, Prod.exists,
      Option.ite_none_right_eq_some, Option.some.injEq] at h
    obtain ⟨v, rest, hv, hend, rfl⟩ := h
    obtain ⟨t, ht, htext⟩ := exact_value.sound hv
    obtain ⟨w, hbs, hw⟩ := skipSpace_eq bs
    obtain ⟨w', hrest, hw'⟩ := skipSpace_eq rest
    rw [hend, List.append_nil] at hrest
    refine ⟨w, t, w', ?_, hw, htext, hw'⟩
    rw [hbs, ht, hrest]
  · rintro ⟨w, t, w', rfl, hw, ht, hw'⟩
    have hfirst : skipSpace (w ++ (t ++ w')) = t ++ w' := skipSpace_append hw ht.opens.notAt_space
    have hlast : skipSpace w' = [] := by
      have happend : skipSpace (w' ++ []) = [] := skipSpace_append hw' notAt_nil
      rwa [List.append_nil] at happend
    have hnumeral : NotAt isNumeral w' := by
      have happend : NotAt isNumeral (w' ++ []) := hw'.notAt (fun _ => numeral_of_space) notAt_nil
      rwa [List.append_nil] at happend
    have hv := exact_value.complete ht w' hnumeral
    simp [fromSlice, hfirst, hv, hlast]

end

end JsonText
