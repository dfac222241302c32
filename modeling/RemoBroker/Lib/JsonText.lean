import RemoBroker.Lib.ByteReader
import RemoBroker.Lib.Json
import RemoBroker.Lib.Utf8

/-! JSON texts.  `Text` is the grammar: which bytes are a text of which value, with any white space
and any escapes that JSON allows.  `value` and `fromSlice` read a text as `serde_json` does: nesting
has a limit, a string is UTF-8 without lone surrogates, and `inRange` says which numbers can be
represented.  The members of an object keep their order and may repeat a name. -/

inductive JsonValue where
  | null
  | bool (b : Bool)
  | number (token : List UInt8)
  | string (s : String)
  | array (items : List JsonValue)
  | object (members : List (String × JsonValue))

namespace JsonText

open ByteReader

def isSpace (b : UInt8) : Bool := b = 32 || b = 9 || b = 10 || b = 13

def isDigit (b : UInt8) : Bool := 48 ≤ b && b ≤ 57

/-- The arrays and objects that may be open at once. -/
def maxDepth : Nat := 127

/-! ### The grammar -/

def Space (w : List UInt8) : Prop := ∀ b ∈ w, isSpace b = true

def Digits (t : List UInt8) : Prop := t ≠ [] ∧ ∀ b ∈ t, isDigit b = true

def IntegerText (t : List UInt8) : Prop := t = [48] ∨ Digits t ∧ t.head? ≠ some 48

def FractionText (t : List UInt8) : Prop := ∃ ds, t = 46 :: ds ∧ Digits ds

def isExponent (b : UInt8) : Bool := b = 101 || b = 69

def isSign (b : UInt8) : Bool := b = 43 || b = 45

def ExponentText (t : List UInt8) : Prop :=
  ∃ e s ds, t = e :: (s ++ ds) ∧ isExponent e = true ∧
    (s = [] ∨ ∃ b, isSign b = true ∧ s = [b]) ∧ Digits ds

def NumberText (t : List UInt8) : Prop :=
  ∃ s i f e, t = s ++ (i ++ (f ++ e)) ∧ (s = [] ∨ s = [45]) ∧ IntegerText i ∧
    (f = [] ∨ FractionText f) ∧ (e = [] ∨ ExponentText e)

def hexVal (b : UInt8) : Option Nat :=
  if 48 ≤ b ∧ b ≤ 57 then some (b.toNat - 48)
  else if 97 ≤ b ∧ b ≤ 102 then some (b.toNat - 87)
  else if 65 ≤ b ∧ b ≤ 70 then some (b.toNat - 55)
  else none

/-- Four hexadecimal digits. -/
def hex4 : ByteReader Nat
  | a :: b :: c :: d :: rest => do
    some (4096 * (← hexVal a) + 256 * (← hexVal b) + 16 * (← hexVal c) + (← hexVal d), rest)
  | _ => none

def isLead (n : Nat) : Bool := 0xD800 ≤ n && n ≤ 0xDBFF

def isTrail (n : Nat) : Bool := 0xDC00 ≤ n && n ≤ 0xDFFF

def pairOf (n m : Nat) : Char := Char.ofNat (0x10000 + 0x400 * (n - 0xD800) + (m - 0xDC00))

/-- What the letter after a backslash stands for. -/
def escapeOf (b : UInt8) : Option UInt8 :=
  if b = 34 then some 34
  else if b = 92 then some 92
  else if b = 47 then some 47
  else if b = 98 then some 8
  else if b = 102 then some 12
  else if b = 110 then some 10
  else if b = 114 then some 13
  else if b = 116 then some 9
  else none

/-- The UTF-8 form of what is written after `\u`. -/
inductive Codepoint : List UInt8 → List UInt8 → Prop where
  | single {n t} (digits : hex4 t = some (n, [])) (lead : isLead n = false)
      (trail : isTrail n = false) : Codepoint (String.utf8EncodeChar (Char.ofNat n)) t
  | pair {n m t u} (digits : hex4 t = some (n, [])) (lead : isLead n = true)
      (digits' : hex4 u = some (m, [])) (trail : isTrail m = true) :
      Codepoint (String.utf8EncodeChar (pairOf n m)) (t ++ 92 :: 117 :: u)

/-- The bytes that a piece of a string stands for. -/
inductive Piece : List UInt8 → List UInt8 → Prop where
  | plain {b : UInt8} (backslash : b ≠ 92) (quote : b ≠ 34) (control : 32 ≤ b) : Piece [b] [b]
  | escape {b c} (escape : escapeOf b = some c) : Piece [c] [92, b]
  | codepoint {d t} (codepoint : Codepoint d t) : Piece d (92 :: 117 :: t)

/-- The pieces of a string up to its end. -/
inductive Pieces : List UInt8 → List UInt8 → Prop where
  | nil : Pieces [] [34]
  | cons {d t ds ts} (piece : Piece d t) (pieces : Pieces ds ts) : Pieces (d ++ ds) (t ++ ts)

def StringText (s : String) (t : List UInt8) : Prop :=
  ∃ ts, t = 34 :: ts ∧ Pieces (Utf8.encode s.toList) ts

/-- One or more items with commas between them, up to `close`. -/
inductive More {α : Type} (R : α → List UInt8 → Prop) (close : UInt8) :
    List α → List UInt8 → Prop where
  | last {a x w} (item : R a x) (space : Space w) : More R close [a] (x ++ (w ++ [close]))
  | cons {a x w w' as t} (item : R a x) (space : Space w) (space' : Space w')
      (more : More R close as t) : More R close (a :: as) (x ++ (w ++ 44 :: (w' ++ t)))

inductive Items {α : Type} (R : α → List UInt8 → Prop) (close : UInt8) :
    List α → List UInt8 → Prop where
  | empty {w} (space : Space w) : Items R close [] (w ++ [close])
  | more {w as t} (space : Space w) (more : More R close as t) : Items R close as (w ++ t)

def ColonText (t : List UInt8) : Prop := ∃ w w', t = w ++ 58 :: w' ∧ Space w ∧ Space w'

/-- A name, a colon and a value. -/
def MemberText (R : JsonValue → List UInt8 → Prop) (m : String × JsonValue) (t : List UInt8) :
    Prop :=
  ∃ x c y, t = x ++ (c ++ y) ∧ StringText m.1 x ∧ ColonText c ∧ R m.2 y

section
variable (inRange : List UInt8 → Bool)

def ScalarText : JsonValue → List UInt8 → Prop
  | .null, t => t = [110, 117, 108, 108]
  | .bool b, t => t = Json.bool b
  | .number token, t => t = token ∧ NumberText token ∧ inRange token = true
  | .string s, t => StringText s t
  | .array _, _ => False
  | .object _, _ => False

/-- The texts of a value in which at most so many arrays and objects are open at once. -/
def Text : Nat → JsonValue → List UInt8 → Prop
  | depth + 1, .array items, t => ∃ u, t = 91 :: u ∧ Items (Text depth) 93 items u
  | depth + 1, .object members, t =>
    ∃ u, t = 123 :: u ∧ Items (MemberText (Text depth)) 125 members u
  | _, v, t => ScalarText inRange v t

/-- A whole text of a value. -/
def IsText (bs : List UInt8) (v : JsonValue) : Prop :=
  ∃ w t w', bs = w ++ (t ++ w') ∧ Space w ∧ Text inRange maxDepth v t ∧ Space w'

end

/-! ### The reader -/

def skipSpace (bs : List UInt8) : List UInt8 := bs.dropWhile isSpace

def digits : ByteReader (List UInt8) := run1 isDigit

def integer : ByteReader (List UInt8)
  | 48 :: bs => if bs.head?.any isDigit then none else some ([48], bs)
  | bs => digits bs

def one (test : UInt8 → Bool) : ByteReader (List UInt8)
  | b :: bs => if test b then some ([b], bs) else none
  | [] => none

def fraction : ByteReader (List UInt8) := both (one (· = 46)) digits (· ++ ·)

def exponent : ByteReader (List UInt8) :=
  both (one isExponent) (both (optional isSign (one isSign)) digits (· ++ ·)) (· ++ ·)

def number : ByteReader (List UInt8) :=
  both (optional (· = 45) (one (· = 45)))
    (both integer (both (optional (· = 46) fraction) (optional isExponent exponent) (· ++ ·))
      (· ++ ·)) (· ++ ·)

/-- The second half of a surrogate pair. -/
def secondHalf : ByteReader Nat := both (expect [92, 117] ()) hex4 fun _ m => m

/-- What comes after `\u`. -/
def codepoint : ByteReader (List UInt8) := fun bs => do
  let (n, bs) ← hex4 bs
  if isTrail n then none
  else if isLead n then
    (secondHalf bs).bind fun (m, bs) =>
      if isTrail m then some (String.utf8EncodeChar (pairOf n m), bs) else none
  else some (String.utf8EncodeChar (Char.ofNat n), bs)

def escape : ByteReader (List UInt8)
  | [] => none
  | b :: bs => if b = 117 then codepoint bs else (escapeOf b).map fun c => ([c], bs)

def piece : ByteReader (List UInt8)
  | [] => none
  | b :: bs =>
    if b = 92 then escape bs
    else if b = 34 ∨ b < 32 then none
    else some ([b], bs)

/-- The rest of a string; the number bounds the pieces. -/
def pieces : Nat → ByteReader (List UInt8)
  | 0, _ => none
  | fuel + 1, bs =>
    if bs.head? = some 34 then some ([], bs.tail)
    else both piece (pieces fuel) (· ++ ·) bs

def string : ByteReader String
  | 34 :: bs => do
    let (ds, rest) ← pieces bs.length bs
    let cs ← Utf8.decode ds
    some (String.ofList cs, rest)
  | _ => none

section
variable {α : Type} (item : ByteReader α) (close : UInt8)

/-- One or more items; the number bounds them. -/
def more : Nat → ByteReader (List α)
  | 0, _ => none
  | fuel + 1, bs => do
    let (a, rest) ← item bs
    match skipSpace rest with
    | [] => none
    | b :: rest =>
      if b = 44 then
        let (as, rest) ← more fuel (skipSpace rest)
        some (a :: as, rest)
      else if b = close then some ([a], rest)
      else none

def items : ByteReader (List α) := fun bs =>
  match skipSpace bs with
  | [] => none
  | b :: rest => if b = close then some ([], rest) else more item close bs.length (b :: rest)

end

def colon : ByteReader Unit := fun bs =>
  match skipSpace bs with
  | 58 :: rest => some ((), skipSpace rest)
  | _ => none

def member (value : ByteReader JsonValue) : ByteReader (String × JsonValue) :=
  both string (both colon value fun _ v => v) Prod.mk

section
variable (inRange : List UInt8 → Bool)

def scalar : ByteReader JsonValue := fun bs =>
  if bs.head? = some 110 then expect [110, 117, 108, 108] .null bs
  else if bs.head? = some 116 then expect (Json.bool true) (.bool true) bs
  else if bs.head? = some 102 then expect (Json.bool false) (.bool false) bs
  else if bs.head? = some 34 then (string bs).map fun r => (.string r.1, r.2)
  else (number bs).bind fun r => if inRange r.1 then some (.number r.1, r.2) else none

/-- A value with at most so many arrays and objects open at once. -/
def value : Nat → ByteReader JsonValue
  | 0, bs => scalar inRange bs
  | depth + 1, bs =>
    if bs.head? = some 91 then (items (value depth) 93 bs.tail).map fun r => (.array r.1, r.2)
    else if bs.head? = some 123 then
      (items (member (value depth)) 125 bs.tail).map fun r => (.object r.1, r.2)
    else scalar inRange bs

/-- `serde_json::from_slice`, up to the value that the text is of. -/
def fromSlice (bs : List UInt8) : Option JsonValue := do
  let (v, rest) ← value inRange maxDepth (skipSpace bs)
  if skipSpace rest = [] then some v else none

end

end JsonText
