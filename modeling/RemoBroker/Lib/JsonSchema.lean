import Mathlib.Computability.Language

/-! JSON values and the schemas that describe them.  A schema is the set of the values that are
valid against it.  Each keyword is a schema by itself, which says nothing about values of other
types, and a schema object is the conjunction of its keywords. -/

namespace JsonSchema

inductive Value where
  | null
  | integer (n : Int)
  | string (s : String)
  | array (items : List Value)
  | object (members : List (String × Value))

inductive Kind where
  | null
  | integer
  | string
  | array
  | object
deriving DecidableEq

@[simp] def Value.kind : Value → Kind
  | .null => .null
  | .integer _ => .integer
  | .string _ => .string
  | .array _ => .array
  | .object _ => .object

abbrev Schema := Value → Prop

/-- The keyword `type`. -/
@[simp] def hasType (kinds : List Kind) : Schema := fun v => v.kind ∈ kinds

@[simp] def minimum (n : Int) : Schema
  | .integer m => n ≤ m
  | _ => True

@[simp] def maximum (n : Int) : Schema
  | .integer m => m ≤ n
  | _ => True

/-- The length of a string is its number of characters. -/
@[simp] def maxLength (n : Nat) : Schema
  | .string s => s.length ≤ n
  | _ => True

/-- An anchored pattern, which the whole string has to match. -/
@[simp] def pattern (l : Language Char) : Schema
  | .string s => s.toList ∈ l
  | _ => True

@[simp] def minItems (n : Nat) : Schema
  | .array vs => n ≤ vs.length
  | _ => True

@[simp] def items (schema : Schema) : Schema
  | .array vs => ∀ v ∈ vs, schema v
  | _ => True

@[simp] def required (names : List String) : Schema
  | .object members => ∀ name ∈ names, name ∈ members.map Prod.fst
  | _ => True

@[simp] def properties (schemas : List (String × Schema)) : Schema
  | .object members => ∀ m ∈ members, ∀ p ∈ schemas, p.1 = m.1 → p.2 m.2
  | _ => True

/-- The keyword `additionalProperties` with the value `false`, beside `properties` with these
names. -/
@[simp] def noAdditionalProperties (names : List String) : Schema
  | .object members => ∀ m ∈ members, m.1 ∈ names
  | _ => True

def anyOf (schemas : List Schema) : Schema := fun v => ∃ s ∈ schemas, s v

/-- A schema object with these keywords. -/
def allOf (keywords : List Schema) : Schema := fun v => ∀ s ∈ keywords, s v

variable {s : Schema} {ss : List Schema} {v : Value}

@[simp] theorem allOf_nil : allOf [] v ↔ True := by
  simp [allOf]

@[simp] theorem allOf_cons : allOf (s :: ss) v ↔ s v ∧ allOf ss v := by
  simp [allOf]

@[simp] theorem anyOf_nil : anyOf [] v ↔ False := by
  simp [anyOf]

@[simp] theorem anyOf_cons : anyOf (s :: ss) v ↔ s v ∨ anyOf ss v := by
  simp [anyOf]

end JsonSchema
