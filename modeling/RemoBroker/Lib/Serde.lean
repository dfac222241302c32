import RemoBroker.Lib.JsonText

/-! The JSON values that stand for a variant of an internally tagged enum whose fields are texts, by
the rules of `serde`.  An object has the tag and each field once, among members that are ignored;
an array has the tag and the fields in their order and nothing else.  `fromValue` decides which
variant a value stands for. -/

namespace Serde

/-- The one member of the name: nothing if there is none, and a failure if there are several. -/
def lookup (name : String) (members : List (String × JsonValue)) : Option (Option JsonValue) :=
  match members.filter fun m => m.1 = name with
  | [] => some none
  | [m] => some (some m.2)
  | _ => none

/-- The fields of a struct, in the order of `names`. -/
def slots (names : List String) : JsonValue → Option (List (Option JsonValue))
  | .object members => names.mapM (lookup · members)
  | .array items => if items.length = names.length then some (items.map some) else none
  | _ => none

/-- A field that is a text and has to be there. -/
def text : Option JsonValue → Option String
  | some (.string s) => some s
  | _ => none

/-- The tag, and what is there beside it. -/
def tagged (tag : String) : JsonValue → Option (String × JsonValue)
  | .object members => do
    let name ← text (← lookup tag members)
    some (name, .object (members.filter fun m => m.1 ≠ tag))
  | .array (item :: items) => do
    let name ← text (some item)
    some (name, .array items)
  | _ => none

/-- The variant and its fields; `names` gives the fields of each variant. -/
def variant (tag : String) (names : String → Option (List String)) (v : JsonValue) :
    Option (String × List String) := do
  let (name, rest) ← tagged tag v
  let values ← slots (← names name) rest
  some (name, ← values.mapM text)

/-- The object has one member of the name, with this value. -/
def Only (members : List (String × JsonValue)) (name : String) (v : JsonValue) : Prop :=
  (name, v) ∈ members ∧ (members.map Prod.fst).count name = 1

/-- The values that stand for a variant with these fields. -/
inductive Denotes (tag name : String) (fields : List (String × String)) : JsonValue → Prop where
  | object {members} (tagOnly : Only members tag (.string name))
      (fieldsOnly : ∀ f ∈ fields, Only members f.1 (.string f.2)) :
      Denotes tag name fields (.object members)
  | array : Denotes tag name fields (.array (.string name :: fields.map fun f => .string f.2))

/-- An internally tagged enum whose fields are texts: the fields of each variant, how a value is
made of the fields, and what the name and the fields of a value are. -/
structure TextEnum (α : Type) where
  tag : String
  names : String → Option (List String)
  ofVariant : String → List String → Option α
  name : α → String
  fields : α → List (String × String)
  tag_notMem : ∀ name ns, names name = some ns → tag ∉ ns
  names_name : ∀ a, names (name a) = some ((fields a).map Prod.fst)
  ofVariant_eq_some : ∀ n texts a,
    ofVariant n texts = some a ↔ n = name a ∧ texts = (fields a).map Prod.snd

def TextEnum.fromValue {α : Type} (e : TextEnum α) (v : JsonValue) : Option α := do
  let (name, texts) ← variant e.tag e.names v
  e.ofVariant name texts

variable {tag name s : String} {members : List (String × JsonValue)} {v : JsonValue}
  {names : String → Option (List String)} {texts : List String}

theorem count_eq_length_filter :
    (members.map Prod.fst).count name = (members.filter fun m => m.1 = name).length := by
  rw [List.count, List.countP_map, List.countP_eq_length_filter]
  congr 2

theorem lookup_eq_some : lookup name members = some (some v) ↔ Only members name v := by
  rw [Only, count_eq_length_filter]
  have hmem : (name, v) ∈ members ↔ (name, v) ∈ members.filter fun m => m.1 = name := by simp
  rw [hmem, lookup]
  cases hfilter : members.filter fun m => m.1 = name with
  | nil => simp
  | cons m rest =>
    have hm : m.1 = name := by
      have : m ∈ members.filter fun m => m.1 = name := hfilter ▸ List.mem_cons_self
      simpa using (List.mem_filter.mp this).2
    cases rest with
    | nil =>
      obtain ⟨k, w⟩ := m
      cases hm
      simp [eq_comm]
    | cons m' rest => simp

theorem text_eq_some {x : Option JsonValue} : text x = some s ↔ x = some (.string s) := by
  constructor
  · intro h
    unfold text at h
    split at h
    · cases h
      rfl
    · cases h
  · rintro rfl
    rfl

theorem mapM_text_eq_some {xs : List (Option JsonValue)} :
    xs.mapM text = some texts ↔ xs = texts.map fun s => some (.string s) := by
  induction xs generalizing texts with
  | nil => cases texts <;> simp
  | cons x xs ih => cases texts <;> simp [Option.bind_eq_some_iff, text_eq_some, ih, and_comm]

/-- The members beside the tag are those of the object. -/
theorem lookup_filter (h : name ≠ tag) :
    lookup name (members.filter fun m => m.1 ≠ tag) = lookup name members := by
  have hfilter : (members.filter fun m => m.1 ≠ tag).filter (fun m => m.1 = name) =
      members.filter fun m => m.1 = name := by
    rw [List.filter_filter]
    apply List.filter_congr
    intro m _
    by_cases hm : m.1 = name
    · simp [hm, h]
    · simp [hm]
  rw [lookup, hfilter]
  rfl

theorem mapM_lookup_eq_some {ns : List String} (hlength : ns.length = texts.length) :
    ns.mapM (lookup · members) = some (texts.map fun s => some (.string s)) ↔
      ∀ f ∈ ns.zip texts, Only members f.1 (.string f.2) := by
  induction ns generalizing texts with
  | nil =>
    cases texts with
    | nil => simp
    | cons s texts => cases hlength
  | cons n ns ih =>
    cases texts with
    | nil => cases hlength
    | cons s texts =>
      have hrest := ih (Nat.succ.inj hlength)
      simp only [List.mapM_cons, Option.bind_eq_bind, Option.bind_eq_some_iff, List.map_cons,
        Option.pure_def, Option.some.injEq, List.cons.injEq, List.zip_cons_cons, List.mem_cons,
        forall_eq_or_imp, ← @lookup_eq_some n, ← hrest]
      constructor
      · rintro ⟨x, hx, xs, hxs, rfl, rfl⟩
        exact ⟨hx, hxs⟩
      · rintro ⟨hx, hxs⟩
        exact ⟨_, hx, _, hxs, rfl, rfl⟩

theorem length_of_mapM {α β : Type} {f : α → Option β} {xs : List α} {ys : List β}
    (h : xs.mapM f = some ys) : xs.length = ys.length := by
  induction xs generalizing ys with
  | nil =>
    cases h
    rfl
  | cons x xs ih =>
    simp only [List.mapM_cons, Option.bind_eq_bind, Option.bind_eq_some_iff, Option.pure_def,
      Option.some.injEq] at h
    obtain ⟨y, -, ys, hys, rfl⟩ := h
    rw [List.length_cons, List.length_cons, ih hys]

theorem length_slots {ns : List String} {xs : List (Option JsonValue)}
    (h : slots ns v = some xs) : ns.length = xs.length := by
  cases v with
  | object members => exact length_of_mapM h
  | array items =>
    simp only [slots, Option.ite_none_right_eq_some, Option.some.injEq] at h
    obtain ⟨hlength, rfl⟩ := h
    simpa using hlength.symm
  | _ => cases h

theorem slots_object {ns : List String} (hlength : ns.length = texts.length) (htag : tag ∉ ns) :
    slots ns (.object (members.filter fun m => m.1 ≠ tag)) =
        some (texts.map fun s => some (.string s)) ↔
      ∀ f ∈ ns.zip texts, Only members f.1 (.string f.2) := by
  rw [slots, mapM_lookup_eq_some hlength]
  refine forall_congr' fun f => forall_congr' fun hf => ?_
  have hne : f.1 ≠ tag := fun heq => htag (heq ▸ (List.of_mem_zip hf).1)
  rw [← lookup_eq_some, lookup_filter hne, lookup_eq_some]

theorem slots_array {ns : List String} {items : List JsonValue}
    (hlength : ns.length = texts.length) :
    slots ns (.array items) = some (texts.map fun s => some (.string s)) ↔
      items = (ns.zip texts).map fun f => .string f.2 := by
  have htexts : (ns.zip texts).map (fun f => JsonValue.string f.2) = texts.map .string := by
    conv_rhs => rw [← List.map_snd_zip hlength.ge, List.map_map]
    rfl
  rw [htexts, slots, Option.ite_none_right_eq_some, Option.some.injEq]
  constructor
  · rintro ⟨-, heq⟩
    apply List.map_injective_iff.mpr (fun _ _ => Option.some.inj)
    rw [heq, List.map_map]
    rfl
  · rintro rfl
    simp [hlength]

/-- A value is taken for a variant exactly if it stands for it. -/
theorem variant_eq_some (htag : ∀ ns, names name = some ns → tag ∉ ns) :
    variant tag names v = some (name, texts) ↔
      ∃ ns, names name = some ns ∧ ns.length = texts.length ∧
        Denotes tag name (ns.zip texts) v := by
  have hvariant : variant tag names v = some (name, texts) ↔ ∃ rest ns,
      tagged tag v = some (name, rest) ∧ names name = some ns ∧ ns.length = texts.length ∧
        slots ns rest = some (texts.map fun s => some (.string s)) := by
    simp only [variant, Option.bind_eq_bind, Option.bind_eq_some_iff, Prod.exists,
      mapM_text_eq_some, Option.some.injEq, Prod.mk.injEq]
    constructor
    · rintro ⟨_, rest, htagged, ns, hns, xs, hxs, _, rfl, rfl, rfl⟩
      exact ⟨rest, ns, htagged, hns, by simpa using length_slots hxs, hxs⟩
    · rintro ⟨rest, ns, htagged, hns, -, hslots⟩
      exact ⟨name, rest, htagged, ns, hns, _, hslots, texts, rfl, rfl, rfl⟩
  rw [hvariant]
  constructor
  · rintro ⟨rest, ns, htagged, hns, hlength, hslots⟩
    refine ⟨ns, hns, hlength, ?_⟩
    match v with
    | .object members =>
      simp only [tagged, Option.bind_eq_bind, Option.bind_eq_some_iff, text_eq_some,
        Option.some.injEq, Prod.mk.injEq] at htagged
      obtain ⟨x, hlookup, _, rfl, rfl, rfl⟩ := htagged
      exact .object (lookup_eq_some.mp hlookup) ((slots_object hlength (htag ns hns)).mp hslots)
    | .array (item :: items) =>
      simp only [tagged, Option.bind_eq_bind, Option.bind_eq_some_iff, text_eq_some,
        Option.some.injEq, Prod.mk.injEq] at htagged
      obtain ⟨_, rfl, rfl, rfl⟩ := htagged
      rw [(slots_array hlength).mp hslots]
      exact .array
  · rintro ⟨ns, hns, hlength, hdenotes⟩
    cases hdenotes with
    | object htagOnly hfields =>
      refine ⟨_, ns, ?_, hns, hlength, (slots_object hlength (htag ns hns)).mpr hfields⟩
      simp [tagged, lookup_eq_some.mpr htagOnly, text]
    | array => exact ⟨_, ns, rfl, hns, hlength, (slots_array hlength).mpr rfl⟩

theorem TextEnum.fromValue_eq_some {α : Type} {e : TextEnum α} {a : α} :
    e.fromValue v = some a ↔ Denotes e.tag (e.name a) (e.fields a) v := by
  have hzip : ((e.fields a).map Prod.fst).zip ((e.fields a).map Prod.snd) = e.fields a := by
    rw [List.zip_map']
    simp
  simp only [fromValue, Option.bind_eq_bind, Option.bind_eq_some_iff, Prod.exists,
    e.ofVariant_eq_some, variant_eq_some (e.tag_notMem _)]
  constructor
  · rintro ⟨_, _, ⟨ns, hns, -, hdenotes⟩, rfl, rfl⟩
    rw [e.names_name] at hns
    cases hns
    rwa [hzip] at hdenotes
  · intro h
    exact ⟨_, _, ⟨_, e.names_name a, by simp, by rwa [hzip]⟩, rfl, rfl⟩

end Serde
