import RemoBroker.Lib.JsonText.Render
import RemoBroker.Lib.Serde
import RemoBroker.Wire

/-! The requests of the two sockets, `src/proto/project.rs` and `src/proto/admin.rs`, and the bytes
that state them.  `serde_json::from_slice` is a parameter of what follows, with the one assumption
that it takes exactly these bytes for a request. -/

namespace RemoBroker

open JsonText (NumberFormat IsText)

/-- The kebab-case name of the variant. -/
def ProjectRequest.op : ProjectRequest → String
  | .get _ => "get"
  | .ping => "ping"
  | .info => "info"

def ProjectRequest.fields : ProjectRequest → List (String × String)
  | .get name => [("name", name)]
  | .ping => []
  | .info => []

def AdminRequest.op : AdminRequest → String
  | .register _ _ => "register"
  | .unregister _ => "unregister"
  | .reload _ => "reload"
  | .status => "status"
  | .rotateBootstrap => "rotate-bootstrap"

def AdminRequest.fields : AdminRequest → List (String × String)
  | .register name projectPath => [("name", name), ("project_path", projectPath)]
  | .unregister name => [("name", name)]
  | .reload name => [("name", name)]
  | .status => []
  | .rotateBootstrap => []

def ProjectRequest.fieldNames (op : String) : Option (List String) :=
  if op = "get" then some ["name"]
  else if op = "ping" then some []
  else if op = "info" then some []
  else none

def AdminRequest.fieldNames (op : String) : Option (List String) :=
  if op = "register" then some ["name", "project_path"]
  else if op = "unregister" then some ["name"]
  else if op = "reload" then some ["name"]
  else if op = "status" then some []
  else if op = "rotate-bootstrap" then some []
  else none

def ProjectRequest.ofVariant (op : String) : List String → Option ProjectRequest
  | [name] => if op = "get" then some (.get name) else none
  | [] => if op = "ping" then some .ping else if op = "info" then some .info else none
  | _ => none

def AdminRequest.ofVariant (op : String) : List String → Option AdminRequest
  | [name, projectPath] => if op = "register" then some (.register name projectPath) else none
  | [name] =>
    if op = "unregister" then some (.unregister name)
    else if op = "reload" then some (.reload name)
    else none
  | [] =>
    if op = "status" then some .status
    else if op = "rotate-bootstrap" then some .rotateBootstrap
    else none
  | _ => none

/-- `#[serde(tag = "op", rename_all = "kebab-case")]` on `ProjectRequest`. -/
def ProjectRequest.serde : Serde.TextEnum ProjectRequest where
  tag := "op"
  names := fieldNames
  ofVariant := ofVariant
  name := op
  fields := fields
  tag_notMem op ns h := by
    unfold fieldNames at h
    split_ifs at h <;> cases h <;> decide
  names_name r := by
    cases r <;> rfl
  ofVariant_eq_some op texts r := by
    constructor
    · intro h
      match texts with
      | [name] =>
        simp only [ofVariant] at h
        split_ifs at h with hop
        cases h
        exact ⟨hop, rfl⟩
      | [] =>
        simp only [ofVariant] at h
        split_ifs at h with hop hop
        all_goals
          cases h
          exact ⟨hop, rfl⟩
    · rintro ⟨rfl, rfl⟩
      cases r <;> rfl

def AdminRequest.serde : Serde.TextEnum AdminRequest where
  tag := "op"
  names := fieldNames
  ofVariant := ofVariant
  name := op
  fields := fields
  tag_notMem op ns h := by
    unfold fieldNames at h
    split_ifs at h <;> cases h <;> decide
  names_name r := by
    cases r <;> rfl
  ofVariant_eq_some op texts r := by
    constructor
    · intro h
      match texts with
      | [name, projectPath] =>
        simp only [ofVariant] at h
        split_ifs at h with hop
        cases h
        exact ⟨hop, rfl⟩
      | [name] =>
        simp only [ofVariant] at h
        split_ifs at h with hop hop
        all_goals
          cases h
          exact ⟨hop, rfl⟩
      | [] =>
        simp only [ofVariant] at h
        split_ifs at h with hop hop
        all_goals
          cases h
          exact ⟨hop, rfl⟩
    · rintro ⟨rfl, rfl⟩
      cases r <;> rfl

/-- The bytes are a JSON text of the request: an object with the tag and the fields, each once,
among other members, or an array of the tag and the fields. -/
def Says {Request : Type} (serde : Serde.TextEnum Request) (numbers : NumberFormat)
    (line : List UInt8) (request : Request) : Prop :=
  ∃ v, IsText numbers.inRange line v ∧
    Serde.Denotes serde.tag (serde.name request) (serde.fields request) v

/-- What is assumed of `serde_json::from_slice` at a request type: it gives the request that the
bytes state, and an error, whose text is its own, if they state none. -/
def Parses {Request : Type} (serde : Serde.TextEnum Request) (numbers : NumberFormat)
    (parse : List UInt8 → Except String Request) : Prop :=
  ∀ line request, parse line = .ok request ↔ Says serde numbers line request

/-- A parser of which this holds; `errorText` is the text of its errors. -/
def parseLine {Request : Type} (serde : Serde.TextEnum Request) (numbers : NumberFormat)
    (errorText : List UInt8 → String) (line : List UInt8) : Except String Request :=
  match (JsonText.fromSlice numbers.inRange line).bind serde.fromValue with
  | some request => .ok request
  | none => .error (errorText line)

section
variable {Request : Type} {serde : Serde.TextEnum Request} {numbers : NumberFormat}
  {line : List UInt8} {request : Request}

theorem parses_parseLine {errorText : List UInt8 → String} :
    Parses serde numbers (parseLine serde numbers errorText) := by
  intro line request
  have hread : (JsonText.fromSlice numbers.inRange line).bind serde.fromValue = some request ↔
      Says serde numbers line request := by
    simp only [Option.bind_eq_some_iff, JsonText.fromSlice_eq_some,
      Serde.TextEnum.fromValue_eq_some]
    rfl
  rw [← hread, parseLine]
  cases (JsonText.fromSlice numbers.inRange line).bind serde.fromValue <;> simp

end

end RemoBroker
