import MediaGraph.Json.Value

/-! Reading records: objects, or arrays of the fields in their order.
Fields of other names are passed over, a repeated field is refused, and in an
array fields may be missing only at the end. -/
namespace MediaGraph.Json

abbrev Fields (α : Type) := List (String × α)

def wantedMembers {α : Type} (names : List String) (members : List (String × α)) :
    Except Fault (Fields α) := do
  let wanted := members.filter fun m => names.contains m.1
  match names.find? fun name => 1 < (wanted.filter fun m => m.1 == name).length with
  | some name => .error (.repeated name)
  | none => .ok wanted

/-- The items stand for the wanted names one by one. -/
def wantedItems {α : Type} (names : List String) (items : List α) : Except Fault (Fields α) :=
  if items.length ≤ names.length then .ok (names.zip items) else .error .surplus

def Tree.fields (names : List String) : Tree → Except Fault (Fields Tree)
  | .object members => do
    let named ← members.mapM fun m => do return (← textOf m.1, m.2)
    wantedMembers names named
  | .array items => wantedItems names items
  | _ => .error (.unexpected "a record")

def fields (names : List String) : Json → Except Fault (Fields Json)
  | .object members => wantedMembers names members
  | .array items => wantedItems names items
  | _ => .error (.unexpected "a record")

def objectFields (names : List String) : Json → Except Fault (Fields Json)
  | .object members => wantedMembers names members
  | _ => .error (.unexpected "an object")

def Fields.need {α β : Type} (found : Fields α) (name : String) (read : α → Except Fault β) :
    Except Fault β :=
  match found.lookup name with
  | some v => read v
  | none => .error (.missing name)

def Fields.get {α β : Type} (found : Fields α) (name : String) (other : β)
    (read : α → Except Fault β) : Except Fault β :=
  match found.lookup name with
  | some v => read v
  | none => .ok other

def Tree.asText : Tree → Except Fault String
  | .text pieces => textOf pieces
  | _ => .error (.unexpected "a text")

def Tree.asBool : Tree → Except Fault Bool
  | .bool b => .ok b
  | _ => .error (.unexpected "a truth value")

def Tree.asList {α : Type} (read : Tree → Except Fault α) : Tree → Except Fault (List α)
  | .array items => items.mapM read
  | _ => .error (.unexpected "a list")

def asText : Json → Except Fault String
  | .text s => .ok s
  | _ => .error (.unexpected "a text")

def asList {α : Type} (read : Json → Except Fault α) : Json → Except Fault (List α)
  | .array items => items.mapM read
  | _ => .error (.unexpected "a list")

/-- An optional value, which null leaves out. -/
def asOptional {α : Type} (read : Json → Except Fault α) : Json → Except Fault (Option α)
  | .null => .ok none
  | v => (read v).map some

end MediaGraph.Json
