import ScriptIr.Json.Value

/-!
# Shapes of values

How the parts of a typed tree are written as values. A record is written with its members in any
order or as a list in the order of its fields. A node is a record or a list that starts with a tag.
A choice is written by its name.
-/
namespace ScriptIr.Json

namespace Value

def bool? : Value → Option Bool
  | bool b => some b
  | _ => none

def text? : Value → Option String
  | text s => some s
  | _ => none

/-- A whole number below `2 ^ 32`. -/
def word? : Value → Option UInt32
  | number (.natural n) => if n < Nat.pow 2 32 then some n.toUInt32 else none
  | _ => none

def listOf? (item : Value → Option α) : Value → Option (List α)
  | list items => items.mapM item
  | _ => none

def nullable? (item : Value → Option α) : Value → Option (Option α)
  | null => some none
  | v => (item v).map some

end Value

abbrev Fields := List (String × Value)

namespace Fields

/-- Whether a name occurs twice. -/
def repeats : Fields → Bool
  | [] => false
  | (name, _) :: rest => rest.any (fun f => f.1 == name) || repeats rest

/-- The named fields of a record. Other members are passed over; a field may not be repeated, and a
list may not be longer than the record. -/
def of? (names : List String) : Value → Option Fields
  | .record members =>
    let fields : Fields := members.filter fun m => names.contains m.1
    if fields.repeats then none else some fields
  | .list items => if items.length ≤ names.length then some (names.zip items) else none
  | _ => none

def find? (fields : Fields) (name : String) : Option Value :=
  (List.find? (fun f => f.1 == name) fields).map (·.2)

def required (fields : Fields) (name : String) (shape : Value → Option α) : Option α := do
  shape (← fields.find? name)

def withDefault (fields : Fields) (name : String) (shape : Value → Option α) (default : α) :
    Option α :=
  match fields.find? name with
  | some v => shape v
  | none => some default

/-- A field that may be missing or null. -/
def optional (fields : Fields) (name : String) (shape : Value → Option α) : Option (Option α) :=
  fields.withDefault name (Value.nullable? shape) none

def flag (fields : Fields) (name : String) : Option Bool := fields.withDefault name Value.bool? false

end Fields

/-- The tag that a value names. Inside another node a tag may be given by its position. -/
def tag? (inner : Bool) (tags : List String) : Value → Option String
  | .text s => if tags.contains s then some s else none
  | .number (.natural n) => if inner then tags[n]? else none
  | _ => none

/-- The tag of a node, and the node without it. -/
def tagged? (inner : Bool) (tags : List String) : Value → Option (String × Value)
  | .record members =>
    match members.filter fun m => m.1 == "type" with
    | [(_, t)] => do
      return (← tag? inner tags t, .record (members.filter fun m => m.1 != "type"))
    | _ => none
  | .list (t :: items) => do return (← tag? inner tags t, .list items)
  | _ => none

/-- One of several names. A name may stand alone or as the only member of a record, with nothing in
it; an empty record counts as nothing where `lenient` says so. -/
def choice? (lenient : Bool) (names : List (String × α)) (v : Value) : Option α :=
  let named (s : String) : Option α := (names.find? fun n => n.1 == s).map (·.2)
  match v with
  | .text s => named s
  | .record [(s, .null)] => named s
  | .record [(s, .record [])] => if lenient then named s else none
  | _ => none

end ScriptIr.Json
