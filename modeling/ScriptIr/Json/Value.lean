import ScriptIr.Json.Document

/-!
# Values

A value is a document all of whose numbers are in range and all of whose texts are well formed, and
which is nested no deeper than `maxDepth`. Where a reader knows which members of a record it wants,
it says so by an outline; what the outline leaves out is not looked at, and may break these rules.
-/
namespace ScriptIr.Json

inductive Value where
  | null
  | bool (b : Bool)
  | number (n : Number)
  | text (s : String)
  | list (items : List Value)
  /-- Members in the order in which they are written. -/
  | record (members : List (String × Value))
  deriving Inhabited

def maxDepth : Nat := 127

/-- Which parts of a document are wanted. -/
inductive Outline where
  /-- Everything. -/
  | whole
  /-- The named members of a record, which may also be written as a list in this order. -/
  | members (fields : List (String × Outline))
  | items (item : Outline)
  deriving Inhabited

namespace Document

def value? : (depth : Nat) → Document → Option Value
  | _, null => some .null
  | _, bool b => some (.bool b)
  | _, number n => n.map .number
  | _, text s => s.map .text
  | 0, list _ => none
  | depth + 1, list items => (items.mapM (value? depth)).map .list
  | 0, record _ => none
  | depth + 1, record members =>
    (members.mapM fun (m : Option String × Document) => do
      return (← m.1, ← value? depth m.2)).map .record

end Document

namespace Outline

def field? (fields : List (String × Outline)) (name : String) : Option Outline :=
  (fields.find? fun f => f.1 == name).map (·.2)

/-- The outline of the item at a position of a list that stands for a record. -/
def fieldAt (fields : List (String × Outline)) (index : Nat) : Outline :=
  (fields[index]?.map (·.2)).getD .whole

/-- The wanted parts of a document that may be nested `depth` deep. Every name of a record is looked
at, whether the member is wanted or not. -/
def read? : (depth : Nat) → Outline → Document → Option Value
  | depth + 1, members fields, .record ms => do
    let wanted ← ms.mapM fun (m : Option String × Document) => do
      let name ← m.1
      match field? fields name with
      | some o => return some (name, ← read? depth o m.2)
      | none => return none
    return .record (wanted.filterMap id)
  | depth + 1, members fields, .list ds => do
    let vs ← ds.zipIdx.mapM fun (d : Document × Nat) => read? depth (fieldAt fields d.2) d.1
    return .list vs
  | depth + 1, items item, .list ds => return .list (← ds.mapM (read? depth item))
  | depth, _, d => d.value? depth

end Outline

def Value.read? (outline : Outline) (text : String) : Option Value := do
  Outline.read? maxDepth outline (← Document.parse? text)

end ScriptIr.Json
