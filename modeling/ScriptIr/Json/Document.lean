import ScriptIr.Json.Token

/-!
# Documents

A document is one value written down by the grammar. The reader keeps the containers that are still
open in a list, so a document may be nested to any depth.
-/
namespace ScriptIr.Json

inductive Document where
  | null
  | bool (b : Bool)
  /-- A number, `none` when it is out of range. -/
  | number (n : Option Number)
  /-- A text, `none` when half of a surrogate pair stands alone in it. -/
  | text (s : Option String)
  | list (items : List Document)
  /-- Members in the order in which they are written. -/
  | record (members : List (Option String × Document))
  deriving Inhabited

namespace Document

/-- A container that is still open, its contents last first. -/
inductive Frame where
  | list (items : List Document)
  | record (members : List (Option String × Document))
  | member (members : List (Option String × Document)) (name : Option String)
  deriving Inhabited

inductive Expected where
  | value
  /-- A value, or the end of the list that was just opened. -/
  | firstItem
  | name
  /-- The name of a member, or the end of the record that was just opened. -/
  | firstName
  /-- The colon after a name. -/
  | colon
  /-- What follows the value that was just completed. -/
  | after (done : Document)
  deriving Inhabited

/-- The reader's state: the open containers, innermost first, and what may come next. -/
structure State where
  frames : List Frame := []
  expected : Expected := .value
  deriving Inhabited

def stepValue (frames : List Frame) : Token → Option State
  | .null => some { frames, expected := .after .null }
  | .bool b => some { frames, expected := .after (.bool b) }
  | .number n => some { frames, expected := .after (.number n) }
  | .text s => some { frames, expected := .after (.text s) }
  | .openList => some { frames := .list [] :: frames, expected := .firstItem }
  | .openRecord => some { frames := .record [] :: frames, expected := .firstName }
  | _ => none

def stepName : List Frame → Token → Option State
  | .record members :: frames, .text name =>
    some { frames := .member members name :: frames, expected := .colon }
  | _, _ => none

def stepAfter (done : Document) : List Frame → Token → Option State
  | .list items :: frames, .comma => some { frames := .list (done :: items) :: frames }
  | .list items :: frames, .closeList =>
    some { frames, expected := .after (.list (done :: items).reverse) }
  | .member members name :: frames, .comma =>
    some { frames := .record ((name, done) :: members) :: frames, expected := .name }
  | .member members name :: frames, .closeRecord =>
    some { frames, expected := .after (.record ((name, done) :: members).reverse) }
  | _, _ => none

def step (s : State) (t : Token) : Option State :=
  match s.expected, t with
  | .value, t => stepValue s.frames t
  | .firstItem, .closeList => some { frames := s.frames.tail, expected := .after (.list []) }
  | .firstItem, t => stepValue s.frames t
  | .firstName, .closeRecord => some { frames := s.frames.tail, expected := .after (.record []) }
  | .firstName, t => stepName s.frames t
  | .name, t => stepName s.frames t
  | .colon, .colon => some { s with expected := .value }
  | .colon, _ => none
  | .after done, t => stepAfter done s.frames t

def finish : State → Option Document
  | { frames := [], expected := .after done } => some done
  | _ => none

def ofTokens? (tokens : List Token) : Option Document := do
  finish (← tokens.foldlM step {})

def parse? (text : String) : Option Document := do
  ofTokens? (← Token.scan? text)

end Document

end ScriptIr.Json
