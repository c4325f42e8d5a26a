/-!
# Source locations

A node of a syntax tree may carry the range of source text it came from. Messages show where the
range starts.
-/
namespace ScriptIr

/-- A point in the source: a line counted from one and a column counted from zero. -/
structure Position where
  line : UInt32
  column : UInt32
  deriving DecidableEq, Repr, Inhabited

/-- A range of source text, with the name of its file when that was recorded. -/
structure Location where
  start : Position
  stop : Position
  source : Option String
  deriving DecidableEq, Repr, Inhabited

namespace Location

/-- The start of the range as `line:column`, after the file's name if there is one. -/
def display (l : Location) : String :=
  let point := toString l.start.line.toNat ++ ":" ++ toString l.start.column.toNat
  match l.source with
  | some source => source ++ ":" ++ point
  | none => point

end Location

end ScriptIr
