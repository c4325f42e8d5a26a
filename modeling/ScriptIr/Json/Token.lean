import ScriptIr.Json.Number
import ScriptIr.Text.Quoted

/-!
# Tokens of a document

The text of a document is read one character at a time into tokens. A text token keeps its place
even if an escape in it names half of a surrogate pair, and so does a number that is out of range:
whether that matters depends on where the token stands.
-/
namespace ScriptIr.Json

inductive Token where
  | openRecord
  | closeRecord
  | openList
  | closeList
  | comma
  | colon
  | null
  | bool (b : Bool)
  /-- A number, `none` when it is out of range. -/
  | number (n : Option Number)
  /-- A text, `none` when half of a surrogate pair stands alone in it. -/
  | text (s : Option String)
  deriving DecidableEq, Repr, Inhabited

inductive Piece where
  | char (c : Char)
  | half (code : Nat)
  deriving DecidableEq, Repr, Inhabited

namespace Piece

def ofCode (code : Nat) : Piece :=
  if 0xD800 ≤ code && code < 0xE000 then half code else char (Char.ofNat code)

/-- The characters of the pieces; the two halves of a pair stand next to each other. -/
def chars? : List Piece → Option (List Char)
  | [] => some []
  | char c :: rest => (chars? rest).map (c :: ·)
  | half high :: half low :: rest =>
    if high < 0xDC00 && 0xDC00 ≤ low then
      let c := Char.ofNat (0x10000 + (high - 0xD800) * 0x400 + (low - 0xDC00))
      (chars? rest).map (c :: ·)
    else none
  | half _ :: _ => none

def text? (pieces : List Piece) : Option String := (chars? pieces).map String.ofList

end Piece

namespace Scanner

/-- Where in a token the scanner is. Characters and pieces are collected last first. -/
inductive Mode where
  | between
  /-- In a word or a number. -/
  | bare (chars : List Char)
  | quoted (pieces : List Piece)
  /-- After a backslash. -/
  | escape (pieces : List Piece)
  /-- In the four digits of an escaped code, of which some are still to come. -/
  | code (pieces : List Piece) (value missing : Nat)
  deriving Inhabited

/-- The scanner's state: the mode, and the tokens so far, last first. -/
structure State where
  mode : Mode := .between
  tokens : List Token := []
  deriving Inhabited

def isBlank (c : Char) : Bool := c = ' ' || c = '\t' || c = '\n' || c = '\r'

/-- A character of words and numbers. -/
def isBare (c : Char) : Bool := c.isAlphanum || c = '-' || c = '+' || c = '.'

def bareToken? (chars : List Char) : Option Token :=
  match String.ofList chars with
  | "null" => some .null
  | "true" => some (.bool true)
  | "false" => some (.bool false)
  | _ => (Numeral.parse? chars).map fun n => .number n.value?

def shortEscape? : Char → Option Char
  | '"' => some '"'
  | '\\' => some '\\'
  | '/' => some '/'
  | 'b' => some '\x08'
  | 'f' => some '\x0c'
  | 'n' => some '\n'
  | 'r' => some '\r'
  | 't' => some '\t'
  | _ => none

def punctuation? : Char → Option Token
  | '\x7b' => some .openRecord
  | '\x7d' => some .closeRecord
  | '[' => some .openList
  | ']' => some .closeList
  | ',' => some .comma
  | ':' => some .colon
  | _ => none

def stepBetween (tokens : List Token) (c : Char) : Option State :=
  if isBlank c then some { tokens }
  else if isBare c then some { mode := .bare [c], tokens }
  else if c = '"' then some { mode := .quoted [], tokens }
  else (punctuation? c).map fun t => { tokens := t :: tokens }

def step (s : State) (c : Char) : Option State :=
  match s.mode with
  | .between => stepBetween s.tokens c
  | .bare chars =>
    if isBare c then some { s with mode := .bare (c :: chars) }
    else do
      let t ← bareToken? chars.reverse
      stepBetween (t :: s.tokens) c
  | .quoted pieces =>
    if c = '"' then some { tokens := .text (Piece.text? pieces.reverse) :: s.tokens }
    else if c = '\\' then some { s with mode := .escape pieces }
    else if c < ' ' then none
    else some { s with mode := .quoted (.char c :: pieces) }
  | .escape pieces =>
    if c = 'u' then some { s with mode := .code pieces 0 4 }
    else (shortEscape? c).map fun c => { s with mode := .quoted (.char c :: pieces) }
  | .code pieces value missing => do
    let d ← Text.hexDigit? c
    let value := value * 16 + d
    if missing ≤ 1 then some { s with mode := .quoted (Piece.ofCode value :: pieces) }
    else some { s with mode := .code pieces value (missing - 1) }

def finish (s : State) : Option (List Token) :=
  match s.mode with
  | .between => some s.tokens
  | .bare chars => (bareToken? chars.reverse).map (· :: s.tokens)
  | _ => none

end Scanner

def Token.scan? (text : String) : Option (List Token) := do
  let s ← text.toList.foldlM Scanner.step {}
  return (← Scanner.finish s).reverse

end ScriptIr.Json
