import ScriptIr.Text.Quoted

/-!
# Settings files

A settings file holds lines of the form `key = value`, in the subset of TOML that plain settings
need: bare and quoted keys; texts, whole numbers and truth values; comments. Tables, lists and other
values are not read.
-/
namespace ScriptIr.Toml

inductive Value where
  | text (s : String)
  | integer (n : Int)
  | boolean (b : Bool)
  deriving DecidableEq, Repr, Inhabited

def isBlank (c : Char) : Bool := c = ' ' || c = '\t'

/-- A character that may stand in a text or a comment: no control character but the tab. -/
def isPlain (c : Char) : Bool := c = '\t' || (' ' ≤ c && c ≠ '\x7f')

def newline? : List Char → Option (List Char)
  | '\n' :: cs => some cs
  | '\r' :: '\n' :: cs => some cs
  | _ => none

def skipComment : List Char → List Char
  | '#' :: cs => cs.dropWhile isPlain
  | cs => cs

/-- What follows the rest of a line, in which only a comment may stand. -/
def lineEnd? (cs : List Char) : Option (List Char) :=
  match skipComment (cs.dropWhile isBlank) with
  | [] => some []
  | cs => newline? cs

/-! ## Texts -/

def codeChar? (digits : List Char) : Option Char := do
  let n := (← digits.mapM Text.hexDigit?).foldl (fun n d => n * 16 + d) 0
  if n < 0xD800 || (0xE000 ≤ n && n < 0x110000) then some (Char.ofNat n) else none

def shortEscape? : Char → Option Char
  | 'b' => some '\x08'
  | 't' => some '\t'
  | 'n' => some '\n'
  | 'f' => some '\x0c'
  | 'r' => some '\r'
  | '"' => some '"'
  | '\\' => some '\\'
  | _ => none

/-- Puts a character before a text that was read. -/
def before (c : Option Char) (r : Option (List Char × List Char)) :
    Option (List Char × List Char) := do
  let c ← c
  let (text, rest) ← r
  return (c :: text, rest)

def basic? : List Char → Option (List Char × List Char)
  | [] => none
  | '"' :: cs => some ([], cs)
  | '\\' :: 'u' :: a :: b :: c :: d :: cs => before (codeChar? [a, b, c, d]) (basic? cs)
  | '\\' :: 'U' :: a :: b :: c :: d :: e :: f :: g :: h :: cs =>
    before (codeChar? [a, b, c, d, e, f, g, h]) (basic? cs)
  | '\\' :: c :: cs => before (shortEscape? c) (basic? cs)
  | c :: cs => if isPlain c && c ≠ '\\' then before (some c) (basic? cs) else none

/-- A text in single quotes, after the first quote. It has no escapes. -/
def literal? : List Char → Option (List Char × List Char)
  | [] => none
  | '\'' :: cs => some ([], cs)
  | c :: cs => if isPlain c then before (some c) (literal? cs) else none

/-- What a backslash before a line break has left out so far. -/
inductive Skipping where
  | nothing
  /-- Blanks before the line break, which has to come. -/
  | blanks
  /-- Blanks and line breaks after it. -/
  | lines
  deriving DecidableEq, Repr, Inhabited

/-- A text in three double quotes, after them. It may hold line breaks, and ends with three to five
quotes, of which the last three close it. -/
def multiBasic? : Skipping → List Char → Option (List Char × List Char)
  | _, [] => none
  | s, ' ' :: cs =>
    if s = .nothing then before (some ' ') (multiBasic? s cs) else multiBasic? s cs
  | s, '\t' :: cs =>
    if s = .nothing then before (some '\t') (multiBasic? s cs) else multiBasic? s cs
  | s, '\n' :: cs =>
    if s = .nothing then before (some '\n') (multiBasic? s cs) else multiBasic? .lines cs
  | s, '\r' :: '\n' :: cs =>
    if s = .nothing then before (some '\n') (multiBasic? s cs) else multiBasic? .lines cs
  | .blanks, _ :: _ => none
  | _, '"' :: '"' :: '"' :: '"' :: '"' :: cs => some (['"', '"'], cs)
  | _, '"' :: '"' :: '"' :: '"' :: cs => some (['"'], cs)
  | _, '"' :: '"' :: '"' :: cs => some ([], cs)
  | _, '\\' :: 'u' :: a :: b :: c :: d :: cs =>
    before (codeChar? [a, b, c, d]) (multiBasic? .nothing cs)
  | _, '\\' :: 'U' :: a :: b :: c :: d :: e :: f :: g :: h :: cs =>
    before (codeChar? [a, b, c, d, e, f, g, h]) (multiBasic? .nothing cs)
  | _, '\\' :: '\n' :: cs => multiBasic? .lines cs
  | _, '\\' :: '\r' :: '\n' :: cs => multiBasic? .lines cs
  | _, '\\' :: c :: cs =>
    if isBlank c then multiBasic? .blanks cs
    else before (shortEscape? c) (multiBasic? .nothing cs)
  | _, c :: cs =>
    if isPlain c && c ≠ '\\' then before (some c) (multiBasic? .nothing cs) else none

def multiLiteral? : List Char → Option (List Char × List Char)
  | [] => none
  | '\'' :: '\'' :: '\'' :: '\'' :: '\'' :: cs => some (['\'', '\''], cs)
  | '\'' :: '\'' :: '\'' :: '\'' :: cs => some (['\''], cs)
  | '\'' :: '\'' :: '\'' :: cs => some ([], cs)
  | '\r' :: '\n' :: cs => before (some '\n') (multiLiteral? cs)
  | c :: cs => if isPlain c || c = '\n' then before (some c) (multiLiteral? cs) else none

/-- A line break right after the opening quotes is not part of the text. -/
def skipFirstBreak (cs : List Char) : List Char := (newline? cs).getD cs

/-! ## Numbers -/

/-- The number that a run of digits stands for. A low line may stand between two digits. -/
def digits? (base : Nat) : List Char → Option Nat
  | [] => none
  | c :: cs => do
    let rec go : Nat → List Char → Option Nat
      | n, [] => some n
      | n, '_' :: c :: cs => do
        let d ← (Text.hexDigit? c).filter (· < base)
        go (n * base + d) cs
      | n, c :: cs => do
        let d ← (Text.hexDigit? c).filter (· < base)
        go (n * base + d) cs
    go (← (Text.hexDigit? c).filter (· < base)) cs

/-- A decimal number: it starts with a zero only if it is zero. -/
def decimal? (cs : List Char) : Option Nat :=
  if cs.head? == some '0' && cs.length ≠ 1 then none else digits? 10 cs

def inRange? (n : Int) : Option Int := if -Int.pow 2 63 ≤ n && n < Int.pow 2 63 then some n else none

/-- A whole number in any of its spellings. -/
def integer? (cs : List Char) : Option Int := do
  let n : Int ← match cs with
    | '0' :: 'x' :: cs => (digits? 16 cs).map Int.ofNat
    | '0' :: 'o' :: cs => (digits? 8 cs).map Int.ofNat
    | '0' :: 'b' :: cs => (digits? 2 cs).map Int.ofNat
    | '+' :: cs => (decimal? cs).map Int.ofNat
    | '-' :: cs => (decimal? cs).map fun n => -(n : Int)
    | cs => (decimal? cs).map Int.ofNat
  inRange? n

/-- A character of a value without quotes. -/
def isWord (c : Char) : Bool := c.isAlphanum || c = '_' || c = '+' || c = '-'

/-! ## Lines -/

def value? (cs : List Char) : Option (Value × List Char) :=
  let asText (r : Option (List Char × List Char)) : Option (Value × List Char) :=
    r.map fun (s, rest) => (.text (String.ofList s), rest)
  match cs with
  | '"' :: '"' :: '"' :: cs => asText (multiBasic? .nothing (skipFirstBreak cs))
  | '"' :: cs => asText (basic? cs)
  | '\'' :: '\'' :: '\'' :: cs => asText (multiLiteral? (skipFirstBreak cs))
  | '\'' :: cs => asText (literal? cs)
  | cs =>
    let word := cs.takeWhile isWord
    let rest := cs.dropWhile isWord
    if word = ['t', 'r', 'u', 'e'] then some (.boolean true, rest)
    else if word = ['f', 'a', 'l', 's', 'e'] then some (.boolean false, rest)
    else (integer? word).map fun n => (.integer n, rest)

def isKey (c : Char) : Bool := c.isAlphanum || c = '_' || c = '-'

def key? : List Char → Option (List Char × List Char)
  | '"' :: cs => basic? cs
  | '\'' :: cs => literal? cs
  | cs => if (cs.takeWhile isKey).isEmpty then none else some (cs.takeWhile isKey, cs.dropWhile isKey)

/-- A setting with its line, and what follows the line. -/
def setting? (cs : List Char) : Option ((String × Value) × List Char) := do
  let (key, cs) ← key? cs
  match cs.dropWhile isBlank with
  | '=' :: cs =>
    let (value, cs) ← value? (cs.dropWhile isBlank)
    return ((String.ofList key, value), ← lineEnd? cs)
  | _ => none

/-- The settings of a text. Every line has a character, so as many lines as characters are enough. -/
def settings? : (lines : Nat) → List Char → Option (List (String × Value))
  | 0, cs => if cs.isEmpty then some [] else none
  | lines + 1, cs =>
    match cs.dropWhile isBlank with
    | [] => some []
    | cs =>
      match lineEnd? cs with
      | some cs => settings? lines cs
      | none => do
        let (setting, cs) ← setting? cs
        return setting :: (← settings? lines cs)

/-- The text without a byte order mark. -/
def skipMark : List Char → List Char
  | '\ufeff' :: cs => cs
  | cs => cs

/-- Whether a key occurs twice. -/
def repeats : List (String × Value) → Bool
  | [] => false
  | (key, _) :: rest => rest.any (fun s => s.1 == key) || repeats rest

def parse? (text : String) : Option (List (String × Value)) := do
  let cs := skipMark text.toList
  let settings ← settings? (cs.length + 1) cs
  if repeats settings then none else some settings

end ScriptIr.Toml
