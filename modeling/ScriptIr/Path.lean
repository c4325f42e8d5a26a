/-!
# Paths

A path is a text of names with slashes between them. Empty names and dots name nothing, except a dot
at the start of a relative path; two paths are the same if they name the same steps.

* `Path.steps`: what a path names.
* `Path.withFileName`, `Path.withExtension`, `Path.join`: paths from paths.
-/
namespace ScriptIr

structure Path where
  text : String
  deriving DecidableEq, Repr, Inhabited

namespace Path

abbrev Segment := List Char

/-- The parts of a text between slashes. -/
def segments : List Char → List Segment
  | [] => [[]]
  | c :: cs =>
    if c = '/' then [] :: segments cs
    else
      match segments cs with
      | s :: ss => (c :: s) :: ss
      | [] => [[c]]

def isAbsolute (p : Path) : Bool := p.text.toList.head? == some '/'

def body (p : Path) : List Segment :=
  if p.isAbsolute then (segments p.text.toList).tail else segments p.text.toList

def isStep (leads : Bool) (s : Segment) : Bool := s ≠ [] && (s ≠ ['.'] || leads)

def stepsFrom (leads : Bool) : List Segment → List Segment
  | [] => []
  | s :: ss => if isStep leads s then s :: stepsFrom false ss else stepsFrom false ss

def steps (p : Path) : Bool × List Segment := (p.isAbsolute, stepsFrom (!p.isAbsolute) p.body)

/-- Segments without those after the last step. -/
def trim (leads : Bool) : List Segment → List Segment
  | [] => []
  | s :: ss =>
    match trim false ss with
    | [] => if isStep leads s then [s] else []
    | ss => s :: ss

def trimmed (p : Path) : List Segment := trim (!p.isAbsolute) p.body

/-- The text of segments, after the root if the path has one. -/
def render (absolute : Bool) (ss : List Segment) : List Char :=
  (if absolute then ['/'] else []) ++ List.intercalate ['/'] ss

def fileName? (p : Path) : Option Segment :=
  p.trimmed.getLast?.filter fun s => s ≠ ['.'] && s ≠ ['.', '.']

def parentText (p : Path) : List Char :=
  render p.isAbsolute (trim (!p.isAbsolute) p.trimmed.dropLast)

/-- The directories that lead to a path, the nearest first. The last is the root, or the empty path for
the working directory. -/
def ancestors (p : Path) : List Path :=
  (List.range p.steps.2.length).reverse.map fun n =>
    ⟨String.ofList (render p.isAbsolute (p.steps.2.take n))⟩

/-- The part of a name before its last dot, and the part after it. A dot at the start does not
count. -/
def splitName (name : Segment) : Segment × Option Segment :=
  let after := (name.reverse.takeWhile (· ≠ '.')).reverse
  let before := (name.reverse.dropWhile (· ≠ '.')).tail.reverse
  if before.isEmpty then (name, none) else (before, some after)

def fileStem? (p : Path) : Option Segment := p.fileName?.map fun n => (splitName n).1

def extension? (p : Path) : Option Segment := p.fileName?.bind fun n => (splitName n).2

def pushText (text name : List Char) : List Char :=
  if name.head? == some '/' || text.isEmpty then name
  else if text.getLast? == some '/' then text ++ name
  else text ++ '/' :: name

def join (dir : Path) (name : Segment) : Path := ⟨String.ofList (pushText dir.text.toList name)⟩

def withFileName (p : Path) (name : Segment) : Path :=
  let dir := if p.fileName?.isSome then p.parentText else p.text.toList
  ⟨String.ofList (pushText dir name)⟩

/-- The path without the characters of its extension; the dot stays. -/
def cutExtension (p : Path) : Path :=
  match p.extension? with
  | none => p
  | some e => ⟨String.ofList (p.text.toList.take (p.text.length - e.length))⟩

def setExtension (p : Path) (extension : String) : Path :=
  match p.fileName? with
  | none => p
  | some name =>
    let text := render p.isAbsolute p.trimmed
    let stem := text.take (text.length - (name.length - (splitName name).1.length))
    ⟨String.ofList (stem ++ '.' :: extension.toList)⟩

/-- The path with another extension: the old one is cut off first, and what is left gets the new
one. -/
def withExtension (p : Path) (extension : String) : Path := p.cutExtension.setExtension extension

end Path

end ScriptIr
