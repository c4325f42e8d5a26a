import ScriptIr.Error
import ScriptIr.Path
import ScriptIr.Wire.Writer

/-!
# Storage

Where files are kept. A run reads and writes files through a storage only, so it can be given the
files of a machine or a collection of files in memory.

* `Storage.makeDirectories`: makes a directory with those that lead to it.
* `Workspace.storage`: the storage that a workspace is.
-/
namespace ScriptIr

/-- Access to files. -/
structure Storage (m : Type → Type) where
  /-- Whether there is something at a path. -/
  contains : Path → m Bool
  isDirectory : Path → m Bool
  read : Path → m (Except StorageFault Wire.Bytes)
  /-- Makes a directory where nothing is, in a directory that is there. -/
  makeDirectory : Path → m (Except StorageFault Unit)
  /-- Puts bytes in a file, which is made or replaced. -/
  write : Path → Wire.Bytes → m (Except StorageFault Unit)

namespace Storage

variable {m : Type → Type} [Monad m]

/-- The answer to making a directory, where one that was there before will do. -/
def orPresent (s : Storage m) (p : Path) : Except StorageFault Unit → m (Except StorageFault Unit)
  | .ok _ => return .ok ()
  | .error e => return if ← s.isDirectory p then .ok () else .error e

/-- Makes a directory, given those that lead to it, the nearest first. They are made only if the
directory cannot be made for want of one of them, and then it is tried once more. -/
def makeWithin (s : Storage m) (p : Path) : List Path → m (Except StorageFault Unit)
  | [] => do if p.text.isEmpty then return .ok () else s.orPresent p (← s.makeDirectory p)
  | parent :: ancestors => do
    match ← s.makeDirectory p with
    | .error .notFound =>
      match ← makeWithin s parent ancestors with
      | .ok _ => s.orPresent p (← s.makeDirectory p)
      | .error e => return .error e
    | made => s.orPresent p made

def makeDirectories (s : Storage m) (p : Path) : m (Except StorageFault Unit) :=
  s.makeWithin p p.ancestors

end Storage

/-- A place in a workspace. -/
structure Site where
  /-- Where the names start: at the root if there is no number, else that many levels above the
  working directory. -/
  above : Option Nat := some 0
  /-- The names that lead from there. -/
  names : List Path.Segment := []
  deriving DecidableEq, Repr, Inhabited

namespace Site

def parent (s : Site) : Site :=
  match s.names with
  | [] => { s with above := s.above.map (· + 1) }
  | names => { s with names := names.dropLast }

def child (s : Site) (name : Path.Segment) : Site := { s with names := s.names ++ [name] }

end Site

structure Workspace where
  files : List (Site × Wire.Bytes) := []
  directories : List Site := []
  deriving DecidableEq, Repr, Inhabited

namespace Workspace

def file? (w : Workspace) (s : Site) : Option Wire.Bytes :=
  (w.files.find? fun f => f.1 == s).map (·.2)

/-- Whether a place is a directory. The places where names start are. -/
def isDirectory (w : Workspace) (s : Site) : Bool := s.names.isEmpty || w.directories.contains s

def follow (s : Site) (segment : Path.Segment) : Site :=
  if segment = [] || segment = ['.'] then s
  else if segment = ['.', '.'] then s.parent
  else s.child segment

def start (p : Path) : Site := { above := if p.isAbsolute then none else some 0 }

def holds (w : Workspace) (s : Site) : Bool := w.isDirectory s || (w.file? s).isSome

/-- Why a place that is not a directory cannot be passed. -/
def barrier (w : Workspace) (s : Site) : StorageFault :=
  if (w.file? s).isSome then .notDirectory else .notFound

def maxName : Nat := 255

def maxPath : Nat := 4095

/-- Follows the segments of a path. All places on the way are directories. -/
def walk (w : Workspace) : Site → List Path.Segment → Except StorageFault Site
  | s, [] => .ok s
  | s, segment :: segments =>
    if !w.isDirectory s then .error (w.barrier s)
    else if maxName < (String.ofList segment).utf8ByteSize then .error .nameTooLong
    else walk w (follow s segment) segments

def locateAlong (w : Workspace) (p : Path) (segments : List Path.Segment) :
    Except StorageFault Site :=
  if p.text.toList.contains '\x00' then .error .badName
  else if p.text.isEmpty then .error .notFound
  else if maxPath < p.text.utf8ByteSize then .error .nameTooLong
  else w.walk (start p) segments

def locate (w : Workspace) (p : Path) : Except StorageFault Site := w.locateAlong p p.body

def contains (w : Workspace) (p : Path) : Bool :=
  match w.locate p with
  | .ok s => w.holds s
  | .error _ => false

def hasDirectory (w : Workspace) (p : Path) : Bool :=
  match w.locate p with
  | .ok s => w.isDirectory s
  | .error _ => false

def read (w : Workspace) (p : Path) : Except StorageFault Wire.Bytes := do
  let s ← w.locate p
  if w.isDirectory s then throw .isDirectory
  match w.file? s with
  | some bytes => return bytes
  | none => throw .notFound

def put (w : Workspace) (s : Site) (bytes : Wire.Bytes) : Workspace :=
  { w with files := w.files.filter (fun f => f.1 != s) ++ [(s, bytes)] }

/-- Puts bytes in a file, whose directory has to be there. -/
def write (w : Workspace) (p : Path) (bytes : Wire.Bytes) : Except StorageFault Workspace := do
  let s ← w.locate p
  if w.isDirectory s then throw .isDirectory
  return w.put s bytes

/-- Makes a directory where nothing is, in a directory that is there. Slashes after its name do not
matter. -/
def makeDirectory (w : Workspace) (p : Path) : Except StorageFault Workspace := do
  let s ← w.locateAlong p (p.body.reverse.dropWhile (·.isEmpty)).reverse
  if w.holds s then throw .alreadyThere
  return { w with directories := w.directories ++ [s] }

def add (w : Workspace) (p : Path) (bytes : Wire.Bytes) : Workspace :=
  let names := p.body
  let directories := (List.range names.length).filterMap fun n =>
    if n = 0 then none else some { names := names.take n : Site }
  { files := w.files ++ [({ names }, bytes)]
    directories := w.directories ++ directories.filter fun s => !w.directories.contains s }

/-- The files below the working directory that are not in `old` or differ there, by their paths. -/
def changes (w old : Workspace) : List (Path × Wire.Bytes) :=
  w.files.filterMap fun (s, bytes) =>
    if s.above = some 0 && old.file? s ≠ some bytes then
      some (⟨String.ofList (Path.render false s.names)⟩, bytes)
    else none

def change (f : Workspace → Except StorageFault Workspace) :
    StateM Workspace (Except StorageFault Unit) := fun w =>
    match f w with
    | .ok w => (.ok (), w)
    | .error e => (.error e, w)

def storage : Storage (StateM Workspace) where
  contains p := return (← get).contains p
  isDirectory p := return (← get).hasDirectory p
  read p := return (← get).read p
  makeDirectory p := change (·.makeDirectory p)
  write p bytes := change (·.write p bytes)

end Workspace

end ScriptIr
