import ScriptIr.Build

/-!
# Reports

What the command prints and the code it ends with. Marks are coloured for a terminal.

* `runArguments`: the run that the arguments ask for, and its report.
-/
namespace ScriptIr

structure Report where
  output : String := ""
  errors : String := ""
  code : UInt32 := 0
  deriving DecidableEq, Repr, Inhabited

namespace Report

/-- One report after another; the code is the later one's unless that is zero. -/
def append (a b : Report) : Report :=
  { output := a.output ++ b.output, errors := a.errors ++ b.errors
    code := if b.code = 0 then a.code else b.code }

/-- A text between an opening and a closing terminal sequence. -/
def styled (start stop : String) (text : String) : String :=
  "\x1b[" ++ start ++ "m" ++ text ++ "\x1b[" ++ stop ++ "m"

inductive Colour where
  | red | green | yellow | white
  deriving DecidableEq, Repr, Inhabited

def Colour.number : Colour → String
  | red => "31"
  | green => "32"
  | yellow => "33"
  | white => "37"

def coloured (c : Colour) (text : String) : String := styled c.number "39" text

def mark (c : Colour) (text : String) : String := styled "1" "0" (coloured c text)

def faint (text : String) : String := styled "2" "0" text

def failure (f : Failure) : Report :=
  { errors := mark .red "error" ++ ": " ++ f.message ++ "\n", code := 1 }

def categoryText (f : Failure) : String :=
  match f.category? with
  | some c => " [" ++ c.name ++ "]"
  | none => ""

def outcome (o : Outcome) : Report :=
  match o.result with
  | .ok paths =>
    let written := ", ".intercalate (paths.map (·.text))
    { output := mark .green "compiled" ++ " " ++ o.input.text ++ " -> " ++ faint written ++ "\n" }
  | .error f =>
    { errors := mark .red "error" ++ coloured .yellow (categoryText f) ++ ": " ++ f.message ++ "\n" }

def failures (os : List Outcome) : Nat :=
  (os.filter fun o => match o.result with
    | .ok _ => false
    | .error _ => true).length

def summary (os : List Outcome) : Report :=
  let failed := failures os
  if failed = 0 then {}
  else
    { errors := mark .white "summary:" ++ " " ++ toString failed ++ " of " ++ toString os.length
        ++ " files failed\n"
      code := 1 }

def outcomes (os : List Outcome) : Report :=
  (os.foldl (fun (r : Report) o => r.append (outcome o)) {}).append (summary os)

def versionLine : String := "hydrac 0.1.0\n"

def usageText : String :=
  "Compiles syntax trees into modules.\n\n"
    ++ "Usage: hydrac [-v] [--config FILE] compile [-o DIR] [--no-binary] [--no-text] [-j N] INPUT...\n"
    ++ "       hydrac [-v] [--config FILE] inspect FILE\n"
    ++ "       hydrac help [COMMAND]\n"

def stop : Stop → Report
  | .help => { output := usageText }
  | .version => { output := versionLine }
  | .usage => { errors := usageText, code := 2 }

end Report

variable {m : Type → Type} [Monad m]

def runCompile (s : Storage m) (config : Option Path) (inputs : List Path) (o : Overrides) :
    m Report := do
  match ← loadConfig s config with
  | .error f => return .failure f
  | .ok config =>
    match ← compileFiles s (config.override o) inputs with
    | .error f => return .failure f
    | .ok os => return .outcomes os

def runInspect (s : Storage m) (file : Path) : m Report := do
  match ← inspectFile s file with
  | .error f => return .failure f
  | .ok text => return { output := text }

def runInvocation (s : Storage m) (i : Invocation) : m Report :=
  match i.task with
  | .compile inputs o => runCompile s i.config inputs o
  | .inspect file => runInspect s file

def runArguments (s : Storage m) (args : List String) : m Report :=
  match CommandLine.parse args with
  | .ok i => runInvocation s i
  | .error stop => return .stop stop

end ScriptIr
