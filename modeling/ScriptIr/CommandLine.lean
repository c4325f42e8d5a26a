import ScriptIr.Config

/-!
# Command line

Arguments are read from left to right. A value of an option is checked when the next option or operand
arrives, so the first thing that is wrong, or the first request for help, decides the answer. Each of
the two commands has its own options, and some options may stand before the command as well.
-/
namespace ScriptIr

/-- What is to be done. -/
inductive Task where
  | compile (inputs : List Path) (overrides : Overrides)
  /-- Prints what is in a module file. -/
  | inspect (file : Path)
  deriving DecidableEq, Repr, Inhabited

structure Invocation where
  verbose : Bool
  /-- The settings file that is named. -/
  config : Option Path
  task : Task
  deriving DecidableEq, Repr, Inhabited

/-- Why the arguments ask for no task. -/
inductive Stop where
  | help
  | version
  /-- The arguments are not understood. -/
  | usage
  deriving DecidableEq, Repr, Inhabited

namespace CommandLine

/-! ## What may be written -/

/-- The options. -/
inductive Opt where
  | help | version | verbose | config | outDir | noBinary | noText | jobs
  deriving DecidableEq, Repr, Inhabited

structure Spelling where
  opt : Opt
  long : String
  short : Option Char
  takesValue : Bool
  deriving DecidableEq, Repr, Inhabited

/-- How many operands a command takes. -/
inductive Operands where
  | none | one | many
  deriving DecidableEq, Repr, Inhabited

inductive Command where
  | compile | inspect | help
  deriving DecidableEq, Repr, Inhabited

/-- What may be written at one level. -/
structure Grammar where
  options : List Spelling
  operands : Operands
  commands : List (String × Command)
  deriving Inhabited

def commonOptions : List Spelling :=
  [⟨.help, "help", some 'h', false⟩, ⟨.version, "version", some 'V', false⟩,
    ⟨.verbose, "verbose", some 'v', false⟩, ⟨.config, "config", none, true⟩]

def commandNames : List (String × Command) :=
  [("compile", .compile), ("c", .compile), ("inspect", .inspect), ("help", .help)]

def rootGrammar : Grammar := ⟨commonOptions, .none, commandNames⟩

def compileGrammar : Grammar :=
  ⟨commonOptions ++ [⟨.outDir, "out-dir", some 'o', true⟩, ⟨.noBinary, "no-binary", none, false⟩,
    ⟨.noText, "no-text", none, false⟩, ⟨.jobs, "jobs", some 'j', true⟩], .many, []⟩

def inspectGrammar : Grammar := ⟨commonOptions, .one, []⟩

/-! ## What has been written -/

/-- What is waiting to be checked. -/
inductive Pending where
  | nothing
  /-- An option that takes a value, and the value if it has arrived. -/
  | value (opt : Opt) (text : Option String)
  | operands (texts : List String)
  deriving DecidableEq, Repr, Inhabited

/-- What has been read at one level. -/
structure Progress where
  flags : List Opt := []
  values : List (Opt × String) := []
  operands : List String := []
  pending : Pending := .nothing
  /-- Whether all that follows are operands. -/
  onlyOperands : Bool := false
  deriving DecidableEq, Repr, Inhabited

/-- A count: digits, after an optional plus, of a number below `2 ^ 64`. -/
def count? (text : String) : Option Nat :=
  let digits := match text.toList with
    | '+' :: cs => cs
    | cs => cs
  if digits.isEmpty || !digits.all Char.isDigit then none
  else
    let n := digits.foldl (fun n c => n * 10 + (c.toNat - '0'.toNat)) 0
    if n < Nat.pow 2 64 then some n else none

def isValue (opt : Opt) (text : String) : Bool :=
  match opt with
  | .jobs => (count? text).isSome
  | _ => !text.isEmpty

namespace Progress

def value? (p : Progress) (opt : Opt) : Option String :=
  (p.values.find? fun v => v.1 == opt).map (·.2)

/-- Takes the value of an option, which may be given once. -/
def addValue (p : Progress) (opt : Opt) (text : String) : Except Stop Progress :=
  if (p.value? opt).isSome || !isValue opt text then .error .usage
  else .ok { p with values := p.values ++ [(opt, text)] }

/-- Checks what is waiting. -/
def settle (p : Progress) : Except Stop Progress :=
  let q := { p with pending := .nothing }
  match p.pending with
  | .nothing => .ok q
  | .value _ none => .error .usage
  | .value opt (some text) => q.addValue opt text
  | .operands texts =>
    if texts.any (·.isEmpty) then .error .usage
    else .ok { q with operands := p.operands ++ texts }

/-- Whether an option is waiting for its value. -/
def awaitsValue (p : Progress) : Bool :=
  match p.pending with
  | .value _ none => true
  | _ => false

/-- An option without a value, which may be given once. -/
def addFlag (p : Progress) (opt : Opt) : Except Stop Progress := do
  let p ← p.settle
  match opt with
  | .help => .error .help
  | .version => .error .version
  | opt => if p.flags.contains opt then .error .usage else .ok { p with flags := p.flags ++ [opt] }

def addOption (p : Progress) (opt : Opt) (attached : Option String) : Except Stop Progress := do
  let p ← p.settle
  match attached with
  | some text => p.addValue opt text
  | none => return { p with pending := .value opt none }

def addOperand (p : Progress) (g : Grammar) (text : String) : Except Stop Progress :=
  match g.operands, p.pending with
  | .none, _ => .error .usage
  | .one, .operands _ => .error .usage
  | .one, _ =>
    if p.operands.isEmpty then do return { ← p.settle with pending := .operands [text] }
    else .error .usage
  | .many, .operands texts => .ok { p with pending := .operands (texts ++ [text]) }
  | .many, _ => do return { ← p.settle with pending := .operands [text] }

end Progress

/-! ## Reading -/

/-- Options written by their letters. A letter that takes a value takes the rest of the argument. -/
def readLetters (g : Grammar) (p : Progress) : List Char → Except Stop Progress
  | [] => .ok p
  | c :: cs =>
    match g.options.find? fun s => s.short == some c with
    | none => .error .usage
    | some s =>
      if s.takesValue then
        match cs with
        | [] => p.addOption s.opt none
        | '=' :: cs => p.addOption s.opt (some (String.ofList cs))
        | cs => p.addOption s.opt (some (String.ofList cs))
      else do readLetters g (← p.addFlag s.opt) cs

def readName (g : Grammar) (p : Progress) (cs : List Char) : Except Stop Progress :=
  let name := String.ofList (cs.takeWhile (· ≠ '='))
  let attached := match cs.dropWhile (· ≠ '=') with
    | _ :: text => some (String.ofList text)
    | [] => none
  match g.options.find? fun s => s.long == name with
  | none => .error .usage
  | some s =>
    if s.takesValue then p.addOption s.opt attached
    else if attached.isSome then .error .usage
    else p.addFlag s.opt

def readArgument (g : Grammar) (p : Progress) (arg : String) : Except Stop Progress :=
  if p.onlyOperands then p.addOperand g arg
  else
    match arg.toList, p.pending with
    | ['-', '-'], _ => .ok { p with onlyOperands := true }
    | '-' :: '-' :: cs, _ => readName g p cs
    | '-' :: c :: cs, _ => readLetters g p (c :: cs)
    | _, .value opt none => .ok { p with pending := .value opt (some arg) }
    | _, _ => p.addOperand g arg

/-- The command that an argument names where a command may stand. -/
def commandAt? (g : Grammar) (p : Progress) (arg : String) : Option Command :=
  if p.onlyOperands || p.awaitsValue then none
  else (g.commands.find? fun c => c.1 == arg).map (·.2)

def readLevel (g : Grammar) (p : Progress) :
    List String → Except Stop (Progress × Option (Command × List String))
  | [] => .ok (p, none)
  | arg :: args =>
    match commandAt? g p arg with
    | some c => .ok (p, some (c, args))
    | none => do readLevel g (← readArgument g p arg) args

def readCommand (g : Grammar) (args : List String) : Except Stop Progress := do
  (← readLevel g {} args).1.settle

def helpOn : List String → Stop
  | [] => .help
  | [name] => if commandNames.any (fun c => c.1 == name) then .help else .usage
  | _ => .usage

def Progress.path? (p : Progress) (opt : Opt) : Option Path := (p.value? opt).map Path.mk

def taskOf (c : Command) (p : Progress) : Except Stop Task :=
  match c, p.operands with
  | .compile, input :: inputs =>
    .ok (.compile ((input :: inputs).map Path.mk)
      { outDir := p.path? .outDir, noBinary := p.flags.contains .noBinary
        noText := p.flags.contains .noText, jobs := (p.value? .jobs).bind count? })
  | .inspect, [file] => .ok (.inspect ⟨file⟩)
  | _, _ => .error .usage

def grammarOf : Command → Grammar
  | .compile => compileGrammar
  | .inspect | .help => inspectGrammar

/-- The invocation that the arguments ask for. What stands before the command is checked last. -/
def parse (args : List String) : Except Stop Invocation := do
  match ← readLevel rootGrammar {} args with
  | (_, none) => .error .usage
  | (_, some (.help, args)) => .error (helpOn args)
  | (root, some (c, args)) =>
    let p ← readCommand (grammarOf c) args
    let task ← taskOf c p
    let root ← root.settle
    return {
      verbose := root.flags.contains .verbose || p.flags.contains .verbose
      config := p.path? .config <|> root.path? .config
      task }

end CommandLine

end ScriptIr
