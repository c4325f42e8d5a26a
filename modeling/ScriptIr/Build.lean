import ScriptIr.Code.Dump
import ScriptIr.CommandLine
import ScriptIr.Compile
import ScriptIr.Flat.Flatten
import ScriptIr.Listing
import ScriptIr.Storage

/-!
# Runs

A run compiles a list of files or shows what is in one. A file that fails does not stop the others;
inputs whose results would be written to the same place stop the run before anything is written.

* `compileFile`, `compileFiles`: a compilation with its files.
-/
namespace ScriptIr

open Code (FuncId)

/-! ## Failures -/

inductive Cause where
  | compiler (error : Error)
  /-- A file could not be used. -/
  | storage (fault : StorageFault)
  /-- A settings file is malformed. -/
  | settings
  /-- Two inputs have the same place for their results. -/
  | sharedOutput (first second stem : Path)
  deriving DecidableEq, Repr, Inhabited

namespace Cause

def message : Cause → String
  | compiler error => error.message
  | storage fault => fault.describe
  | settings => "malformed settings"
  | sharedOutput first second stem =>
    first.text ++ " and " ++ second.text ++ " would both be written to " ++ stem.text

def chain (c : Cause) : List String :=
  match c with
  | compiler (.storage fault) => [c.message, fault.describe]
  | _ => [c.message]

end Cause

/-- Why a run could not do what it was asked for. -/
structure Failure where
  /-- What was being done, if that is told. -/
  activity : Option String := none
  cause : Cause
  deriving DecidableEq, Repr, Inhabited

namespace Failure

def headline (f : Failure) : String := f.activity.getD f.cause.message

/-- What was being done, the cause and what is behind it. -/
def message (f : Failure) : String := ": ".intercalate (f.activity.toList ++ f.cause.chain)

def category? (f : Failure) : Option Category :=
  match f.cause with
  | .compiler error => some error.category
  | _ => none

end Failure

/-- A failure while something is done to a file. -/
def failedAt (activity : String) (path : Path) (cause : Cause) : Failure :=
  { activity := some (activity ++ " " ++ path.text), cause }

/-- A result whose error is a failure while something is done to a file. -/
def whileDoing (activity : String) (path : Path) (cause : ε → Cause) : Except ε α → Except Failure α :=
  Except.mapError fun e => failedAt activity path (cause e)

/-! ## Places of results -/

def inputEnding : List Char := ".json".toList

/-- The name of an input's module: its file name without the ending, unless nothing would be left. -/
def moduleName (input : Path) : List Char :=
  let file := input.fileName?.getD []
  let name := file.take (file.length - inputEnding.length)
  if inputEnding.isSuffixOf file && !name.isEmpty then name else file

/-- Where an input's results go, but for their extensions: in the directory for results, or next to
the input. -/
def outputStem (input : Path) (outDir : Option Path) : Path :=
  let name := moduleName input
  let stem := (Path.fileStem? ⟨String.ofList name⟩).getD name
  match outDir with
  | some dir => dir.join stem
  | none => input.withFileName stem

/-- Looks for an input whose results go where those of an earlier one go. -/
def checkOutputsAfter (outDir : Option Path) (seen : List Path) : List Path → Except Failure Unit
  | [] => .ok ()
  | input :: inputs =>
    let stem := outputStem input outDir
    match seen.find? fun earlier => (outputStem earlier outDir).steps == stem.steps with
    | some earlier => .error { cause := .sharedOutput earlier input stem }
    | none => checkOutputsAfter outDir (seen ++ [input]) inputs

/-- Fails if two inputs have the same place for their results. -/
def checkOutputs (inputs : List Path) (outDir : Option Path) : Except Failure Unit :=
  checkOutputsAfter outDir [] inputs

/-! ## Files -/

variable {m : Type → Type} [Monad m]

def utf8 (text : String) : Wire.Bytes := text.toUTF8.data

def readText (s : Storage m) (path : Path) : m (Except StorageFault String) := do
  match ← s.read path with
  | .error e => return .error e
  | .ok bytes =>
    match String.fromUTF8? (ByteArray.mk bytes) with
    | some text => return .ok text
    | none => return .error .notText

def writeBinary (s : Storage m) (stem : Path) (module : Code.Module) :
    ExceptT Failure m Path := do
  let path := stem.withExtension "ir"
  let bytes ← ExceptT.mk (pure (whileDoing "writing" path Cause.compiler module.toBytes))
  ExceptT.mk do
    return whileDoing "writing" path (fun e => .compiler (.storage e)) (← s.write path bytes)
  return path

def writeText (s : Storage m) (stem : Path) (module : Code.Module) : ExceptT Failure m Path := do
  let path := stem.withExtension "tir"
  ExceptT.mk do return whileDoing "writing" path Cause.storage (← s.write path (utf8 module.dump))
  return path

def writeResults (s : Storage m) (config : Config) (input : Path) (module : Code.Module) :
    ExceptT Failure m (List Path) := do
  let stem := outputStem input config.outDir
  let binary ← if config.emitBinary then pure [← writeBinary s stem module] else pure []
  let text ← if config.emitText then pure [← writeText s stem module] else pure []
  return binary ++ text

def compileFile (s : Storage m) (config : Config) (firstId : FuncId) (input : Path) :
    m (Except Failure (List Path) × FuncId) := do
  match whileDoing "reading" input Cause.storage (← readText s input) with
  | .error e => return (.error e, firstId)
  | .ok text =>
    let compiled := compileText text (String.ofList (moduleName input)) firstId
    match whileDoing "compiling" input Cause.compiler compiled.result with
    | .error e => return (.error e, compiled.nextId)
    | .ok module => return (← (writeResults s config input module).run, compiled.nextId)

/-- What became of an input: the files written for it, or a failure. -/
structure Outcome where
  input : Path
  result : Except Failure (List Path)
  deriving Inhabited

def compileInputs (s : Storage m) (config : Config) (firstId : FuncId) :
    List Path → m (List Outcome)
  | [] => return []
  | input :: inputs => do
    let (result, nextId) ← compileFile s config firstId input
    return { input, result } :: (← compileInputs s config nextId inputs)

def makeOutDir (s : Storage m) (config : Config) : m (Except Failure Unit) := do
  match config.outDir with
  | none => return .ok ()
  | some dir => return whileDoing "creating" dir Cause.storage (← s.makeDirectories dir)

def compileFiles (s : Storage m) (config : Config) (inputs : List Path) :
    m (Except Failure (List Outcome)) := do
  match checkOutputs inputs config.outDir with
  | .error e => return .error e
  | .ok _ =>
    match ← makeOutDir s config with
    | .error e => return .error e
    | .ok _ => return .ok (← compileInputs s config 0 inputs)

/-- The listing of a module file. -/
def inspectFile (s : Storage m) (path : Path) : m (Except Failure String) := do
  let bytes ← s.read path
  return do
    let bytes ← whileDoing "reading" path Cause.storage bytes
    let file ← whileDoing "parsing" path (fun e => .compiler (.invalidModule e))
      (Wire.ModuleFile.parse bytes)
    (listing path.text file).mapError fun e => { cause := .compiler (.invalidModule e) }

def settingsFile? (s : Storage m) (named : Option Path) : m (Option Path) := do
  match named with
  | some path => return some path
  | none => return if ← s.contains Config.defaultFile then some Config.defaultFile else none

/-- The configuration of a run before the command line has its say. -/
def loadConfig (s : Storage m) (named : Option Path) : m (Except Failure Config) := do
  match ← settingsFile? s named with
  | none => return .ok {}
  | some path =>
    let text ← readText s path
    return do
      let text ← whileDoing "reading config" path Cause.storage text
      match Config.parse? text with
      | some config => return config
      | none => throw (failedAt "parsing config" path .settings)

end ScriptIr
