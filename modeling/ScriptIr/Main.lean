import ScriptIr.Report

/-!
# Command

The command on the files of the machine.
-/
namespace ScriptIr

def faultOf (e : IO.Error) : StorageFault :=
  match e with
  | .noFileOrDirectory .. => .notFound
  | .alreadyExists .. => .alreadyThere
  | .inappropriateType _ code _ =>
    if code = 20 then .notDirectory else if code = 21 then .isDirectory else .other (toString e)
  | .invalidArgument _ code _ => if code = 36 then .nameTooLong else .other (toString e)
  | _ => .other (toString e)

/-- The answer of an action, or the reason of its failure. -/
def attempt (action : IO α) : IO (Except StorageFault α) := do
  try
    return .ok (← action)
  catch e =>
    return .error (faultOf e)

def readFile (p : Path) : IO (Except StorageFault Wire.Bytes) :=
  return (← attempt (IO.FS.readBinFile p.text)).map ByteArray.data

/-- Whether there is a directory of the machine at a path: the system says so when it is read. -/
def isFolder (p : Path) : IO Bool := do
  match ← readFile p with
  | .error .isDirectory => return true
  | _ => return false

def machineStorage : Storage IO where
  contains p := return (← attempt (IO.FS.Handle.mk p.text .read)).isOk
  isDirectory := isFolder
  read := readFile
  makeDirectory p := attempt (IO.FS.createDir p.text)
  write p bytes := attempt (IO.FS.writeBinFile p.text (ByteArray.mk bytes))

end ScriptIr

def main (args : List String) : IO UInt32 := do
  let report ← ScriptIr.runArguments ScriptIr.machineStorage args
  IO.print report.output
  IO.eprint report.errors
  return report.code
