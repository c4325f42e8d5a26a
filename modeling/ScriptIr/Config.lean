import ScriptIr.Path
import ScriptIr.Toml

/-!
# Configuration

What a run of the compiler writes, and where. The configuration comes from a settings file and from
the command line, which wins.
-/
namespace ScriptIr

structure Config where
  /-- Where the results go; next to each input if there is no directory. -/
  outDir : Option Path := none
  /-- Whether the module file is written. -/
  emitBinary : Bool := true
  /-- Whether the text of the module is written. -/
  emitText : Bool := true
  /-- The number of workers; none means as many as there are processors. -/
  jobs : Nat := 0
  deriving DecidableEq, Repr, Inhabited

/-- What the command line says about the configuration. -/
structure Overrides where
  outDir : Option Path := none
  noBinary : Bool := false
  noText : Bool := false
  jobs : Option Nat := none
  deriving DecidableEq, Repr, Inhabited

namespace Config

def defaultFile : Path := ⟨"hydra.toml"⟩

/-- The configuration after one setting, `none` if there is no such setting. -/
def set? (c : Config) : String × Toml.Value → Option Config
  | ("out_dir", .text s) => some { c with outDir := some ⟨s⟩ }
  | ("emit_binary", .boolean b) => some { c with emitBinary := b }
  | ("emit_text", .boolean b) => some { c with emitText := b }
  | ("jobs", .integer n) => if 0 ≤ n then some { c with jobs := n.toNat } else none
  | _ => none

def parse? (text : String) : Option Config := do
  (← Toml.parse? text).foldlM set? {}

/-- The configuration with what the command line says. -/
def override (c : Config) (o : Overrides) : Config where
  outDir := o.outDir <|> c.outDir
  emitBinary := c.emitBinary && !o.noBinary
  emitText := c.emitText && !o.noText
  jobs := o.jobs.getD c.jobs

end Config

end ScriptIr
