import ScriptIr.Flat.Decode

/-!
# Listings of module files

The text that shows what is in a module file: its sections, its texts and its functions.
-/
namespace ScriptIr

open Wire (ModuleFile Section)

def padLeft (width n : Nat) : String :=
  let digits := toString n
  String.ofList (List.replicate (width - digits.length) ' ') ++ digits

def sectionLine (s : Section) : String :=
  "  section " ++ s.kind.name ++ " at " ++ toString s.offset.toNat ++ " ("
    ++ toString s.payload.size ++ " bytes)\n"

def textLine (entry : Nat × String) : String :=
  "  " ++ padLeft 6 entry.1 ++ "  " ++ Text.quoted entry.2 ++ "\n"

def listing (title : String) (file : ModuleFile) : Except ModuleFault String := do
  let texts ← file.texts
  let functions ← file.functions.mapM fun payload => Flat.Function.decode file payload
  return "module " ++ title ++ "\n" ++ String.join (file.sections.map sectionLine)
    ++ "\nstrings\n" ++ String.join (texts.map textLine)
    ++ String.join (functions.map fun f => "\n" ++ f.listing)

end ScriptIr
