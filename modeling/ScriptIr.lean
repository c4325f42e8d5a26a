import ScriptIr.Main
import ScriptIr.Proofs.Build.Places
import ScriptIr.Proofs.Code.Lines
import ScriptIr.Proofs.Compile.Accepted
import ScriptIr.Proofs.Compile.Announced
import ScriptIr.Proofs.Compile.Arrays
import ScriptIr.Proofs.Compile.Sized
import ScriptIr.Proofs.Compile.Controlled
import ScriptIr.Proofs.Compile.Defined
import ScriptIr.Proofs.Compile.Numbered
import ScriptIr.Proofs.Compile.Renamed
import ScriptIr.Proofs.Scope.Lookup
import ScriptIr.Proofs.Code.Offsets
import ScriptIr.Proofs.Flat.Bounds
