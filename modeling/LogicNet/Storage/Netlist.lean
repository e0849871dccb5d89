import LogicNet.Bench.Reader
import LogicNet.Bench.Writer
import LogicNet.Storage.Directory

/-!
# Netlist files

The extension of a file tells its format, and there is one format. The extension is looked at
before the file.
-/

namespace LogicNet

namespace Path

/-- Refuse a path whose extension is not that of the format. -/
def requireBench (path : String) : Except Refusal Unit :=
  match extension? path with
  | none => .error (.unsupported (.noExtension path))
  | some "bench" => .ok ()
  | some e => .error (.unsupported (.unknownExtension e))

end Path

namespace Directory

/-- Read a design from a file. -/
def readDesign (d : Directory) (path : String) : Result Design :=
  match Path.requireBench path with
  | .error r => .error (.refusal r)
  | .ok () =>
    match d.read path with
    | .error e => .error (.refusal (.storage e))
    | .ok bytes => Bench.read bytes

/-- Write a netlist to a file. If a gate cannot be written, then the file holds what came before
it. -/
def writeNetlist (d : Directory) (path : String) (net : Netlist) (symbols : SymbolTable) :
    Result Unit × Directory :=
  match Path.requireBench path with
  | .error r => (.error (.refusal r), d)
  | .ok () =>
    let draft := Bench.draft net symbols
    match d.write path draft.text.toUTF8 with
    | .error e => (.error (.refusal (.storage e)), d)
    | .ok d => (draft.result.map fun _ => (), d)

end Directory

end LogicNet
