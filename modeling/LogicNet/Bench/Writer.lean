import LogicNet.Netlist.View

/-!
# Writing a netlist text

Gates are named after their identifiers. Drivers outside the netlist become inputs, and output
gates become buffers.

The format has no latches, no flip-flops with set and reset, and no clocks: a flip-flop can be
written only if a constant one clocks it. Such a gate is met when its turn comes, and what was
written before it stays.
-/

namespace LogicNet

open Std

namespace Bench

/-- A text as far as it goes, and the fault that stopped it. -/
structure Draft where
  lines : List String
  fault : Option Fault

namespace Draft

/-- The lines before the first fault. -/
def ofResults : List (Result String) → Draft
  | [] => ⟨[], none⟩
  | .ok line :: rest =>
    let draft := ofResults rest
    { draft with lines := line :: draft.lines }
  | .error f :: _ => ⟨[], some f⟩

/-- Every line ends with a line feed. -/
def text (d : Draft) : String := String.join (d.lines.map (· ++ "\n"))

/-- The whole text, if nothing stopped it. -/
def result (d : Draft) : Result String :=
  match d.fault with
  | none => .ok d.text
  | some f => .error f

end Draft

/-- The distinct drivers of some links, in order. -/
def portsOf (links : LinkSet) : List GateId :=
  (TreeSet.ofList (links.toList.map Link.source) : GateSet).toList

/-- A flip-flop that the constant one clocks. -/
def isSynchronous (net : Netlist) (g : Gate) : Bool :=
  match g.inputs with
  | _ :: clock :: _ => clock.event == .rising && (net.gate? clock.driver).any (·.fn == .one)
  | _ => false

/-- A definition: name, kind and operands. -/
def definitionLine (id : GateId) (kind : String) (operands : List GateId) : String :=
  id.text ++ " = " ++ kind ++ "(" ++ ", ".intercalate (operands.map GateId.text) ++ ")"

/-- The line of a gate that is no source. -/
def gateLine (net : Netlist) (symbols : SymbolTable) (g : Gate) : Result String :=
  let drivers := g.inputs.map (·.driver)
  match g.fn with
  | .zero => .ok (g.id.text ++ " = gnd")
  | .one => .ok (g.id.text ++ " = vdd")
  | .output | .buffer => .ok (definitionLine g.id "BUF" drivers)
  | .flipFlop =>
    if isSynchronous net g then .ok (definitionLine g.id "DFF" (drivers.take 1))
    else .error (.refusal (.unsupported (.clockedFlipFlop g.id)))
  | .latch | .flipFlopRS => .error (.refusal (.unsupported (.gate g)))
  | fn => do
    let name ← Result.getOrBreach (symbols.nameOf? fn) .outOfRange
    return definitionLine g.id name drivers

/-- The lines of all gates, in topological order. -/
def gateLines (net : Netlist) (symbols : SymbolTable) : List (Result String) :=
  match net.view.orderedGates with
  | .error f => [.error f]
  | .ok order =>
    ((order.filterMap net.gate?).filter fun g => !g.isSource).map (gateLine net symbols)

/-- The text of a netlist, with the names of its cells. -/
def draft (net : Netlist) (symbols : SymbolTable) : Draft :=
  let header := ["# .bench (ISCAS) file", "# Generated by gatelec"]
  let inputs := (portsOf net.sources).map fun g => "INPUT(" ++ g.text ++ ")"
  let outputs := (portsOf net.targets).map fun g => "OUTPUT(" ++ g.text ++ ")"
  .ofResults ((header ++ inputs ++ [""] ++ outputs ++ [""]).map .ok ++ gateLines net symbols)

/-- Write a netlist. -/
def write (net : Netlist) (symbols : SymbolTable) : Result String := (draft net symbols).result

end Bench

end LogicNet
