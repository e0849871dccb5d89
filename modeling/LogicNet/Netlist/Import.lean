import LogicNet.Netlist.Sort

/-!
# Importing and copying netlists

Both build one placeholder for each gate first, and give the placeholders their functions
afterwards; so it does not matter in which order the gates of the other netlist stand, and loops
through flip-flops are imported like anything else.

They differ in what becomes of an EXTERNAL driver. `importNet` makes it a new placeholder, because
in the host its number may belong to an unrelated gate. `copy` keeps it: the copy is a netlist of
its own, whose gates get numbers above all external drivers.
-/

namespace LogicNet

open Std

namespace Netlist

/-- A placeholder for each of these gates, and the correspondence. -/
def addImages (net : Netlist) (ids : List GateId) : Result (GateMap × Netlist) :=
  ids.foldlM
    (fun (map, net) id => do
      let (image, net) ← net.addPlaceholder
      return (map.insert id image, net))
    ({}, net)

/-- The signals a gate reads in the host. Drivers without an image get a placeholder. -/
def importInputs (net : Netlist) (map : GateMap) :
    List Signal → Result (List Signal × GateMap × Netlist)
  | [] => .ok ([], map, net)
  | s :: rest => do
    let (d, map, net) ← match map[s.driver]? with
      | some d => pure (d, map, net)
      | none => do
        let (d, net) ← net.addPlaceholder
        pure (d, map.insert s.driver d, net)
    let (inputs, map, net) ← net.importInputs map rest
    return (s.withDriver d :: inputs, map, net)

/-- Give the image of gate `id` the function and the inputs of the gate. -/
def importGate (other : Netlist) (map : GateMap) (net : Netlist) (id : GateId) :
    Result (GateMap × Netlist) := do
  let gate ← other.gate id
  let (inputs, map, net) ← net.importInputs map gate.inputs
  let image ← Result.getOrBreach map[id]? .missingKey
  let net ← net.setGate image ⟨gate.fn, inputs⟩
  return (map, net)

/-- Append the parts of another netlist, holding the images of their gates. -/
def importParts (net : Netlist) (other : Netlist) (map : GateMap) : Result Netlist :=
  other.parts.foldlM
    (fun net p => do
      let (n, net) := net.addPart
      p.gates.foldlM
        (fun net id => do
          let image ← Result.getOrBreach map[id]? .missingKey
          net.moveGate image (some n))
        net)
    net

/-- Import all gates and parts of another netlist under new identifiers. The correspondence covers
its gates and its external drivers. -/
def importNet (net : Netlist) (other : Netlist) : Result (GateMap × Netlist) := do
  let (map, net) ← net.addImages other.gates
  let (map, net) ← other.gates.foldlM (fun (map, net) id => other.importGate map net id) (map, net)
  let net ← net.importParts other map
  return (map, net)

/-- Drivers of source links that are not gates of the netlist. -/
def externalDrivers (net : Netlist) : List GateId :=
  (net.sources.toList.filter fun l => !net.contains l.source).map Link.source

/-- Give the image of gate `id` the function of the gate, with external drivers unchanged. -/
def copyGate (other : Netlist) (map : GateMap) (net : Netlist) (id : GateId) : Result Netlist := do
  let gate ← other.gate id
  let image ← Result.getOrBreach map[id]? .missingKey
  net.setGate image ⟨gate.fn, gate.inputs.map fun s => s.withDriver (map.getD s.driver s.driver)⟩

/-- An independent copy, sorted, and the correspondence from gates to their images. -/
def copy (net : Netlist) : Result (GateMap × Netlist) := do
  Result.require net.isWellFormed .malformedCopy
  let nextId ← reserve 0 (net.externalDrivers.map Signal.plain)
  let (map, image) ← addImages { nextId } net.gates
  let image ← net.gates.foldlM (net.copyGate map) image
  let image ← image.importParts net map
  let image ← image.sort
  return (map, image)

end Netlist

end LogicNet
