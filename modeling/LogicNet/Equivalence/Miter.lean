import LogicNet.Equivalence.Hints
import LogicNet.Equivalence.Trace
import LogicNet.Netlist.Import

/-!
# Miters

The MITER of two netlists is one netlist with a single output that is set exactly when they differ.
Both are imported, each pair of bound sources is fed by one new input, each pair of bound targets is
compared, and the output is the disjunction of the comparisons.

A miter is refused unless the netlists have equally many sources and targets and every source and
target of the left one is bound.
-/

namespace LogicNet

open Std

namespace Miter

/-- Refuse netlists that cannot be combined under these bindings. -/
def validate (left right : Netlist) (sources targets : Binding) : Except Refusal Unit := do
  if left.sources.size ≠ right.sources.size then
    throw (.inputCounts left.sources.size right.sources.size)
  if left.targets.size ≠ right.targets.size then
    throw (.outputCounts left.targets.size right.targets.size)
  match left.sources.toList.find? fun l => !sources.contains l with
  | some l => throw (.unboundSource l)
  | none => pure ()
  match left.targets.toList.find? fun l => !targets.contains l with
  | some l => throw (.unboundTarget l)
  | none => pure ()

/-- Feed a source of an imported netlist from a gate of the miter. -/
def feedSource (net : Netlist) (map : GateMap) (l : Link) (x : GateId) : Result Netlist := do
  let t ← Result.getOrBreach map[l.target]? .missingKey
  match l.pin with
  | .port => net.setGate t (.nary .buffer [x])
  | .input i =>
    let gate ← net.gate t
    let s ← Result.getOrBreach gate.inputs[i]? .outOfRange
    net.setGate t ⟨gate.fn, gate.inputs.set i (s.withDriver x)⟩

/-- One new input for each pair of bound sources. -/
def feedSources (net : Netlist) (leftMap rightMap : GateMap) (sources : Binding) : Result Netlist :=
  sources.toList.foldlM
    (fun net (l, r) => do
      let (x, net) ← net.addInput
      let net ← feedSource net leftMap l x
      feedSource net rightMap r x)
    net

/-- Remove the placeholders of external drivers that feed nothing any more. -/
def removeUnused (net other : Netlist) (map : GateMap) : Result Netlist := do
  let unused := (map.toList.filter fun (old, new) =>
    !other.contains old && (net.gate? new).any (·.fanout.isEmpty)).map Prod.snd
  (TreeSet.ofList unused).toList.foldlM Netlist.removeGate net

/-- The gate that drives a target of an imported netlist. An output becomes a buffer, so that it can
be compared. -/
def targetDriver (net : Netlist) (map : GateMap) (l : Link) : Result (GateId × Netlist) := do
  let g ← Result.getOrBreach map[l.source]? .missingKey
  let gate ← net.gate g
  if gate.isOutput then return (g, ← net.setGate g ⟨.buffer, gate.inputs⟩)
  return (g, net)

/-- Compare a pair of bound targets. -/
def compareTargets (leftMap rightMap : GateMap) (net : Netlist) (pair : Link × Link) :
    Result (GateId × Netlist) := do
  let (a, net) ← targetDriver net leftMap pair.1
  let (b, net) ← targetDriver net rightMap pair.2
  net.addNary .xor [a, b]

/-- The miter of two netlists that can be combined. -/
def combine (left right : Netlist) (sources targets : Binding) : Result Netlist := do
  let (leftMap, net) ← Netlist.empty.importNet left
  let (rightMap, net) ← net.importNet right
  let net ← feedSources net.flatten leftMap rightMap sources
  let net ← removeUnused net left leftMap
  let net ← removeUnused net right rightMap
  let (differences, net) ← net.addAll (compareTargets leftMap rightMap) targets.toList
  let (y, net) ←
    if differences.isEmpty then net.addZero else net.addNary .or differences
  let (_, net) ← net.addOutput y
  net.sort

end Miter

/-- The miter of two netlists under the bindings of the hints. -/
def miter (left right : Netlist) (hints : Hints) : Traced Netlist :=
  let sources := hints.sources.getD {}
  let targets := hints.targets.getD {}
  match Miter.validate left right sources targets with
  | .error r => ⟨[.miterRefused r], .error (.refusal r)⟩
  | .ok () => .ofResult (Miter.combine left right sources targets)

end LogicNet
