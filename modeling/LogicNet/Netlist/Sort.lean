import LogicNet.Netlist.Division
import LogicNet.TopologicalOrder

/-!
# Sorting netlists

A gate depends on its drivers, unless it is triggered: a triggered gate takes its value from the
step before, so its inputs are no dependencies. A loop of dependencies is a COMBINATIONAL loop, and
a netlist with one cannot be sorted.

A divided netlist is sorted part by part. The parts are ordered by the dependencies between them
and their gates are kept together. If the parts depend on each other in a circle, the gates are
ordered as if there were no parts; each part still keeps an order of its own.
-/

namespace LogicNet

open Std

namespace Netlist

/-- How many inputs of a gate have to be placed before it. -/
def dependencies (net : Netlist) (member : GateId → Bool) (id : GateId) : Nat :=
  match net.gate? id with
  | some g => if g.isTrigger then 0 else g.inputs.countP fun s => member s.driver
  | none => 0

/-- The gates that wait for gate `id`, one entry for each input it drives. -/
def followers (net : Netlist) (id : GateId) : List GateId :=
  match net.gate? id with
  | some g => (g.fanout.map Link.target).filter fun t => !(net.gate? t).any (·.isTrigger)
  | none => []

/-- Order some gates so that each comes after the drivers among them; `none` on a loop. -/
def combOrder (net : Netlist) (ids : List GateId) (member : GateId → Bool) : Option (List GateId) :=
  topologicalOrder ids (net.dependencies member) net.followers

/-- An order of all gates that pays no attention to parts. -/
def flatOrder (net : Netlist) : Result (List GateId) :=
  Result.getOrBreach (net.combOrder net.gates net.contains) .loop

/-- An order of the gates of each part. -/
def partOrders (net : Netlist) : Result (List (List GateId)) :=
  net.parts.zipIdx.mapM fun (p, n) =>
    Result.getOrBreach (net.combOrder p.gates (net.inPart n)) (.loopInPart n)

/-- The other parts that depend on each part, in the order of their numbers. -/
def partFollowers (net : Netlist) : List (List Nat) :=
  net.parts.zipIdx.map fun (p, n) =>
    let reached := (p.gates.flatMap net.followers).filterMap net.partOf?
    (TreeSet.ofList (reached.filter (· ≠ n))).toList

/-- An order of the parts; `none` if they depend on each other in a circle. -/
def partOrder (net : Netlist) : Option (List Nat) :=
  let graph := net.partFollowers
  topologicalOrder (List.range net.parts.length) (fun t => graph.countP (·.contains t))
    (fun n => graph.getD n [])

/-- Take over orders of all gates and of the gates of each part. -/
def arrange (net : Netlist) (order : List GateId) (orders : List (List GateId)) : Netlist :=
  { net with
    top := net.top.arrange order
    parts := List.zipWith Part.arrange net.parts orders }

/-- Sort a well-formed netlist topologically. -/
def sort (net : Netlist) : Result Netlist := do
  Result.require net.isWellFormed .malformedOrder
  if net.isSorted then return net
  if net.isFlat then return net.arrange (← net.flatOrder) []
  let orders ← net.partOrders
  let order ← match net.partOrder with
    | some ns => pure (ns.flatMap fun n => orders.getD n [])
    | none => net.flatOrder
  return net.arrange order orders

end Netlist

end LogicNet
