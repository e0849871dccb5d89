import LogicNet.Netlist.Basic

/-!
# Combinational flow

Does a change of one gate reach another one within the same step? It travels along the fan-out and
stops at triggered gates. The question guards an edit: a gate that is not triggered may be rewired to
drivers that it has no flow to, without closing a combinational loop.
-/

namespace LogicNet

open Std

namespace Netlist

/-- The walk from some gates. `seen` holds the gates that were ever put on the stack, so a gate is
left at most once and the number of gates bounds the number of rounds. -/
def flowsFrom (net : Netlist) (goal : GateId → Bool) : Nat → List GateId → GateSet → Result Bool
  | 0, _, _ => .ok false
  | _ + 1, [], _ => .ok false
  | rounds + 1, id :: stack, seen => do
    let gate ← net.gate id
    let reached := gate.fanout.map Link.target
    if reached.any goal then return true
    let (stack, seen) ← reached.foldlM
      (fun (stack, seen) t => do
        let next ← net.gate t
        if next.isTrigger || seen.contains t then return (stack, seen)
        return (t :: stack, seen.insert t))
      (stack, seen)
    net.flowsFrom goal rounds stack seen

/-- A combinational path leads from gate `id` to one of the goals. A triggered gate has no flow at
all, and any other gate flows to itself. -/
def hasCombFlow (net : Netlist) (id : GateId) (goals : List GateId) : Result Bool := do
  if goals.isEmpty then return false
  let gate ← net.gate id
  if gate.isTrigger then return false
  if goals.contains id then return true
  net.flowsFrom goals.contains net.size [id] (TreeSet.ofList [id])

end Netlist

end LogicNet
