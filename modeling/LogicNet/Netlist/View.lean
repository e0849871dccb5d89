import LogicNet.Netlist.Sort

/-!
# Views

What simulation and encoding look at: a whole netlist or one of its parts. A view keeps the gate
table of the whole netlist at hand, so that drivers outside a part can still be inspected.
-/

namespace LogicNet

/-- A netlist, seen whole or through one of its parts. -/
structure View where
  net : Netlist
  part : Part
  /-- The view covers the whole netlist. -/
  isTop : Bool

namespace Netlist

/-- The whole netlist. -/
def view (net : Netlist) : View := ⟨net, net.top, true⟩

/-- One part of the netlist. -/
def partView (net : Netlist) (n : Nat) : Result View := do
  return ⟨net, ← net.part n, false⟩

end Netlist

namespace View

/-- The gates in topological order, which is computed if they do not stand in one. -/
def orderedGates (v : View) : Result (List GateId) :=
  if v.part.isSorted then .ok v.part.gates
  else Result.getOrBreach (v.net.combOrder v.part.gates v.part.contains) .loop

end View

end LogicNet
