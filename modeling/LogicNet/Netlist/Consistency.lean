import LogicNet.Netlist.Division

/-!
# Consistency

`isConsistent` compares everything a netlist keeps beside its gate table with what the table says:
fan-out, boundaries, membership, tallies. It is a test, to be run on a netlist whose history is not
known; the operations of this library are meant never to produce a netlist that fails it.
-/

namespace LogicNet

namespace Netlist

/-- A gate stands under its own identifier, is valid, and its links agree with its neighbours. -/
def gateIsConsistent (net : Netlist) (id : GateId) (g : Gate) : Bool :=
  g.id == id && net.top.contains id && g.isValid
    && g.inputLinks.all (fun l => (net.gate? l.source).all fun d => d.fanout.contains l)
    && g.fanout.all net.hasEdge

/-- Two parts have the same boundary. -/
def sameBoundary (p q : Part) : Bool :=
  p.sources.toList == q.sources.toList && p.targets.toList == q.targets.toList

/-- Everything kept beside the gate table agrees with it. -/
def isConsistent (net : Netlist) : Bool :=
  let top := net.top.rebuild net.gate? net.contains
  net.top.size == net.size
    && net.table.toList.all (fun (id, g) => net.gateIsConsistent id g)
    && sameBoundary top net.top && top.connects == net.top.connects
    && net.parts.zipIdx.all (fun (p, n) =>
      p.isEmpty == net.emptyParts.contains n
        && sameBoundary (p.rebuild net.gate? (net.inPart n)) p && p.gates.all (net.inPart n))
    && net.parts.foldl (· + ·.size) 0 == net.housed

end Netlist

end LogicNet
