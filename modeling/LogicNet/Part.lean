import LogicNet.Gate.Basic
import LogicNet.SwapErase

/-!
# Parts

A part is a set of gates of a netlist together with its BOUNDARY. The whole netlist is described
by a part, and so is each piece it is divided into.

The boundary is kept as links:

* a SOURCE link enters the part, from a driver outside it or as the port of a source inside it;
* a TARGET link leaves the part, towards a gate outside it or as the port of an output inside it.

A part also knows at which place each gate stands, its constants, its triggered gates, the number
of gate inputs in it, and whether its gates stand in topological order. The functions here keep that
knowledge up to date one gate or one link at a time, and `rebuild` computes classes and boundary from
nothing.
-/

namespace LogicNet

open Std

/-- Gates, their order, and their boundary. -/
structure Part where
  gates : List GateId := []
  /-- The place of each gate in `gates`. -/
  index : TreeMap GateId Nat := {}
  sources : LinkSet := {}
  targets : LinkSet := {}
  constants : GateSet := {}
  triggers : GateSet := {}
  /-- The number of inputs of all gates. -/
  connects : Nat := 0
  /-- The order of `gates` was found to be topological and has not been disturbed since. -/
  sorted : Bool := false

namespace Part

def size (p : Part) : Nat := p.gates.length

def isEmpty (p : Part) : Bool := p.gates.isEmpty

def contains (p : Part) (g : GateId) : Bool := p.index.contains g

/-- The order is topological. A part of at most one gate needs no sorting. -/
def isSorted (p : Part) : Bool := p.sorted || p.size ≤ 1

/-- No gate is triggered. -/
def isCombinational (p : Part) : Bool := p.triggers.isEmpty

/-- The order can no longer be relied on. -/
def disturb (p : Part) : Part := { p with sorted := p.size ≤ 1 }

/-- Account for the function and the inputs of a member. -/
def classify (p : Part) (g : Gate) : Part :=
  { p with
    constants := if g.isConstant then p.constants.insert g.id else p.constants
    triggers := if g.isTrigger then p.triggers.insert g.id else p.triggers
    connects := p.connects + g.arity }

/-- Take back `classify`. -/
def unclassify (p : Part) (g : Gate) : Part :=
  { p with
    constants := p.constants.erase g.id
    triggers := p.triggers.erase g.id
    connects := p.connects - g.arity }

/-- A new member comes last. Its boundary is not yet known. -/
def insert (p : Part) (g : Gate) : Part :=
  ({ p with gates := p.gates ++ [g.id], index := p.index.insert g.id p.size }.classify g).disturb

/-- Gate `id` leaves its place `i`, which the last member takes. -/
def vacate (p : Part) (id : GateId) (i : Nat) : Part :=
  let gates := swapEraseAt p.gates i
  let index := p.index.erase id
  { p with
    gates
    index := match gates[i]? with
      | some moved => index.insert moved i
      | none => index }

/-- A member leaves. Its boundary is not yet forgotten. -/
def erase (p : Part) (g : Gate) : Part :=
  match p.index[g.id]? with
  | some i => ((p.vacate g.id i).unclassify g).disturb
  | none => p

/-- Settle the port of gate `id`, which is `member` if it belongs to the part. -/
def settlePort (p : Part) (id : GateId) (member : Option Gate) : Part :=
  let port := Link.port id
  let sources := p.sources.erase port
  let targets := p.targets.erase port
  match member with
  | none => { p with sources, targets }
  | some g =>
    { p with
      sources := if g.isSource then sources.insert port else sources
      targets := if g.isOutput then targets.insert port else targets }

/-- Settle a link between two gates: it enters the part, leaves it, or does neither. -/
def settleEdge (p : Part) (l : Link) (live sourceIn targetIn : Bool) : Part :=
  let sources := p.sources.erase l
  let targets := p.targets.erase l
  { p with
    sources := if live && targetIn && !sourceIn then sources.insert l else sources
    targets := if live && sourceIn && !targetIn then targets.insert l else targets }

/-- Settle one member from nothing: its class, its port, and every link it is an end of. -/
def settleMember (p : Part) (g : Gate) (member : GateId → Bool) : Part :=
  let p := (p.classify g).settlePort g.id (some g)
  let p := g.inputLinks.foldl (fun p l => p.settleEdge l true (member l.source) true) p
  g.fanout.foldl (fun p l => p.settleEdge l true true (member l.target)) p

/-- Compute classes and boundary from nothing, keeping the gates and their order. -/
def rebuild (p : Part) (gate? : GateId → Option Gate) (member : GateId → Bool) : Part :=
  (p.gates.filterMap gate?).foldl (fun p g => p.settleMember g member)
    { gates := p.gates, index := p.index, sorted := p.sorted }

/-- The gates in a topological order. -/
def arrange (p : Part) (order : List GateId) : Part :=
  { p with gates := order, index := .ofList order.zipIdx, sorted := true }

end Part

end LogicNet
