import LogicNet.Netlist.Division

/-!
# Correspondences between two netlists

Two netlists are compared under BINDINGS: which source of the left one is which source of the right
one, and likewise for targets and triggers. A binding is a table from left links to right links,
and its order is the order of the left links.

`Hints.ofMap` derives all bindings from a correspondence between the gates.
-/

namespace LogicNet

open Std

/-- Left links with their right links. -/
abbrev Binding := TreeMap Link Link

/-- Left parts with their right parts. -/
abbrev PartBinding := TreeMap Nat Nat

/-- A relation between the states of two sequential netlists. The encoder computes the right state
from the left one and the decoder the left state from the right one. Triggers are named by their
ports. -/
structure StateEncoding where
  encoder : Netlist
  decoder : Netlist
  /-- Left trigger to the encoder input that its next state feeds. -/
  leftToEncoder : Binding
  /-- Left trigger to the decoder output that gives its state. -/
  leftFromDecoder : Binding
  /-- Right trigger to the encoder output that gives its next state. -/
  rightFromEncoder : Binding
  /-- Right trigger to the decoder input that its state feeds. -/
  rightToDecoder : Binding

/-- What a check is told about two netlists. -/
structure Hints where
  sources : Option Binding := none
  targets : Option Binding := none
  triggers : Option Binding := none
  encoding : Option StateEncoding := none
  parts : Option PartBinding := none
  /-- Links between parts. -/
  inner : Option Binding := none

namespace Hints

/-- The image of a gate, which must have one. -/
def mapGate (map : GateMap) (g : GateId) : Result GateId :=
  Result.getOrBreach map[g]? (.noCounterpart g)

/-- The image of an edge. A driver without image is external and stands for itself. -/
def mapEdge (map : GateMap) (l : Link) : Result Link := do
  return ⟨map.getD l.source l.source, ← mapGate map l.target, l.pin⟩

/-- The image of a boundary link. An edge whose driver has a port on the right boundary becomes that
port. -/
def mapBoundary (right : Netlist) (map : GateMap) (l : Link) : Result Link := do
  if l.isPort then return .port (← mapGate map l.source)
  let image ← mapEdge map l
  let port := Link.port image.source
  return if right.sources.contains port || right.targets.contains port then port else image

/-- Bind each of some links to its image. -/
def bind (image : Link → Result Link) (binding : Binding) (links : List Link) : Result Binding :=
  links.foldlM (fun binding l => do return binding.insert l (← image l)) binding

/-- Bind a left part to the part its first gate is in on the right, and its inner links. -/
def bindPart (left right : Netlist) (map : GateMap) (bound : PartBinding × Binding) (n : Nat) :
    Result (PartBinding × Binding) := do
  let part ← left.part n
  match part.gates.head? with
  | none => return bound
  | some g =>
    match right.partOf? (← mapGate map g) with
    | none => return bound
    | some m =>
      let links := (part.sources.toList ++ part.targets.toList).filter (!·.isPort)
      return (bound.1.insert n m, ← bind (mapEdge map) bound.2 links)

/-- The bindings that follow from a correspondence of gates, typically the one that came with a
copy. The parts are bound as well when both netlists have the same number of them. -/
def ofMap (left right : Netlist) (map : GateMap) : Result Hints := do
  let image := mapBoundary right map
  let sources ← bind image {} left.sources.toList
  let targets ← bind image {} left.targets.toList
  let triggers ← bind image {} (left.top.triggers.toList.map Link.port)
  let hints : Hints := { sources := some sources, targets := some targets, triggers := some triggers }
  if left.parts.isEmpty || left.parts.length ≠ right.parts.length then return hints
  let (parts, inner) ←
    (List.range left.parts.length).foldlM (bindPart left right map) ({}, {})
  return { hints with parts := some parts, inner := some inner }

end Hints

end LogicNet
