import LogicNet.Netlist.Basic

/-!
# Designs

A netlist knows gates by identifier only. A DESIGN adds what a text says about it: the names of its
ports and flip-flops, and the names of the cells without a meaning.
-/

namespace LogicNet

open Std

/-- Gates with names, in the order of a text. -/
abbrev NamedGates := List (String × GateId)

/-- A netlist with names. -/
structure Design where
  net : Netlist := {}
  inputs : NamedGates := []
  outputs : NamedGates := []
  /-- The flip-flops. -/
  triggers : NamedGates := []
  symbols : SymbolTable := {}

namespace Design

/-- The names of gates. If a gate has several, then a trigger name counts before an output name, and
that before an input name. -/
def names (d : Design) : TreeMap GateId String :=
  (d.inputs ++ d.outputs ++ d.triggers).foldl (fun m (name, g) => m.insert g name) {}

/-- The name of a gate, or else the text of its identifier. -/
def nameOf (d : Design) (g : GateId) : String := d.names.getD g g.text

end Design

end LogicNet
