import LogicNet.Bench.Statement
import LogicNet.Design.Basic
import LogicNet.Netlist.Sort

/-!
# Reading a netlist text

Names may be used before they are defined, so every name gets its gate first: inputs in the order
of their declarations, then a placeholder for each definition. Then the definitions are filled in,
in order, and the outputs are added.

**Constants** are made on demand: the names `vdd` and `gnd`, if nothing else defines them, are a
constant one and a constant zero.

**Flip-flops** are clocked by the constant one: every step of the netlist is a clock cycle.

The netlist is sorted in the end, so a text with a combinational loop is a breach.
-/

namespace LogicNet

open Std

namespace Bench

/-- Gates by name. -/
abbrev Names := TreeMap String GateId

namespace Names

/-- Give a name to a gate. A name has one gate only. -/
def define (names : Names) (name : String) (g : GateId) : Result Names :=
  if names.contains name then .error (.refusal (.parse (.definedTwice name)))
  else .ok (names.insert name g)

/-- The gate of a name in a netlist, to which the two constants are added on demand. -/
def driver (names : Names) (net : Netlist) (name : String) : Result (GateId × Netlist) :=
  match names[name]? with
  | some g => .ok (g, net)
  | none =>
    match name with
    | "vdd" => net.addOne
    | "gnd" => net.addZero
    | _ => .error (.refusal (.parse (.undefinedName name)))

end Names

/-- Add a declared input. -/
def addInput (state : Names × Design) (name : String) : Result (Names × Design) := do
  let (names, design) := state
  let (g, net) ← design.net.addInput
  return (← names.define name g, { design with net, inputs := design.inputs ++ [(name, g)] })

/-- Add a placeholder for a definition. -/
def addPlaceholder (state : Names × Design) (d : Definition) : Result (Names × Design) := do
  let (names, design) := state
  let (g, net) ← design.net.addPlaceholder
  return (← names.define d.name g, { design with net })

/-- What a definition makes of its placeholder `g`, given the drivers of its operands. -/
def shape (design : Design) (d : Definition) (g : GateId) (drivers : List GateId) :
    Result (Shape × Design) :=
  match d.fn? with
  | some .flipFlop => do
    let (clock, net) ← design.net.addOne
    return (⟨.flipFlop, drivers.map Signal.plain ++ [⟨.rising, clock⟩]⟩,
      { design with net, triggers := design.triggers ++ [(d.name, g)] })
  | some fn => .ok (.nary fn drivers, design)
  | none => do
    let (fn, symbols) ← Result.getOrBreach (design.symbols.intern d.kind) .tooManySymbols
    return (.nary fn drivers, { design with symbols })

/-- Fill in a definition. -/
def fill (names : Names) (design : Design) (d : Definition) : Result Design := do
  let g ← Result.getOrBreach names[d.name]? .missingKey
  let (drivers, net) ← design.net.addAll names.driver d.operands
  if !d.hasArity then
    throw (.refusal (.parse (.arity d.name d.operands.length d.kind)))
  let (shape, design) ← shape { design with net } d g drivers
  return { design with net := ← design.net.setGate g shape }

/-- Add a declared output. -/
def addOutput (names : Names) (design : Design) (name : String) : Result Design := do
  let (d, net) ← names.driver design.net name
  let (g, net) ← net.addOutput d
  return { design with net, outputs := design.outputs ++ [(name, g)] }

/-- The design that statements describe. -/
def assemble (statements : List Statement) : Result Design := do
  let definitions := statements.filterMap Statement.gate?
  let state ← (statements.filterMap Statement.input?).foldlM addInput ({}, {})
  let (names, design) ← definitions.foldlM addPlaceholder state
  let design ← definitions.foldlM (fill names) design
  let design ← (statements.filterMap Statement.output?).foldlM (addOutput names) design
  return { design with net := ← design.net.sort }

/-- Read a file. -/
def read (bytes : ByteArray) : Result Design := do assemble (← statements bytes)

end Bench

end LogicNet
