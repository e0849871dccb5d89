import LogicNet.Netlist.Basic

/-!
# Tallies

What a netlist is made of, counted by kind of gate, and the texts that show a netlist to a reader.
Inputs, outputs and placeholders are counted by their links and not as gates.
-/

namespace LogicNet

/-- How many gates of each kind a netlist has. -/
structure Tally where
  inputs : Nat
  outputs : Nat
  parts : Nat
  constants : Nat
  /-- The numbers of inputs of the `and`, `or`, `nand` and `nor` gates. -/
  andArities : List Nat
  /-- The numbers of inputs of the `xor` and `xnor` gates. -/
  xorArities : List Nat
  majorities : Nat
  buffers : Nat
  inverters : Nat
  latches : Nat
  /-- All flip-flops, with and without reset and set. -/
  flipFlops : Nat
  flipFlopsRS : Nat
  cells : Nat
deriving DecidableEq, Repr

/-- For each number up to the largest, how often it occurs; nothing if there is no number. -/
def histogram (ns : List Nat) : List Nat :=
  match ns.max? with
  | none => []
  | some top => (List.range (top + 1)).map ns.count

namespace Tally

/-- The number of logic gates, triggered ones included. -/
def gates (t : Tally) : Nat :=
  t.andArities.length + t.xorArities.length + t.majorities + t.buffers + t.inverters + t.latches
    + t.flipFlops + t.cells

/-- A line for a count that is not zero. -/
def entry (label : String) (count : Nat) : List String :=
  if count = 0 then [] else ["  " ++ label ++ ": " ++ toString count]

/-- A line for each number of inputs that occurs. -/
def arityLines (arities : List Nat) : List String :=
  ((histogram arities).zipIdx.filter fun (count, _) => count ≠ 0).map fun (count, arity) =>
    "      " ++ toString arity ++ ": " ++ toString count

def lines (t : Tally) : List String :=
  ["Stats:", "  Inputs: " ++ toString t.inputs, "  Outputs: " ++ toString t.outputs,
    "  Gates: " ++ toString t.gates]
  ++ entry "Subnets" t.parts
  ++ entry "Constants" t.constants
  ++ entry "Latch" t.latches
  ++ entry "Dff" t.flipFlops
  ++ (if t.flipFlopsRS = 0 then [] else ["      reset/set: " ++ toString t.flipFlopsRS])
  ++ entry "And" t.andArities.length ++ arityLines t.andArities
  ++ entry "Xor" t.xorArities.length ++ arityLines t.xorArities
  ++ entry "Maj" t.majorities
  ++ entry "Not" t.inverters
  ++ entry "Buf" t.buffers
  ++ entry "Custom" t.cells

/-- One line after the other, each with its line end. -/
def text (t : Tally) : String := String.join (t.lines.map (· ++ "\n"))

end Tally

namespace Netlist

/-- Count the gates of a netlist. -/
def tally (net : Netlist) : Tally :=
  let gates := net.gates.filterMap net.gate?
  let count (fns : List GateFn) : Nat := gates.countP fun g => fns.contains g.fn
  let arities (fns : List GateFn) : List Nat :=
    (gates.filter fun g => fns.contains g.fn).map (·.arity)
  { inputs := net.sources.size
    outputs := net.targets.size
    parts := net.parts.length
    constants := count [.zero, .one]
    andArities := arities [.and, .or, .nand, .nor]
    xorArities := arities [.xor, .xnor]
    majorities := count [.majority]
    buffers := gates.countP fun g => g.fn == .buffer && g.arity != 0
    inverters := count [.not]
    latches := count [.latch]
    flipFlops := count [.flipFlop, .flipFlopRS]
    flipFlopsRS := count [.flipFlopRS]
    cells := gates.countP fun g => match g.fn with
      | .custom _ => true
      | _ => false }

/-- A gate in a listing, after the number of its part. -/
def listingLine (net : Netlist) (g : Gate) : String :=
  match net.partOf? g.id with
  | some n => "  [" ++ toString n ++ "] " ++ g.detail
  | none => "  " ++ g.detail

/-- The sizes of a netlist and all its gates in order. -/
def listing (net : Netlist) : String :=
  let head := "GNet: " ++ toString net.size ++ " gates, " ++ toString net.sources.size
    ++ " sources, " ++ toString net.targets.size ++ " targets, " ++ toString net.parts.length
    ++ " subnets"
  String.join ((head :: (net.gates.filterMap net.gate?).map net.listingLine).map (· ++ "\n"))

end Netlist

end LogicNet
