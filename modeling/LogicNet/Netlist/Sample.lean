import LogicNet.Netlist.Sort
import LogicNet.Random

/-!
# Sample netlists

Netlists to try things on: one gate over some inputs, a chain and a tree of flip-flops, and random
combinational logic.

The tree adds the same flip-flop again and again, so with sharing it stays a chain. The chain is
sorted; the tree and the random netlist are left as they were built.
-/

namespace LogicNet

namespace Netlist

/-! ## One gate -/

/-- The bytes of an identifier. -/
def idBytes : Nat := 4

/-- The bytes of a part number. -/
def numberBytes : Nat := 8

/-- A netlist with its inputs and its single output. -/
structure Sample where
  net : Netlist
  inputs : List GateId
  output : GateId

/-- The same step several times. -/
def addMany (step : Netlist → Result (GateId × Netlist)) (net : Netlist) (count : Nat) :
    Result (List GateId × Netlist) :=
  net.addAll (fun net (_ : Nat) => step net) (List.range count)

/-- A single gate over `count` inputs, each inverted if asked for. -/
def naryGate (fn : GateFn) (count : Nat) (inverted : Bool) : Result Sample := do
  Result.require (0 < count) .noOperands
  Result.requireRoom count idBytes
  let (inputs, net) ← empty.addMany addInput count
  let (operands, net) ← if inverted then net.addAll addNot inputs else pure (inputs, net)
  let (x, net) ← net.addNary fn operands
  let (output, net) ← net.addOutput x
  return ⟨← net.sort, inputs, output⟩

/-! ## Flip-flops -/

/-- Flip-flops one behind the other, the first one reading `x`; returns the last one. -/
def addChain (net : Netlist) (clock : GateId) : Nat → GateId → Result (GateId × Netlist)
  | 0, x => .ok (x, net)
  | n + 1, x => do
    let (q, net) ← net.addFlipFlop x clock
    net.addChain clock n q

/-- A chain of flip-flops, and the exclusive or of its end with its input. -/
def toggleChain (length : Nat) : Result Netlist := do
  Result.require (0 < length) .noOperands
  let (input, net) ← empty.addInput
  let (clock, net) ← net.addInput
  let (last, net) ← net.addChain clock length input
  let (x, net) ← net.addNary .xor [last, input]
  let (_, net) ← net.addOutput x
  net.sort

/-- Stages of flip-flops, `expansion` for each one of the stage before; returns the last stage. -/
def addStages (net : Netlist) (clock : GateId) (expansion : Nat) :
    Nat → List GateId → Result (List GateId × Netlist)
  | 0, stage => .ok (stage, net)
  | depth + 1, stage => do
    let readers := stage.flatMap fun x => List.replicate expansion x
    let (stage, net) ← net.addAll (fun net x => net.addFlipFlop x clock) readers
    net.addStages clock expansion depth stage

/-- A tree of flip-flops with an output at each leaf. -/
def flipFlopTree (depth expansion : Nat) : Result Netlist := do
  let (input, net) ← empty.addInput
  let (clock, net) ← net.addInput
  let (leaves, net) ← net.addStages clock expansion depth [input]
  let (_, net) ← net.addAll addOutput leaves
  return net

/-! ## Random logic -/

section Random

variable {σ : Type} [WordSource σ]

/-- The functions random logic is made of. -/
def randomFns : List GateFn := [.and, .or, .xor, .nand, .nor, .xnor, .not, .majority]

/-- A random function and the number of its inputs: one for an inverter, three for a majority, two
to four for the others. -/
def drawFn (tries : Nat) (s : σ) : Option (GateFn × Nat × σ) := do
  let (i, s) ← drawBelow randomFns.length tries s
  match randomFns.getD i .not with
  | .not => return (.not, 1, s)
  | .majority => return (.majority, 3, s)
  | fn =>
    let (more, s) ← drawBelow 3 tries s
    return (fn, 2 + more, s)

/-- A random function applied to random gates of the pool. -/
def drawShape (tries : Nat) (pool : List GateId) (s : σ) : Option (Shape × σ) := do
  let (fn, arity, s) ← drawFn tries s
  let (operands, s) ← drawFrom tries pool arity s
  return (.nary fn operands, s)

/-- Add random gates until there are `count`, in at most so many rounds. Gates that were really built
join the pool. -/
def grow (tries count : Nat) : Nat → σ → Netlist → List GateId → Result (Netlist × List GateId)
  | 0, _, _, _ => .error (.breach .outOfDraws)
  | rounds + 1, s, net, pool =>
    if count ≤ net.size then .ok (net, pool)
    else do
      let (shape, s) ← Result.getOrBreach (drawShape tries pool s) .outOfDraws
      let (id, grown) ← net.addGate shape
      grow tries count rounds s grown (if net.size < grown.size then pool ++ [id] else pool)

/-- Divide a netlist into `count` parts of nearly equal size, by the order of its gates. -/
def divide (net : Netlist) (count : Nat) : Result Netlist := do
  Result.requireRoom count numberBytes
  let order := net.gates
  let start := net.parts.length
  let net := (List.range count).foldl (fun net _ => net.addPart.2) net
  let net ← order.zipIdx.foldlM
    (fun net (id, i) => net.moveGate id (some (start + i * count / order.length))) net
  return net.removeEmptyParts

/-- Random combinational logic of at least `count` gates, divided into at most `parts` parts. Gates
that drive nothing get an output. A draw is given up after so many tries, and the whole after so many
rounds. -/
def randomLogicWithin (tries rounds count parts : Nat) (s : σ) : Result Netlist := do
  let (inputs, net) ← empty.addMany addInput (4 + count / 16)
  let (net, pool) ← grow tries count rounds s net inputs
  let unused := pool.filter fun id => (net.gate? id).any (·.fanout.isEmpty)
  let (_, net) ← net.addAll addOutput unused
  if parts = 0 then return net
  net.divide parts

/-- Random logic within limits that are out of reach in practice. -/
def randomLogic (count parts : Nat) (s : σ) : Result Netlist :=
  randomLogicWithin triesPerDraw (64 * (count + 1)) count parts s

end Random

end Netlist

end LogicNet
