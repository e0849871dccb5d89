import LogicNet.Netlist.View
import LogicNet.Simulation.Pattern

/-!
# Simulation

A view is compiled once into a straight program over value SLOTS, one for each gate or driver that
has a value, and the program is then run on sixty-four patterns at a time.

**Pins** are the gates whose values are given. A pin is written into its slot and never evaluated,
whatever its function, so pinning a gate cuts the netlist there; flip-flops too.

**State**: triggered gates hold a value, at first zero. A step reads the held values, and the held
values change together between two steps: one step is one active clock edge. What is neither
pinned, nor evaluated, nor triggered (an unpinned source, a driver outside the view) stays zero.

**Runs** change the values of a simulation, and leave them to the next run, which starts by zeroing
them.
-/

namespace LogicNet

/-! ## Words -/

/-- In each lane, at least two of three values are set. -/
def majority3 (a b c : Word) : Word := (b &&& c) ||| (a &&& (b ||| c))

/-- In each lane, more than half of the values are set. -/
def majorityWord (xs : List Word) : Word :=
  (List.range 64).foldl
    (fun acc p =>
      if xs.length < 2 * xs.countP (lane · p) then acc ||| ((1 : Word) <<< p.toUInt64) else acc)
    0

/-- In each lane, `a` where `s` is set and `b` elsewhere. -/
def selectWord (s a b : Word) : Word := (s &&& a) ||| (~~~s &&& b)

def andWords (xs : List Word) : Word := xs.foldl (· &&& ·) allLanes

def orWords (xs : List Word) : Word := xs.foldl (· ||| ·) 0

def xorWords (xs : List Word) : Word := xs.foldl (· ^^^ ·) 0

namespace GateFn

/-- The word a function computes from the words of its inputs and the word its gate holds. -/
def evalWord (fn : GateFn) (held : Word) (xs : List Word) : Word :=
  let x (i : Nat) : Word := xs.getD i 0
  match fn with
  | .zero => 0
  | .one => allLanes
  | .buffer | .output => x 0
  | .not => ~~~x 0
  | .and => andWords xs
  | .or => orWords xs
  | .xor => xorWords xs
  | .nand => ~~~andWords xs
  | .nor => ~~~orWords xs
  | .xnor => ~~~xorWords xs
  | .majority => if xs.length = 3 then majority3 (x 0) (x 1) (x 2) else majorityWord xs
  | .latch => selectWord (x 1) (x 0) held
  | .flipFlop => x 0
  | .flipFlopRS => ~~~x 2 &&& (x 3 ||| x 0)
  | .input | .custom _ => 0

/-- The cell has a name and no meaning. -/
def isUninterpreted : GateFn → Bool
  | .custom _ => true
  | _ => false

end GateFn

/-! ## Programs -/

/-- One gate to evaluate: its function, the slot of its value and the slots it reads. -/
structure Instruction where
  fn : GateFn
  out : Nat
  args : List Nat
deriving DecidableEq, Repr

namespace Instruction

def eval (i : Instruction) (values : Array Word) : Word :=
  i.fn.evalWord (values.getD i.out 0) (i.args.map fun a => values.getD a 0)

end Instruction

/-- A compiled view. -/
structure Simulator where
  /-- The number of slots. -/
  slots : Nat
  /-- The combinational gates, in topological order. -/
  logic : List Instruction
  /-- The triggered gates. -/
  memory : List Instruction
  inputs : List Nat
  outputs : List Nat
deriving DecidableEq, Repr

namespace View

/-- The gates a simulation evaluates: neither pinned nor sources. -/
def evaluated (v : View) (pins : List GateId) (order : List GateId) : List Gate :=
  (order.filter fun id => !pins.contains id).filterMap fun id =>
    (v.net.gate? id).filter fun g => !g.isSource

/-- Compile a view, with the gates whose values are given and the gates whose values are read. The
pins may be gates of the view or drivers outside it. -/
def compile (v : View) (pins outputs : List GateId) : Result Simulator := do
  let order ← v.orderedGates
  let gates := v.evaluated pins order
  match gates.find? (·.fn.isUninterpreted) with
  | some g => throw (.breach (.unsimulatedGate g))
  | none => pure ()
  let valued := (pins ++ order ++ gates.flatMap fun g => g.inputs.map (·.driver)).eraseDups
  match outputs.find? fun id => !valued.contains id with
  | some id => throw (.breach (.unsimulatedOutput id))
  | none => pure ()
  let slot (id : GateId) : Nat := valued.idxOf id
  let instruction (g : Gate) : Instruction :=
    ⟨g.fn, slot g.id, g.inputs.map fun s => slot s.driver⟩
  return {
    slots := valued.length
    logic := (gates.filter fun g => !g.isTrigger).map instruction
    memory := (gates.filter fun g => g.isTrigger).map instruction
    inputs := pins.map slot
    outputs := outputs.map slot }

end View

namespace Simulator

/-- All values and states zero. -/
def zeros (sim : Simulator) : Array Word := Array.replicate sim.slots 0

/-- Write the pins. There must be as many words as pins. -/
def feed (sim : Simulator) (words : List Word) (values : Array Word) : Result (Array Word) :=
  if words.length = sim.inputs.length then
    .ok ((sim.inputs.zip words).foldl (fun values (slot, w) => values.setIfInBounds slot w) values)
  else .error (.breach .stepWidth)

/-- Evaluate the combinational gates in order. -/
def settle (sim : Simulator) (values : Array Word) : Array Word :=
  sim.logic.foldl (fun values i => values.setIfInBounds i.out (i.eval values)) values

/-- Change all held values together. -/
def advance (sim : Simulator) (values : Array Word) : Array Word :=
  let next := sim.memory.map fun i => (i.out, i.eval values)
  next.foldl (fun values (slot, w) => values.setIfInBounds slot w) values

def read (sim : Simulator) (values : Array Word) : List Word :=
  sim.outputs.map fun slot => values.getD slot 0

/-- One step: the words of the outputs and the values it ends with. -/
def step (sim : Simulator) (values : Array Word) (words : List Word) :
    Result (List Word × Array Word) := do
  let values := sim.settle (← sim.feed words values)
  return (sim.read values, values)

/-- Further steps, with an active edge before each of them: the words of the outputs at each step,
and the values that the last one ends with. -/
def resume (sim : Simulator) :
    Array Word → List (List Word) → Result (List (List Word) × Array Word)
  | values, [] => .ok ([], values)
  | values, words :: rest => do
    let (out, values) ← sim.step (sim.advance values) words
    let (rows, values) ← sim.resume values rest
    return (out :: rows, values)

end Simulator

/-! ## Runs -/

/-- A simulator at work. What a run leaves in the slots is there when the next one begins. -/
structure Simulation where
  sim : Simulator
  values : Array Word
deriving DecidableEq, Repr

namespace Simulation

/-- Set all values and states to zero. -/
def reset (s : Simulation) : Simulation :=
  { s with values := Array.replicate s.values.size 0 }

/-- Several steps from the zero state: the words of the outputs at each step. -/
def run (s : Simulation) : List (List Word) → Result (List (List Word) × Simulation)
  | [] => .ok ([], s.reset)
  | words :: rest => do
    let (out, values) ← s.sim.step s.reset.values words
    let (rows, values) ← s.sim.resume values rest
    return (out :: rows, { s with values })

/-- A single step from the zero state. -/
def runOnce (s : Simulation) (words : List Word) : Result (List Word × Simulation) := do
  let (out, values) ← s.sim.step s.reset.values words
  return (out, { s with values })

end Simulation

namespace Simulator

def start (sim : Simulator) : Simulation := ⟨sim, sim.zeros⟩

/-- What the first run returns. -/
def run (sim : Simulator) (steps : List (List Word)) : Result (List (List Word)) := do
  return (← sim.start.run steps).1

/-- What the first run returns, if it is a single step. -/
def runOnce (sim : Simulator) (words : List Word) : Result (List Word) := do
  return (← sim.start.runOnce words).1

end Simulator

/-! ## Single patterns -/

namespace Netlist

/-- Simulate one pattern at each step. -/
def simulate (net : Netlist) (inputs outputs : List GateId) (values : List (List Bool)) :
    Result (List (List Bool)) := do
  let sim ← net.view.compile inputs outputs
  let words ← sim.run (values.map fun row => row.map spread)
  return words.map fun row => row.map (· != 0)

/-- Simulate a combinational netlist on one pattern. -/
def simulateOnce (net : Netlist) (inputs outputs : List GateId) (values : List Bool) :
    Result (List Bool) := do
  Result.require net.isCombinational .sequentialStep
  return (← net.simulate inputs outputs [values]).headD []

end Netlist

end LogicNet
