import LogicNet.Netlist.Basic

/-!
# Editing gates

Adding, changing and removing gates. Every edit returns the whole new netlist or a fault, so a
failing edit leaves nothing half done.

**Sharing**: `addGate` builds no second gate of a shape that `shared` knows, and for `and`, `or`,
`xor` and their negations it returns an inverter of the complementary gate if that one is known.
Sources and outputs are always built. `setGate` never shares: a gate keeps its identifier, and so
its users, whatever it becomes.

**Identifiers** are never used twice: a new gate gets a number above every number that was ever
given out or named as a driver.
-/

namespace LogicNet

namespace Netlist

/-! ## Identifiers -/

/-- The number after `n`, if it is still a 32-bit number. -/
def following (n : Nat) : Result Nat :=
  if n < GateId.largest then .ok (n + 1) else .error (.breach .overflow)

/-- Move the next free number past every driver, so that no new gate is mistaken for one. -/
def reserve (next : Nat) (inputs : List Signal) : Result Nat :=
  inputs.foldlM (fun next s => if next ≤ s.driver.index then following s.driver.index else .ok next)
    next

/-! ## Adding -/

/-- Build a gate, whether or not there is one of its shape already. -/
def build (net : Netlist) (shape : Shape) : Result (GateId × Netlist) := do
  let number ← reserve net.nextId shape.inputs
  let nextId ← following number
  let gate : Gate := { shape with id := ⟨number⟩ }
  Result.require gate.isValid (.invalidGate gate)
  let net := { net with nextId, top := net.top.insert gate, table := net.table.insert gate.id gate }
  let net ← net.connect gate.inputLinks
  return (gate.id, (net.refresh gate.id [] none).register gate)

/-- The gate found under a shape, or a new one. -/
def findOrBuild (net : Netlist) (shape : Shape) : Result (GateId × Netlist) :=
  match net.shared[shape]? with
  | some id => .ok (id, net)
  | none => net.build shape

/-- The gate found under the complementary shape. -/
def complement? (net : Netlist) (shape : Shape) : Option GateId :=
  shape.complement.bind fun s => net.shared[s]?

/-- A gate computing this shape: a known one, an inverter of the complementary one, or a new one. -/
def addGate (net : Netlist) (shape : Shape) : Result (GateId × Netlist) :=
  if shape.isShareable then
    match net.shared[shape]?, net.complement? shape with
    | some id, _ => .ok (id, net)
    | none, some base => net.findOrBuild (.nary .not [base])
    | none, none => net.build shape
  else net.build shape

/-- A placeholder, to be given a function later. -/
def addPlaceholder (net : Netlist) : Result (GateId × Netlist) := net.build ⟨.buffer, []⟩

def addInput (net : Netlist) : Result (GateId × Netlist) := net.addGate ⟨.input, []⟩

def addZero (net : Netlist) : Result (GateId × Netlist) := net.addGate ⟨.zero, []⟩

def addOne (net : Netlist) : Result (GateId × Netlist) := net.addGate ⟨.one, []⟩

/-- A gate whose inputs are all plain data. -/
def addNary (net : Netlist) (fn : GateFn) (xs : List GateId) : Result (GateId × Netlist) :=
  net.addGate (.nary fn xs)

def addOutput (net : Netlist) (x : GateId) : Result (GateId × Netlist) := net.addNary .output [x]

def addBuffer (net : Netlist) (x : GateId) : Result (GateId × Netlist) := net.addNary .buffer [x]

def addNot (net : Netlist) (x : GateId) : Result (GateId × Netlist) := net.addNary .not [x]

/-- A latch, transparent while the enable is high. -/
def addLatch (net : Netlist) (data enable : GateId) : Result (GateId × Netlist) :=
  net.addGate ⟨.latch, [.plain data, ⟨.high, enable⟩]⟩

/-- A flip-flop on the rising edge of the clock. -/
def addFlipFlop (net : Netlist) (data clock : GateId) : Result (GateId × Netlist) :=
  net.addGate ⟨.flipFlop, [.plain data, ⟨.rising, clock⟩]⟩

/-- A flip-flop with reset and set, both active while high. -/
def addFlipFlopRS (net : Netlist) (data clock reset set : GateId) : Result (GateId × Netlist) :=
  net.addGate ⟨.flipFlopRS, [.plain data, ⟨.rising, clock⟩, ⟨.high, reset⟩, ⟨.high, set⟩]⟩

/-- Several gates one after the other, with their identifiers in order. -/
def addAll {α : Type} (step : Netlist → α → Result (GateId × Netlist)) :
    Netlist → List α → Result (List GateId × Netlist)
  | net, [] => .ok ([], net)
  | net, x :: xs => do
    let (id, net) ← step net x
    let (ids, net) ← addAll step net xs
    return (id :: ids, net)

/-! ## Changing and removing -/

/-- Give a gate another shape. It keeps its identifier and its fan-out. -/
def setGate (net : Netlist) (id : GateId) (shape : Shape) : Result Netlist := do
  let old ← net.gate id
  let nextId ← reserve net.nextId shape.inputs
  let net := { net with nextId }.unregister old
  let net := (net.disconnect old.inputLinks).modifyHome id (·.unclassify old)
  let gate := { (← net.gate id) with toShape := shape }
  Result.require gate.isValid (.invalidGate gate)
  let net ← { net with table := net.table.insert id gate }.connect gate.inputLinks
  let net := net.modifyHome id fun p => (p.classify gate).disturb
  return (net.refresh id old.inputLinks none).register gate

/-- Drop all parts. -/
def flatten (net : Netlist) : Netlist :=
  { net with parts := [], home := {}, emptyParts := {}, housed := 0 }

/-- Drop all gates and parts. Numbers that were given out stay used. -/
def clear (net : Netlist) : Netlist := { nextId := net.nextId }

/-- Remove a gate. The gates it drives keep it as an external driver. A netlist that loses its last
gate loses its parts with it. -/
def removeGate (net : Netlist) (id : GateId) : Result Netlist := do
  let gate ← net.gate id
  if net.size = 1 then return net.clear
  let net := net.unregister gate
  let net := { net with table := net.table.erase id }.disconnect gate.inputLinks
  let left := net.partOf? id
  let net := { net with top := net.top.erase gate }.leavePart id gate
  return net.refresh id (gate.inputLinks ++ gate.fanout) left

end Netlist

end LogicNet
