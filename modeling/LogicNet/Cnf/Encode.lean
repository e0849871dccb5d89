import LogicNet.Cnf.Rule
import LogicNet.Netlist.View

/-!
# Encoding netlists

Every gate of a view becomes an equation between variables, at one version. Several netlists can be
encoded into one formula, each under its own position, and one netlist at several versions.

**Versions** are time steps. A triggered gate is free at version zero; at a later version it takes
its next value, and whoever reads it reads the value of the version before. Whether a DRIVER is read
from the version before depends on its events, as everywhere; whether an equation is left out at
version zero depends on the function.

**Literals** can be made of so many variables only. A gate whose equation needs a literal beyond that
stops the encoding.
-/

namespace LogicNet

namespace Encode

/-- Versions are 16-bit numbers; this is the largest one. -/
def lastVersion : Nat := 65535

/-- The version at which a driver is read. -/
def readVersion (net : Netlist) (driver : GateId) (version : Nat) : Nat :=
  if (net.gate? driver).any (·.isTrigger) then version - 1 else version

/-- The equation of gate `g` of netlist number `index`, over the variable `y` of its value and the
variables `xs` of its inputs. -/
def equation (f : Formula) (g : Gate) (index version y : Nat) (xs : List Nat) : Result Formula :=
  let x (i : Nat) : Nat := xs.getD i 0
  match g.fn, version with
  | .input, _ => .ok f
  | .buffer, _ | .output, _ =>
    match xs with
    | [] => .ok f
    | a :: _ => .ok (f.buffer y a true)
  | .not, _ => .ok (f.buffer y (x 0) false)
  | .zero, _ => .ok (f.fix y false)
  | .one, _ => .ok (f.fix y true)
  | .and, _ => .ok (f.conj y xs true)
  | .nand, _ => .ok (f.conj y xs false)
  | .or, _ => .ok (f.disj y xs true)
  | .nor, _ => .ok (f.disj y xs false)
  | .xor, _ => f.parityChain y xs true
  | .xnor, _ => f.parityChain y xs false
  | .majority, _ => f.majority y xs
  | .latch, 0 | .flipFlop, 0 | .flipFlopRS, 0 => .ok f
  | .latch, before + 1 =>
    let (held, f) := f.var ⟨index, g.id⟩ before
    .ok (f.select y (x 1) (x 0) held)
  | .flipFlop, _ + 1 => .ok (f.buffer y (x 0) true)
  | .flipFlopRS, _ + 1 =>
    let (t, f) := f.fresh
    let f := f.disj t [x 3, x 0] true
    let (running, f) := f.fresh
    let f := f.buffer running (x 2) false
    .ok (f.conj y [running, t] true)
  | .custom _, _ => .error (.breach (.unencodedGate g))

/-- The formula with one gate of netlist number `index`, whether or not its literals can be made. -/
def draftGate (net : Netlist) (index version : Nat) (f : Formula) (g : Gate) : Result Formula :=
  let (y, f) := f.var ⟨index, g.id⟩ version
  let (xs, f) := f.varsOf (g.inputs.map fun s =>
    (⟨index, s.driver⟩, readVersion net s.driver version))
  equation f g index version y xs

/-- Encode one gate of netlist number `index`. -/
def gate (net : Netlist) (index version : Nat) (f : Formula) (g : Gate) : Result Formula := do
  let first := f.clauses.size
  (← draftGate net index version f g).requireNumberedFrom first

/-- Encode all gates of a view, in topological order. -/
def view (v : View) (index version : Nat) (f : Formula) : Result Formula := do
  let order ← v.orderedGates
  order.foldlM (fun f id => do gate v.net index version f (← v.net.gate id)) f

end Encode

/-! ## Unrolling over cycles -/

/-- A netlist unrolled over clock cycles in one formula. Cycles start at one, so that the state
before the first cycle is free. -/
structure Unrolling where
  cycle : Nat := 1
  formula : Formula := {}

namespace Unrolling

/-- Encode the netlist at the current cycle. -/
def encode (u : Unrolling) (net : Netlist) : Result Unrolling := do
  return { u with formula := ← Encode.view net.view 0 u.cycle u.formula }

/-- Go to the next cycle. -/
def tick (u : Unrolling) : Result Unrolling :=
  if u.cycle < Encode.lastVersion then .ok { u with cycle := u.cycle + 1 }
  else .error (.breach .overflow)

/-- Encode the netlist over several cycles, from the current one on. -/
def encodeCycles (u : Unrolling) (net : Netlist) : Nat → Result Unrolling
  | 0 => .ok u
  | n + 1 => do
    let u ← u.encode net
    let u ← u.tick
    u.encodeCycles net n

end Unrolling

end LogicNet
