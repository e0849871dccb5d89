import LogicNet.Cnf.Encode
import LogicNet.Cnf.Search
import LogicNet.Equivalence.RandomCheck

/-!
# Equivalence checking

Two netlists are equivalent under bindings when no values of the bound sources make a pair of bound
targets differ. There are several ways to find out.

* COMBINATIONAL netlists with few inputs are simulated on all patterns. Otherwise both are encoded
  in one formula that says that bound sources agree and some bound target differs.
* SEQUENTIAL netlists are cut at their bound triggers: the output of a trigger becomes a source and
  its inputs become targets. Or the two state spaces are related by an encoder and a decoder, and
  the whole is one formula.
* LARGE divided netlists are compared part by part.

What the bindings have to provide is a promise of the caller, and a broken one is a breach.
-/

namespace LogicNet

open Std

/-- The values by which two netlists differ. -/
structure Counterexample where
  /-- The values of each pair of bound source drivers, in binding order. -/
  inputs : List ValuePair
  /-- The values of each pair of bound target drivers, in binding order. -/
  outputs : List ValuePair
  /-- The formula, if the difference was found by solving one. -/
  dimacs : Option String
deriving DecidableEq, Repr

/-- The outcome of a check. -/
inductive Verdict where
  | equal
  | different (counterexample : Counterexample)
deriving DecidableEq, Repr

namespace Verdict

def isEqual : Verdict → Bool
  | .equal => true
  | .different _ => false

end Verdict

/-- The distinct pairs of drivers of the bound links, in binding order. Several links may share a
driver. -/
def driverPairs (b : Binding) : List (GateId × GateId) :=
  (b.toList.map fun (l, r) => (l.source, r.source)).eraseDups

/-- Pairs of gates of a query that are compared. -/
abbrev SitePair := Site × Site

/-- The driver pairs of a binding between two netlists of a query. -/
def sitePairs (b : Binding) (left right : Nat) : List SitePair :=
  (driverPairs b).map fun (l, r) => (⟨left, l⟩, ⟨right, r⟩)

/-- Bounds, the solver, and where to leave the formula of a failed check. -/
structure Checker where
  /-- Above this number of gates of both netlists together, bound parts are checked one by one. -/
  flatBound : Nat := 65536
  /-- Up to this number of input pairs, all patterns are simulated. -/
  simBound : Nat := 16
  dump : Option String := none
  oracle : Oracle := Search.solve

namespace Checker

/-- Ask for the formula to be written, if there is a place for it. -/
def dumpFormula (c : Checker) (f : Formula) : Traced Unit :=
  match c.dump with
  | some path => .note (.dump path f.dimacs)
  | none => pure ()

/-! ## By simulation -/

/-- The number of lanes of a word that hold different patterns. -/
def laneCount (inputs : Nat) : Nat := if 6 ≤ inputs then 64 else 1 <<< inputs

/-- The first lane in which two lists of words differ. -/
def differingLane (lanes : Nat) (left right : List Word) : Option Nat :=
  (List.range lanes).find? fun p => (left.zip right).any fun (a, b) => lane (a ^^^ b) p

/-- Go through patterns until the two simulations differ. -/
def findDifference (left right : Simulation) (lanes : Nat) :
    List (List Word) → Result (Option Counterexample)
  | [] => .ok none
  | words :: rest => do
    let (l, left) ← left.runOnce words
    let (r, right) ← right.runOnce words
    match differingLane lanes l r with
    | none => findDifference left right lanes rest
    | some p =>
      return some {
        inputs := words.map fun w => (lane w p, lane w p)
        outputs := (l.zip r).map fun (a, b) => (lane a p, lane b p)
        dimacs := none }

/-- Compare two views on all patterns of the bound sources. -/
def bySimulation (left right : View) (sources targets : Binding) : Traced Verdict := do
  let pins := driverPairs sources
  let reads := driverPairs targets
  Traced.note (.simulatingAll pins.length reads.length)
  let leftSim ← left.compile (pins.map Prod.fst) (reads.map Prod.fst)
  let rightSim ← right.compile (pins.map Prod.snd) (reads.map Prod.snd)
  let patterns ← exhaustivePatterns pins.length
  match ← findDifference leftSim.start rightSim.start (laneCount pins.length) patterns with
  | none => return .equal
  | some cex =>
    Traced.note .differ
    Traced.note (.inputValues cex.inputs)
    Traced.note (.outputValues cex.outputs)
    return .different cex

/-! ## By solving -/

/-- Variables of pairs of gates, made equal. -/
def bindInputs (f : Formula) : List SitePair → List (Nat × Nat) × Formula
  | [] => ([], f)
  | (l, r) :: rest =>
    let (x, f) := f.var l 0
    let (y, f) := f.var r 0
    let (vars, f) := bindInputs (f.buffer y x true) rest
    ((x, y) :: vars, f)

/-- Variables of pairs of gates, and for each pair a variable that is set when they differ. -/
def compareOutputs (f : Formula) : List SitePair → List (Nat × Nat) × List Nat × Formula
  | [] => ([], [], f)
  | (l, r) :: rest =>
    let (x, f) := f.var l 0
    let (y, f) := f.var r 0
    let (d, f) := f.fresh
    let (vars, differences, f) := compareOutputs (f.parity d x y true) rest
    ((x, y) :: vars, d :: differences, f)

/-- Encode the views of a query, each under its position. -/
def encodeViews (f : Formula) (views : List View) : Result Formula :=
  views.zipIdx.foldlM (fun f (v, index) => Encode.view v index 0 f) f

/-- The values of pairs of variables in the model found. -/
def valuesOf (f : Formula) (vars : List (Nat × Nat)) : Result (List ValuePair) :=
  vars.mapM fun (a, b) => do return (← f.value a, ← f.value b)

/-- Solve the formula that says: the views hold, inputs agree, and some output differs. -/
def bySolving (c : Checker) (views : List View) (reconnection : Reconnection)
    (inputs outputs : List SitePair) : Traced Verdict := do
  let (inVars, f) := bindInputs (.withReconnection reconnection) inputs
  let f ← encodeViews (← f.requireNumbered) views
  let first := f.clauses.size
  let (outVars, differences, f) := compareOutputs f outputs
  let f ← (f.add (differences.map (lit · true))).requireNumberedFrom first
  Traced.note (.solving f.size f.clauses.size)
  let (satisfiable, f) ← f.solve c.oracle
  if !satisfiable then return .equal
  let inputs ← valuesOf f inVars
  let outputs ← valuesOf f outVars
  Traced.note .differ
  Traced.note (.inputValues inputs)
  Traced.note (.outputValues outputs)
  c.dumpFormula f
  return .different ⟨inputs, outputs, some f.dimacs⟩

/-- Compare two combinational views. -/
def combinational (c : Checker) (left right : View) (sources targets : Binding) : Traced Verdict :=
  if (driverPairs sources).length ≤ c.simBound then bySimulation left right sources targets
  else c.bySolving [left, right] {} (sitePairs sources 0 1) (sitePairs targets 0 1)

/-! ## Sequential netlists -/

/-- Cut a pair of bound triggers: their outputs are compared sources, their inputs are compared
targets. -/
def cutTrigger (left right : View) (bound : Binding × Binding) (pair : Link × Link) :
    Result (Binding × Binding) := do
  let l ← left.net.gate pair.1.source
  let r ← right.net.gate pair.2.source
  Result.require (l.fn == r.fn) (.triggerFunctions l.id r.id)
  Result.require (l.arity == r.arity) (.triggerArities l.id r.id)
  let targets := (l.inputs.zip r.inputs).foldl
    (fun targets (a, b) => targets.insert (.port a.driver) (.port b.driver)) bound.2
  return (bound.1.insert (.port l.id) (.port r.id), targets)

/-- Cut all pairs of bound triggers. -/
def cutTriggers (left right : View) (sources targets triggers : Binding) :
    Result (Binding × Binding) :=
  triggers.toList.foldlM (cutTrigger left right) (sources, targets)

/-- Compare two views cut at their bound triggers. -/
def byTriggers (c : Checker) (left right : View) (sources targets triggers : Binding) :
    Traced Verdict := do
  let (sources, targets) ← cutTriggers left right sources targets triggers
  Traced.note (.cutTriggers triggers.size)
  c.combinational left right sources targets

/-- The driver of the data input of a trigger. -/
def dataDriver (v : View) (trigger : Link) : Result GateId := do
  let g ← v.net.gate trigger.source
  return (← Result.getOrBreach g.inputs.head? .outOfRange).driver

/-! In a query through a state encoding the netlists are the left one, the right one, the encoder and
the decoder, in this order. -/

/-- An encoder input is the next state of a left trigger, and the state of a left trigger is a
decoder output. -/
def reconnect (left : View) (e : StateEncoding) : Result Reconnection := do
  let nextStates ← e.leftToEncoder.toList.foldlM
    (fun (m : Reconnection) (l, port) => do
      return m.insert ⟨2, port.source⟩ ⟨0, ← dataDriver left l⟩)
    ({} : Reconnection)
  return e.leftFromDecoder.toList.foldl
    (fun m (l, port) => m.insert ⟨0, l.source⟩ ⟨3, port.source⟩) nextStates

/-- The next states of the right triggers, as the encoder gives them and as they are. -/
def nextStates (right : View) (e : StateEncoding) : Result (List SitePair) :=
  e.rightFromEncoder.toList.mapM fun (r, port) => do
    return (⟨2, port.source⟩, ⟨1, ← dataDriver right r⟩)

/-- The states of the right triggers, as the decoder reads them and as they are. -/
def states (e : StateEncoding) : List SitePair :=
  e.rightToDecoder.toList.map fun (r, port) => (⟨3, port.source⟩, ⟨1, r.source⟩)

/-- Compare two views through a relation of their states. -/
def byEncoding (c : Checker) (left right : View) (sources targets : Binding) (e : StateEncoding) :
    Traced Verdict := do
  let reconnection ← reconnect left e
  let next ← nextStates right e
  Traced.note (.encodedStates e.rightFromEncoder.size)
  c.bySolving [left, right, e.encoder.view, e.decoder.view] reconnection
    (sitePairs sources 0 1 ++ states e) (sitePairs targets 0 1 ++ next)

/-! ## Whole checks -/

/-- The bindings every check needs, as far as their sizes tell. -/
def requireBindings (left right : View) (hints : Hints) : Result (Binding × Binding) :=
  match hints.sources, hints.targets with
  | some sources, some targets => do
    Result.require (left.part.sources.size == right.part.sources.size) .sourceCounts
    Result.require (left.part.sources.size ≤ sources.size) .unboundSources
    Result.require (right.part.targets.size ≤ targets.size) .unboundTargets
    return (sources, targets)
  | _, _ => .error (.breach .noBindings)

/-- Compare two views as a whole. -/
def flat (c : Checker) (left right : View) (sources targets : Binding) (hints : Hints) :
    Traced Verdict := do
  Traced.require (left.part.isCombinational == right.part.isCombinational) .mixedKinds
  if left.part.isCombinational then return ← c.combinational left right sources targets
  match hints.triggers, hints.encoding with
  | some triggers, _ => c.byTriggers left right sources targets triggers
  | none, some e => c.byEncoding left right sources targets e
  | none, none => Traced.stop .noStateBinding

/-- The image of a boundary link of part `n`, among the links of the whole boundary or the inner
ones. -/
def boundaryImage (whole inner : Binding) (n : Nat) (l : Link) : Result Link :=
  Result.getOrBreach (whole[l]?.or inner[l]?) (.unboundBoundary l n)

/-- The hints for a pair of parts. -/
def partHints (hints : Hints) (sources targets inner : Binding) (n : Nat) (left : View) :
    Result Hints := do
  return {
    sources := some (← Hints.bind (boundaryImage sources inner n) {} left.part.sources.toList)
    targets := some (← Hints.bind (boundaryImage targets inner n) {} left.part.targets.toList)
    triggers := hints.triggers.map fun t => t.filter fun l _ => left.part.contains l.source }

/-- Compare a pair of parts. -/
def partPair (c : Checker) (left right : Netlist) (hints : Hints) (sources targets inner : Binding)
    (n m : Nat) : Traced Verdict := do
  let leftView ← left.partView n
  let rightView ← right.partView m
  let hints ← partHints hints sources targets inner n leftView
  let (sources, targets) ← requireBindings leftView rightView hints
  let verdict ← c.flat leftView rightView sources targets hints
  if !verdict.isEqual then Traced.note (.partsDiffer n m)
  return verdict

/-- Compare pairs of parts in order, up to the first one that differs. -/
def partPairs (c : Checker) (left right : Netlist) (hints : Hints)
    (sources targets inner : Binding) : List (Nat × Nat) → Traced Verdict
  | [] => return .equal
  | (n, m) :: rest => do
    let verdict ← c.partPair left right hints sources targets inner n m
    if verdict.isEqual then c.partPairs left right hints sources targets inner rest
    else return verdict

/-- Compare two divided netlists part by part. -/
def byParts (c : Checker) (left right : Netlist) (hints : Hints) (sources targets : Binding)
    (parts : PartBinding) : Traced Verdict := do
  Traced.require (!left.isFlat && !right.isFlat) .flatHierarchy
  Traced.require (left.parts.length == right.parts.length) .partCounts
  Traced.require (left.parts.length == parts.size) .unboundParts
  match hints.inner with
  | none => Traced.stop .noInnerBinding
  | some inner =>
    Traced.note (.checkingParts parts.size)
    c.partPairs left right hints sources targets inner parts.toList

/-- Check two netlists for equivalence under the bindings of the hints. -/
def check (c : Checker) (left right : Netlist) (hints : Hints) : Traced Verdict := do
  let (sources, targets) ← requireBindings left.view right.view hints
  match hints.parts with
  | some parts =>
    if c.flatBound < left.size + right.size then c.byParts left right hints sources targets parts
    else c.flat left.view right.view sources targets hints
  | none => c.flat left.view right.view sources targets hints

/-- Are the netlists equivalent? A solver that refuses proves nothing. -/
def areEqual (c : Checker) (left right : Netlist) (hints : Hints) : Traced Bool :=
  (do return (← c.check left right hints).isEqual).catchRefusal fun r => do
    Traced.note (.checkFailed r)
    return false

/-- Can the single output of a miter never be set? -/
def checkMiter (c : Checker) (net : Netlist) : Traced Bool := do
  Traced.require (net.targets.size == 1) .miterOutputs
  let out := (net.targets.toList.map Link.source).headD ⟨0⟩
  let f ← Encode.view net.view 0 0 {}
  let first := f.clauses.size
  let (y, f) := f.var ⟨0, out⟩ 0
  let f ← (f.add [lit y true]).requireNumberedFrom first
  let (satisfiable, f) ← f.solve c.oracle
  if satisfiable then
    Traced.note .miterSatisfiable
    c.dumpFormula f
  return !satisfiable

/-- Compare a netlist with its image under a correspondence of gates. -/
def equivalence (c : Checker) (left right : Netlist) (map : GateMap) : Traced Equivalence := do
  let hints ← Hints.ofMap left right map
  (do
    let verdict ← c.check left right hints
    return if verdict.isEqual then .equal else .different : Traced Equivalence).catchRefusal fun r => do
      Traced.note (.checkFailed r)
      return .unknown

end Checker

namespace RandomCheck

/-- Compare a netlist with its image under a correspondence of gates. Netlists without a miter are
different. -/
def equivalence (config : RandomCheck) (left right : Netlist) (map : GateMap) :
    Traced Equivalence := do
  let hints ← Hints.ofMap left right map
  let net ← (do return some (← miter left right hints) : Traced (Option Netlist)).catchRefusal
    fun _ => return none
  match net with
  | none => return .different
  | some net => config.check net

end RandomCheck

end LogicNet
