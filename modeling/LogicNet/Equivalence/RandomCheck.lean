import LogicNet.Equivalence.Miter
import LogicNet.Simulation.Basic

/-!
# Checking a miter by simulation

All patterns are tried if there are few inputs, and random ones otherwise. Only the first way can
prove equivalence; the second finds a difference or learns nothing. The random words may come from
any source; `check` grows them from a seed.
-/

namespace LogicNet

open Std

/-- What a check by simulation finds out. -/
inductive Equivalence where
  | equal
  | different
  /-- No difference was found, and not all patterns were tried. -/
  | unknown
deriving DecidableEq, Repr

/-- How much is simulated. -/
structure RandomCheck where
  /-- The number of random words. -/
  tries : Nat := 64
  /-- Up to this number of inputs all patterns are tried. -/
  exhaustiveBound : Nat := 20
  seed : Word := 1

namespace RandomCheck

/-- Does some word of patterns set the first output? -/
def findsSet (s : Simulation) : List (List Word) → Result Bool
  | [] => .ok false
  | words :: rest => do
    let (out, s) ← s.runOnce words
    if out.headD 0 != 0 then return true
    findsSet s rest

/-- Look for a pattern that sets the output of a combinational miter, with words from a source. -/
def checkFrom {σ : Type} [WordSource σ] (config : RandomCheck) (s : σ) (net : Netlist) :
    Traced Equivalence := do
  Traced.require net.isCombinational .sequentialMiter
  Traced.require (net.targets.size == 1) .miterOutputs
  let inputs := (TreeSet.ofList (net.sources.toList.map Link.source)).toList
  let sim ← net.view.compile inputs (net.targets.toList.map Link.source)
  let exhaustive := inputs.length ≤ config.exhaustiveBound
  let patterns ←
    if exhaustive then exhaustivePatterns inputs.length
    else patternsFrom inputs.length config.tries s
  Traced.note (.simulatingMiter patterns.length inputs.length)
  if ← findsSet sim.start patterns then
    Traced.note .miterSimulatedTrue
    return .different
  return if exhaustive then .equal else .unknown

/-- The check with words grown from the seed. -/
def check (config : RandomCheck) (net : Netlist) : Traced Equivalence :=
  config.checkFrom (Xoshiro.ofSeed config.seed) net

end RandomCheck

end LogicNet
