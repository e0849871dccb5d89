import LogicNet.Design.Basic
import LogicNet.Equivalence.Checker

/-!
# Reporting a difference

A counterexample lists values in binding order and names no gate. Which gates these are follows from
the bindings: the sources and targets, and in a sequential design also the flip-flops, which are cut
into an input of their state and outputs of what they read.
-/

namespace LogicNet

open Std

namespace Design

/-- Add the ports of gates to a set of links. -/
def addPorts (links : LinkSet) (gates : List GateId) : LinkSet :=
  gates.foldl (fun s g => s.insert (.port g)) links

/-- The left links whose driver values a counterexample lists as inputs. -/
def inputLinks (d : Design) (sources : Binding) : LinkSet :=
  let links := TreeSet.ofList sources.keys
  if d.net.isCombinational then links else addPorts links (d.triggers.map Prod.snd)

/-- The gates that flip-flops read. -/
def triggerDrivers (d : Design) : List GateId :=
  (d.triggers.filterMap fun (_, g) => d.net.gate? g).flatMap fun g => g.inputs.map (·.driver)

/-- The left links whose driver values a counterexample lists as outputs. -/
def outputLinks (d : Design) (targets : Binding) : LinkSet :=
  let links := TreeSet.ofList targets.keys
  if d.net.isCombinational then links else addPorts links d.triggerDrivers

/-- One line for each pair of values, under the name of its left gate. -/
def valueLines (d : Design) (links : LinkSet) (values : List ValuePair) : List String :=
  (links.toList.zip values).map fun (l, v) =>
    "  " ++ d.nameOf l.source ++ ": " ++ valuesText [v]

/-- The report of a counterexample, under the names of the left design. -/
def report (d : Design) (sources targets : Binding) (c : Counterexample) : List String :=
  ["Inputs:"] ++ d.valueLines (d.inputLinks sources) c.inputs
    ++ ["Outputs:"] ++ d.valueLines (d.outputLinks targets) c.outputs

end Design

end LogicNet
