import LogicNet.Netlist.Edit

/-!
# Dividing a netlist into parts

Parts are numbered in the order they were made. Moving a gate between parts changes which links
cross which boundary, and with it the order of the whole netlist is no longer one in which each
part stands together: every operation here disturbs `top`, except those that only drop parts.
-/

namespace LogicNet

open Std

namespace Netlist

/-- The part of this number. -/
def part (net : Netlist) (n : Nat) : Result Part := Result.getOrBreach net.parts[n]? .outOfRange

/-- A new part without gates. -/
def addPart (net : Netlist) : Nat × Netlist :=
  (net.parts.length,
    { net with parts := net.parts ++ [{}], emptyParts := net.emptyParts.insert net.parts.length })

/-- Compute the classes and the boundary of a part from nothing. -/
def rebuildPart (net : Netlist) (n : Nat) : Netlist :=
  { net with parts := net.parts.modify n fun p => p.rebuild net.gate? (net.inPart n) }

/-- Put gates that have left their former part into part `n`, whose boundary is computed anew. The
tallies are left to the caller. -/
def gather (net : Netlist) (ids : List GateId) (n : Nat) : Netlist :=
  let members := ids.filterMap net.gate?
  let net := { net with
    parts := net.parts.modify n fun p => members.foldl Part.insert p
    home := ids.foldl (fun home id => home.insert id n) net.home
    top := net.top.disturb }
  net.rebuildPart n

/-- Let gate `id`, which is `gate`, leave its part and enter another one, if any. The boundaries are
not yet settled. -/
def rehome (net : Netlist) (id : GateId) (gate : Gate) (dest : Option Nat) : Netlist :=
  let left := net.leavePart id gate
  let moved := match dest with
    | some n => left.enterPart id gate n
    | none => left
  { moved with top := moved.top.disturb }

/-- Move a gate to a part, or out of all parts. -/
def moveGate (net : Netlist) (id : GateId) (dest : Option Nat) : Result Netlist := do
  let gate ← net.gate id
  match dest with
  | some n => Result.require (n < net.parts.length) (.missingPart n)
  | none => pure ()
  let from? := net.partOf? id
  if from? = dest then return net
  return (net.rehome id gate dest).refresh id [] from?

/-- Move all gates of part `right` into part `left`. Part `right` stays, without gates. -/
def mergeParts (net : Netlist) (left right : Nat) : Result Netlist := do
  Result.require (left ≠ right) (.selfMerge left)
  Result.require (left < net.parts.length && right < net.parts.length) .mergedParts
  let moved ← net.part right
  let merged := { net with parts := net.parts.set right {} }.gather moved.gates left
  let emptyParts :=
    if merged.parts[left]?.any Part.isEmpty then net.emptyParts else net.emptyParts.erase left
  return { merged with emptyParts := emptyParts.insert right }

/-- Put all orphans into a new part. -/
def groupOrphans (net : Netlist) : Result (Nat × Netlist) := do
  Result.require (!net.isFlat && net.hasOrphans) .nothingToGroup
  let orphans := net.gates.filter fun id => (net.partOf? id).isNone
  let (n, net) := net.addPart
  let grouped := net.gather orphans n
  return (n, { grouped with
    housed := net.housed + orphans.length
    emptyParts := net.emptyParts.erase n })

/-- Drop the parts without gates. The others are renumbered and keep their order. -/
def removeEmptyParts (net : Netlist) : Netlist :=
  { net with
    parts := net.parts.filter (!·.isEmpty)
    home := net.home.map fun _ n => (net.parts.take n).countP (!·.isEmpty)
    emptyParts := {} }

end Netlist

end LogicNet
