import LogicNet.Fault
import LogicNet.Part

/-!
# Netlists

A netlist is a table of gates by identifier, divided into PARTS. A gate belongs to at most one
part; a gate outside all parts is an ORPHAN. The part `top` covers every gate.

A gate input may name a driver that is not in the table. Such a driver is EXTERNAL, and each of its
links is a source link of the netlist.

Four things are kept beside the table and follow every edit: the boundary of `top` and of each
part, the part each gate is in, the table `shared`, which finds a gate by its shape, and two tallies
that tell whether there are orphans or empty parts without looking at the parts.
-/

namespace LogicNet

open Std

/-- A hierarchical gate-level netlist. -/
structure Netlist where
  table : TreeMap GateId Gate := {}
  /-- The number of the next gate; every number at or above it is unused. -/
  nextId : Nat := 0
  /-- All gates. -/
  top : Part := {}
  parts : List Part := []
  /-- The number of the part a gate is in. -/
  home : TreeMap GateId Nat := {}
  /-- The numbers of the parts without gates. -/
  emptyParts : TreeSet Nat := {}
  /-- How many gates are in parts. -/
  housed : Nat := 0
  /-- A gate of each shape that is built only once. -/
  shared : TreeMap Shape GateId := {}

namespace Netlist

/-- The netlist without gates. -/
def empty : Netlist := {}

/-! ## Questions -/

def size (net : Netlist) : Nat := net.table.size

def contains (net : Netlist) (id : GateId) : Bool := net.table.contains id

def gate? (net : Netlist) (id : GateId) : Option Gate := net.table[id]?

/-- The gate of this identifier, which must be in the netlist. -/
def gate (net : Netlist) (id : GateId) : Result Gate :=
  Result.getOrBreach net.table[id]? (.missingGate id)

/-- All gates, in topological order if the netlist is sorted. -/
def gates (net : Netlist) : List GateId := net.top.gates

def sources (net : Netlist) : LinkSet := net.top.sources

def targets (net : Netlist) : LinkSet := net.top.targets

def isSorted (net : Netlist) : Bool := net.top.isSorted

def isCombinational (net : Netlist) : Bool := net.top.isCombinational

def partOf? (net : Netlist) (id : GateId) : Option Nat := net.home[id]?

/-- The gate is in the part of this number. -/
def inPart (net : Netlist) (n : Nat) (id : GateId) : Bool := net.partOf? id == some n

/-- There is no part. -/
def isFlat (net : Netlist) : Bool := net.parts.isEmpty

/-- Some gate belongs to no part. -/
def hasOrphans (net : Netlist) : Bool := net.housed < net.table.size

def hasEmptyParts (net : Netlist) : Bool := !net.emptyParts.isEmpty

/-- Flat, or divided exactly into parts that all hold gates. -/
def isWellFormed (net : Netlist) : Bool := net.isFlat || (!net.hasOrphans && !net.hasEmptyParts)

/-- The link is an edge of the netlist as it stands. -/
def hasEdge (net : Netlist) (l : Link) : Bool :=
  match l.pin, net.table[l.target]? with
  | .input i, some g => g.inputs[i]?.any (·.driver == l.source)
  | _, _ => false

/-- The links gate `id` is an end of: those of its inputs, then its fan-out. -/
def linksOf (net : Netlist) (id : GateId) : List Link :=
  match net.table[id]? with
  | some g => g.inputLinks ++ g.fanout
  | none => []

/-! ## Boundaries -/

/-- Settle the port of `id` and some links on the boundary of a part with the given members. -/
def settle (net : Netlist) (id : GateId) (links : List Link) (member : GateId → Bool) (p : Part) :
    Part :=
  links.foldl (fun p l => p.settleEdge l (net.hasEdge l) (member l.source) (member l.target))
    (p.settlePort id (if member id then net.table[id]? else none))

/-- The parts an edit of `id` can reach through these links. -/
def touched (net : Netlist) (id : GateId) (links : List Link) : List Nat :=
  (id :: links.flatMap fun l => [l.source, l.target]).filterMap net.partOf?

/-- Bring the boundaries up to date after an edit of gate `id`. Beside the links the gate has now,
`extra` names links it had before, and `left` the part it was in before. -/
def refresh (net : Netlist) (id : GateId) (extra : List Link) (left : Option Nat) : Netlist :=
  let links := extra ++ net.linksOf id
  let touched := left.toList ++ net.touched id links
  { net with
    top := net.settle id links net.contains net.top
    parts := net.parts.mapIdx fun n p =>
      if touched.contains n then net.settle id links (net.inPart n) p else p }

/-- Change `top` and the part gate `id` is in. -/
def modifyHome (net : Netlist) (id : GateId) (f : Part → Part) : Netlist :=
  { net with
    top := f net.top
    parts := match net.partOf? id with
      | some n => net.parts.modify n f
      | none => net.parts }

/-! ## Homes -/

/-- Take gate `id`, which is `gate`, out of the part it is in, if it is in one. -/
def leavePart (net : Netlist) (id : GateId) (gate : Gate) : Netlist :=
  match net.partOf? id with
  | some n =>
    let parts := net.parts.modify n (·.erase gate)
    { net with
      parts
      home := net.home.erase id
      housed := net.housed - 1
      emptyParts :=
        if parts[n]?.any Part.isEmpty then net.emptyParts.insert n else net.emptyParts }
  | none => net

/-- Put gate `id`, which is `gate` and in no part, into part `n`. -/
def enterPart (net : Netlist) (id : GateId) (gate : Gate) (n : Nat) : Netlist :=
  { net with
    parts := net.parts.modify n (·.insert gate)
    home := net.home.insert id n
    housed := net.housed + 1
    emptyParts := net.emptyParts.erase n }

/-! ## Fan-out -/

/-- Record links in the fan-out of their drivers. Outputs drive nothing. -/
def connect (net : Netlist) (links : List Link) : Result Netlist :=
  links.foldlM
    (fun net l =>
      match net.table[l.source]? with
      | none => .ok net
      | some d =>
        if d.isOutput then .error (.breach (.drivingOutput l.source))
        else .ok { net with table := net.table.insert l.source { d with fanout := d.fanout ++ [l] } })
    net

/-- Drop links from the fan-out of their drivers. -/
def disconnect (net : Netlist) (links : List Link) : Netlist :=
  links.foldl
    (fun net l =>
      match net.table[l.source]? with
      | none => net
      | some d =>
        { net with table := net.table.insert l.source { d with fanout := swapErase l d.fanout } })
    net

/-! ## Sharing -/

/-- Make a gate the one found under its shape, unless another one is. -/
def register (net : Netlist) (g : Gate) : Netlist :=
  if g.isShareable then { net with shared := net.shared.insertIfNew g.toShape g.id } else net

/-- Forget a gate that is found under its shape. -/
def unregister (net : Netlist) (g : Gate) : Netlist :=
  if net.shared[g.toShape]? == some g.id then { net with shared := net.shared.erase g.toShape }
  else net

end Netlist

end LogicNet
