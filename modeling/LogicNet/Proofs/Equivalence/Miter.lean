import LogicNet.Proofs.Equivalence.Joining
import LogicNet.Proofs.Equivalence.Strategies

/-!
# Miters

The second half of a miter: bound targets are compared one after the other, and the output is the disjunction of
the comparisons. An output is opened before it is compared, so what is left at the end are the new output and those
that are in no pair (`Compared`). Whether a comparison is a new gate, a known one or an inverter makes no difference
to its value.

**The law** (`miter_difference`): the miter of two circuits under one-to-one bindings of their source and target links
is a circuit with one input for each pair of sources and one output. Under every assignment to its inputs the output
is set exactly when the values of some bound pair of targets differ, where each source link is fed by the input of its
pair. Links are fed one by one, also links of one driver. Numbers must not run out on the way.
-/

namespace LogicNet

open Std

namespace Miter

/-! ## Comparing targets -/

/-- An output of one of the sides that is in none of these pairs. -/
def Uncompared (nets : Side → Netlist) (maps : Side → GateMap) (pairs : List (Link × Link)) (y : GateId) : Prop :=
  ∃ (side : Side) (id : GateId) (g : Gate), (nets side).gate? id = some g ∧ g.isOutput = true ∧
    (∀ p ∈ pairs, (side.pick p.1 p.2).source ≠ id) ∧ y = (maps side).image id

/-- Some pairs have been compared, and the outputs that are in none of them are still outputs. -/
structure Compared (nets : Side → Netlist) (maps : Side → GateMap) (base : Netlist) (inputs : List GateId)
    (done : List (Link × Link)) (ids : List GateId) (net : Netlist) : Prop where
  contained : net.SelfContained inputs
  next : net.nextId ≤ base.nextId + done.length
  present : ∀ {y : GateId}, (∃ s, base.shape? y = some s) → ∃ s, net.shape? y = some s
  outputs : ∀ y, (∃ s, net.shape? y = some s ∧ s.isOutput = true) ↔ Uncompared nets maps done y
  known : ∀ d ∈ ids, ∃ s, net.shape? d = some s ∧ s.isOutput = false
  logical : base.Logical → net.Logical
  keeps : ∀ val, net.view.Valuation val → base.view.Valuation val
  values : ∀ val, net.view.Valuation val → ids.map val = done.map fun p =>
    val ((maps .left).image p.1.source) != val ((maps .right).image p.2.source)

variable {nets : Side → Netlist} {maps : Side → GateMap} {inputs : List GateId} {net : Netlist}

/-- If it was an output, gate `y` has become a buffer of the same signals. It can be read, and nothing else has
changed. -/
structure Opens (inputs : List GateId) (net : Netlist) (y : GateId) (net' : Netlist) : Prop where
  contained : net'.SelfContained inputs
  self : ∃ s, net'.shape? y = some s ∧ s.isOutput = false
  other : ∀ {z : GateId}, z ≠ y → net'.shape? z = net.shape? z
  next : net'.nextId = net.nextId
  logical : net.Logical → net'.Logical
  keeps : ∀ val, net'.view.Valuation val → net.view.Valuation val

/-- The outputs are those before, except the one that was opened. -/
theorem Opens.output_iff {y : GateId} {net' : Netlist} (h : Opens inputs net y net') (z : GateId) :
    (∃ s, net'.shape? z = some s ∧ s.isOutput = true) ↔ z ≠ y ∧ ∃ s, net.shape? z = some s ∧ s.isOutput = true := by
  by_cases same : z = y
  · obtain ⟨s, self, plain⟩ := h.self
    rw [same, self]
    simp [plain]
  · rw [h.other same]
    simp [same]

/-- What could be read can still be read. -/
theorem Opens.known {y : GateId} {net' : Netlist} (h : Opens inputs net y net') {z : GateId}
    (known : ∃ s, net.shape? z = some s ∧ s.isOutput = false) : ∃ s, net'.shape? z = some s ∧ s.isOutput = false := by
  by_cases same : z = y
  · rw [same]
    exact h.self
  · rw [h.other same]
    exact known

theorem Opens.present {y : GateId} {net' : Netlist} (h : Opens inputs net y net') {z : GateId}
    (known : ∃ s, net.shape? z = some s) : ∃ s, net'.shape? z = some s := by
  by_cases same : z = y
  · obtain ⟨s, self, _⟩ := h.self
    exact ⟨s, same ▸ self⟩
  · rw [h.other same]
    exact known

/-- A gate of an imported netlist is opened, unless it can be read already. -/
theorem exists_targetDriver (h : net.SelfContained inputs) {map : GateMap} {l : Link} (mem : l.source ∈ map)
    (known : ∃ s, net.shape? (map.image l.source) = some s) :
    ∃ net', targetDriver net map l = .ok (map.image l.source, net') ∧ Opens inputs net (map.image l.source) net' := by
  obtain ⟨s, found⟩ := known
  obtain ⟨g, here, rfl⟩ := Netlist.shape?_eq_some.mp found
  have driver : ∀ {net'}, (if g.isOutput = true then
      net.setGate (map.image l.source) ⟨.buffer, g.inputs⟩ >>= fun net' => pure (map.image l.source, net')
      else pure (map.image l.source, net)) = .ok (map.image l.source, net') →
      targetDriver net map l = .ok (map.image l.source, net') := fun opened =>
    Result.bind_eq_ok.mpr ⟨_, Result.getOrBreach_eq_ok.mpr (GateMap.image_of_mem mem),
      Result.bind_eq_ok.mpr ⟨g, Netlist.gate_eq_ok.mpr here, opened⟩⟩
  cases output : g.isOutput with
  | true =>
    obtain ⟨net', set, contained, shapes, next, logical, keeps⟩ := h.exists_open found output
    refine ⟨net', driver ?_, contained, ⟨⟨.buffer, g.inputs⟩, ?_, rfl⟩, fun other => ?_, next, logical, keeps⟩
    · rw [if_pos output]
      exact Result.bind_eq_ok.mpr ⟨net', set, rfl⟩
    · rw [shapes, Function.update_self]
    · rw [shapes, Function.update_of_ne other]
  | false =>
    refine ⟨net, driver ?_, h, ⟨_, found, output⟩, fun _ => rfl, rfl, fun logical => logical,
      fun _ valuation => valuation⟩
    rw [if_neg (Bool.eq_false_iff.mp output)]
    rfl

theorem evalBit_xor (a b : Bool) : GateFn.xor.evalBit false [a, b] = (a != b) := by
  cases a <;> cases b <;> rfl

/-- Two gates that can be read get a comparison. -/
theorem exists_xor (h : net.SelfContained inputs) {a b : GateId}
    (knownA : ∃ s, net.shape? a = some s ∧ s.isOutput = false)
    (knownB : ∃ s, net.shape? b = some s ∧ s.isOutput = false) (room : net.nextId < GateId.largest) :
    ∃ d net', net.addNary .xor [a, b] = .ok (d, net') ∧ net'.SelfContained inputs ∧
      net.Computes (.nary .xor [a, b]) d net' := by
  refine h.exists_addGate ⟨rfl, rfl, Shape.isTrigger_nary _ _, rfl, fun x read => ?_⟩ room
  have cases : x = .plain a ∨ x = .plain b := by simpa [Shape.nary] using read
  rcases cases with rfl | rfl
  · exact knownA
  · exact knownB

section Compare

variable (apart : Apart nets maps) {base : Netlist} {targets done rest : List (Link × Link)}
  (known : ∀ p ∈ targets, ∀ side : Side, (side.pick p.1 p.2).source ∈ maps side ∧
    ∃ s, base.shape? ((maps side).image (side.pick p.1 p.2).source) = some s)
  {ids : List GateId} {p : Link × Link}
include apart

/-- What is left after a pair has been compared. -/
theorem uncompared_append (inside : ∀ side : Side, (side.pick p.1 p.2).source ∈ maps side) {y : GateId} :
    Uncompared nets maps (done ++ [p]) y ↔
      (∀ side : Side, y ≠ (maps side).image (side.pick p.1 p.2).source) ∧ Uncompared nets maps done y := by
  constructor
  · rintro ⟨side, id, g, found, output, others, rfl⟩
    refine ⟨fun side' same => ?_, side, id, g, found, output, fun q mem => others q (List.mem_append_left _ mem), rfl⟩
    obtain ⟨rfl, rfl⟩ := apart.injective (apart.mem found) (inside side') same
    exact others p (by simp) rfl
  · rintro ⟨other, side, id, g, found, output, others, rfl⟩
    refine ⟨side, id, g, found, output, fun q mem => ?_, rfl⟩
    rcases List.mem_append.mp mem with before | now
    · exact others q before
    · rw [List.mem_singleton.mp now]
      exact fun same => other side (congrArg _ same.symm)

include known

/-- One more pair is compared. -/
theorem Compared.exists_compare (split : targets = done ++ p :: rest) (h : Compared nets maps base inputs done ids net)
    (room : base.nextId + targets.length ≤ GateId.largest) :
    ∃ d net', compareTargets (maps .left) (maps .right) net p = .ok (d, net') ∧
      Compared nets maps base inputs (done ++ [p]) (ids ++ [d]) net' := by
  have here := known p (by rw [split]; simp)
  let a := (maps .left).image p.1.source
  let b := (maps .right).image p.2.source
  have insideA : p.1.source ∈ maps .left := (here .left).1
  have insideB : p.2.source ∈ maps .right := (here .right).1
  have presentA : ∃ s, net.shape? a = some s := h.present (here .left).2
  have presentB : ∃ s, net.shape? b = some s := h.present (here .right).2
  obtain ⟨net₁, first, opens₁⟩ := exists_targetDriver h.contained insideA presentA
  obtain ⟨net₂, second, opens₂⟩ := exists_targetDriver opens₁.contained insideB (opens₁.present presentB)
  have small : net₂.nextId < GateId.largest := by
    have length := congrArg List.length split
    rw [List.length_append, List.length_cons] at length
    have next := h.next
    rw [opens₂.next, opens₁.next]
    omega
  obtain ⟨d, net₃, added, contained₃, computes⟩ :=
    exists_xor opens₂.contained (opens₂.known opens₁.self) opens₂.self small
  have keeps₃ : ∀ val, net₃.view.Valuation val → net₂.view.Valuation val := fun val valuation =>
    opens₂.contained.reachable.consistent.valuation_of_kept contained₃.reachable.consistent computes.kept valuation
  have keeps : ∀ val, net₃.view.Valuation val → net.view.Valuation val :=
    fun val valuation => opens₁.keeps val (opens₂.keeps val (keeps₃ val valuation))
  refine ⟨d, net₃, Result.bind_eq_ok.mpr ⟨_, first, Result.bind_eq_ok.mpr ⟨_, second, added⟩⟩, contained₃, ?next,
    ?present, ?outputs, ?known, fun logical => computes.logical (opens₂.logical (opens₁.logical (h.logical logical))),
    fun val valuation => h.keeps val (keeps val valuation), ?values⟩
  case next =>
    rw [List.length_append, List.length_singleton]
    have before := h.next
    have after := computes.next
    rw [opens₂.next, opens₁.next] at after
    omega
  case present =>
    intro y before
    obtain ⟨s, now⟩ := opens₂.present (opens₁.present (h.present before))
    exact ⟨s, computes.kept now⟩
  case outputs =>
    intro y
    have sides : (∀ side : Side, y ≠ (maps side).image (side.pick p.1 p.2).source) ↔ y ≠ b ∧ y ≠ a := by
      refine ⟨fun other => ⟨other .right, other .left⟩, fun other side => ?_⟩
      cases side with
      | left => exact other.2
      | right => exact other.1
    rw [computes.output_iff rfl, opens₂.output_iff, opens₁.output_iff, h.outputs,
      uncompared_append apart fun side => (here side).1, sides, and_assoc]
  case known =>
    intro x mem
    rcases List.mem_append.mp mem with before | now
    · obtain ⟨s, shape, plain⟩ := opens₂.known (opens₁.known (h.known x before))
      exact ⟨s, computes.kept shape, plain⟩
    · rw [List.mem_singleton.mp now]
      exact computes.known
  case values =>
    intro val valuation
    have value := computes.value val valuation
    rw [Shape.value_nary, List.map_cons, List.map_singleton, evalBit_xor] at value
    rw [List.map_append, List.map_append, h.values val (keeps val valuation), List.map_singleton, List.map_singleton,
      value]

/-- ALL PAIRS ARE COMPARED, also if an output is in several of them. -/
theorem exists_comparisons (start : Compared nets maps base inputs [] [] base)
    (room : base.nextId + targets.length ≤ GateId.largest) :
    ∃ ids net, base.addAll (compareTargets (maps .left) (maps .right)) targets = .ok (ids, net) ∧
      Compared nets maps base inputs targets ids net :=
  Netlist.exists_addAll (Compared nets maps base inputs) start
    fun _ _ _ _ _ split compared => compared.exists_compare apart known split room

end Compare

/-- The outputs of a joined netlist are those of its sides. -/
theorem compared_nothing (apart : Apart nets maps) {feed : Side → Link → Option GateId}
    (joined : Fed nets maps feed inputs (fun _ => true) net) :
    Compared nets maps net (inputs ++ pending nets maps feed) [] [] net := by
  refine ⟨joined.selfContained apart fun _ => rfl, Nat.le_refl _, fun known => known, fun y => ?_, by simp,
    fun logical => logical, fun _ valuation => valuation, fun _ _ => rfl⟩
  rw [joined.output_iff apart fun _ => rfl]
  simp [Uncompared]

/-! ## The output -/

/-- The disjunction of gates that can be read, or nothing set at all. -/
theorem exists_disjunction (h : net.SelfContained inputs) {ids : List GateId}
    (known : ∀ d ∈ ids, ∃ s, net.shape? d = some s ∧ s.isOutput = false) (room : net.nextId < GateId.largest) :
    ∃ (shape : Shape) (y : GateId) (net' : Netlist),
      (if ids.isEmpty then net.addZero else net.addNary .or ids) = .ok (y, net') ∧ net'.SelfContained inputs ∧
      net.Computes shape y net' ∧ shape.isOutput = false ∧ ∀ val, shape.value val = (ids.map val).any id := by
  cases ids with
  | nil =>
    have fits : net.Fits ⟨.zero, []⟩ := ⟨rfl, rfl, rfl, rfl, by simp⟩
    obtain ⟨y, net', added, contained, computes⟩ := h.exists_addGate fits room
    exact ⟨_, y, net', added, contained, computes, rfl, fun _ => rfl⟩
  | cons d ids =>
    have fits : net.Fits (.nary .or (d :: ids)) := by
      refine ⟨?_, rfl, Shape.isTrigger_nary _ _, rfl, fun x read => ?_⟩
      · simp [Shape.hasArity, Shape.arity, Shape.nary, GateFn.accepts]
      · obtain ⟨e, mem, rfl⟩ := List.mem_map.mp read
        exact known e mem
    obtain ⟨y, net', added, contained, computes⟩ := h.exists_addGate fits room
    exact ⟨_, y, net', added, contained, computes, rfl, fun val => Shape.value_nary _ _ _⟩

/-- An output is added and the netlist is sorted: beside the outputs that were there, it has a new one. -/
structure Closes (inputs : List GateId) (net : Netlist) (y out : GateId) (m : Netlist) : Prop where
  contained : m.SelfContained inputs
  fresh : net.shape? out = none
  targets : ∀ l, l ∈ m.targets ↔ l = .port out ∨ ∃ z s, net.shape? z = some s ∧ s.isOutput = true ∧ l = .port z
  logical : net.Logical → m.Logical
  values : ∀ val, m.view.Valuation val → net.view.Valuation val ∧ val out = val y

theorem exists_output (h : net.SelfContained inputs) {y : GateId}
    (known : ∃ s, net.shape? y = some s ∧ s.isOutput = false) (room : net.nextId < GateId.largest) :
    ∃ out net' m, net.addOutput y = .ok (out, net') ∧ net'.sort = .ok m ∧ Closes inputs net y out m := by
  have fits : net.Fits (.nary .output [y]) := by
    refine ⟨rfl, rfl, Shape.isTrigger_nary _ _, rfl, fun x read => ?_⟩
    obtain rfl : x = .plain y := by simpa [Shape.nary] using read
    exact known
  -- Outputs are not shared, so adding one builds it, and its number is new.
  obtain ⟨out, net', built, contained, computes⟩ := h.exists_build fits room
  have added : net.addOutput y = .ok (out, net') := built
  have contained := contained (.addGate (.nary .output [y]) h.reachable added)
  obtain ⟨m, sorted, same, flat⟩ :=
    Netlist.exists_sort_of_flat contained.reachable.consistent contained.flat contained.acyclic
  have final := contained.of_gates (.sort contained.reachable sorted) flat same
  have shapes : m.shape? = net'.shape? := by
    funext id
    rw [Netlist.shape?, same, Netlist.shape?]
  refine ⟨out, net', m, added, sorted, final, h.reachable.consistent.absent_of_build built, fun l => ?_,
    fun logical => ?_, fun val valuation => ?_⟩
  · rw [final.mem_targets, shapes]
    constructor
    · rintro ⟨id, t, now, output, rfl⟩
      rcases computes.outputs now output with before | ⟨rfl, _⟩
      · exact .inr ⟨id, t, before, output, rfl⟩
      · exact .inl rfl
    · rintro (rfl | ⟨z, t, before, output, rfl⟩)
      · obtain ⟨t, now, output⟩ := computes.known
        exact ⟨out, t, now, output, rfl⟩
      · exact ⟨z, t, computes.kept before, output, rfl⟩
  · rw [Netlist.Logical, shapes]
    exact computes.logical logical
  · have earlier : net'.view.Valuation val := by
      refine contained.reachable.consistent.valuation_of_kept final.reachable.consistent ?_ valuation
      rw [shapes]
      exact fun now => now
    refine ⟨h.reachable.consistent.valuation_of_kept contained.reachable.consistent computes.kept earlier, ?_⟩
    rw [computes.value val earlier, Shape.value_nary]
    rfl

/-! ## The whole miter -/

/-- A circuit with one input for each pair of sources, and one output which compares all pairs of targets. -/
structure IsMiter (left right : Netlist) (sources targets : Binding) (m : Netlist) (input : Link → GateId)
    (out : GateId) : Prop where
  circuit : m.view.Circuit
  mem_sources : ∀ l, l ∈ m.sources ↔ ∃ k ∈ sources, l = .port (input k)
  injective : ∀ k ∈ sources, ∀ k' ∈ sources, input k = input k' → k = k'
  mem_targets : ∀ l, l ∈ m.targets ↔ l = .port out
  values : ∀ (val : GateId → Bool) (feedLeft feedRight : Link → Bool), m.view.Valuation val →
    (∀ l r : Link, sources[l]? = some r → feedLeft l = val (input l) ∧ feedRight r = val (input l)) →
    ∃ valLeft valRight, left.FedBy feedLeft valLeft ∧ right.FedBy feedRight valRight ∧
      val out = targets.toList.any fun p => valLeft p.1.source != valRight p.2.source

/-- What is fed to a circuit determines the value at a target. -/
theorem eq_at_target {net : Netlist} (circuit : net.view.Circuit) {feed : Link → Bool} {val val' : GateId → Bool}
    (fed : net.FedBy feed val) (fed' : net.FedBy feed val') {l : Link} (target : l ∈ net.targets) :
    val l.source = val' l.source := by
  obtain ⟨g, found, _⟩ := circuit.ofReachable.1.consistent.mem_targets_iff.mp target
  exact fed.unique circuit fed' found

/-- Everything up to the comparisons. -/
theorem exists_joined {left right : Netlist} (reachable : ∀ side : Side, (side.pick left right).Reachable)
    (acyclic : ∀ side : Side, (side.pick left right).view.Acyclic) {sources : Binding}
    (links : ∀ p ∈ sources.toList, ∀ side : Side, side.pick p.1 p.2 ∈ (side.pick left right).sources)
    (room : left.names.length + right.names.length + sources.size ≤ GateId.largest) :
    ∃ leftMap rightMap net₁ net₂ net₃ net₄ net feed fed, Netlist.empty.importNet left = .ok (leftMap, net₁) ∧
      net₁.importNet right = .ok (rightMap, net₂) ∧ feedSources net₂.flatten leftMap rightMap sources = .ok net₃ ∧
      removeUnused net₃ left leftMap = .ok net₄ ∧ removeUnused net₄ right rightMap = .ok net ∧
      Apart (fun side => side.pick left right) (fun side => side.pick leftMap rightMap) ∧
      Fed (fun side => side.pick left right) (fun side => side.pick leftMap rightMap) feed (fed.map Prod.snd)
        (fun _ => true) net ∧
      Supplied fed feed ∧ fed.map Prod.fst = sources.toList ∧
      net.nextId = left.names.length + right.names.length + sources.size := by
  obtain ⟨leftMap, rightMap, net₁, net₂, importLeft, importRight, apart, start, next₂⟩ :=
    exists_imports reachable acyclic (Nat.le_trans (Nat.le_add_right _ _) room)
  obtain ⟨net₃, feed, fed, feeds, joined, supplied, pairs, next₃⟩ :=
    exists_feedSources apart start (fun _ => rfl) links (by rw [next₂]; exact room)
  obtain ⟨net₄, removedLeft, joined, next₄⟩ := joined.exists_removeUnused apart .left rfl
  obtain ⟨net, removedRight, joined, next⟩ := joined.exists_removeUnused apart .right rfl
  have gone : Function.update (Function.update (fun _ : Side => false) .left true) .right true = fun _ => true := by
    funext side
    cases side <;> rfl
  rw [gone] at joined
  exact ⟨leftMap, rightMap, net₁, net₂, net₃, net₄, net, feed, fed, importLeft, importRight, feeds, removedLeft,
    removedRight, apart, joined, supplied, pairs, by rw [next, next₄, next₃, next₂]⟩

/-- Two netlists that are joined, with a new output for the comparisons of these pairs. -/
structure Combined (nets : Side → Netlist) (maps : Side → GateMap) (base : Netlist) (inputs : List GateId)
    (pairs : List (Link × Link)) (m : Netlist) (out : GateId) : Prop where
  contained : m.SelfContained inputs
  mem_targets : ∀ l, l ∈ m.targets ↔ l = .port out ∨ ∃ y, Uncompared nets maps pairs y ∧ l = .port y
  fresh : ¬Uncompared nets maps pairs out
  logical : base.Logical → m.Logical
  values : ∀ val, m.view.Valuation val → base.view.Valuation val ∧ val out = pairs.any fun p =>
    val ((maps .left).image p.1.source) != val ((maps .right).image p.2.source)

/-- NETLISTS WITHOUT LOOPS CAN BE COMBINED under any binding of their links, as long as there are numbers. -/
theorem exists_combined {left right : Netlist} (reachable : ∀ side : Side, (side.pick left right).Reachable)
    (acyclic : ∀ side : Side, (side.pick left right).view.Acyclic) {sources targets : Binding}
    (sourceLinks : ∀ p ∈ sources.toList, ∀ side : Side, side.pick p.1 p.2 ∈ (side.pick left right).sources)
    (targetLinks : ∀ p ∈ targets.toList, ∀ side : Side, side.pick p.1 p.2 ∈ (side.pick left right).targets)
    (room : left.names.length + right.names.length + sources.size + targets.size + 2 ≤ GateId.largest) :
    ∃ (nets : Side → Netlist) (maps : Side → GateMap) (base : Netlist) (feed : Side → Link → Option GateId)
      (fed : List ((Link × Link) × GateId)) (m : Netlist) (out : GateId),
      (nets = fun side => side.pick left right) ∧ combine left right sources targets = .ok m ∧ Apart nets maps ∧
      Fed nets maps feed (fed.map Prod.snd) (fun _ => true) base ∧ Supplied fed feed ∧
      fed.map Prod.fst = sources.toList ∧
      Combined nets maps base (fed.map Prod.snd ++ pending nets maps feed) targets.toList m out := by
  obtain ⟨leftMap, rightMap, net₁, net₂, net₃, net₄, base, feed, fed, importLeft, importRight, feeds, removedLeft,
    removedRight, apart, joined, supplied, pairs, next⟩ := exists_joined reachable acyclic sourceLinks (by omega)
  have known : ∀ p ∈ targets.toList, ∀ side : Side, (side.pick p.1 p.2).source ∈ side.pick leftMap rightMap ∧
      ∃ s, base.shape? ((side.pick leftMap rightMap).image (side.pick p.1 p.2).source) = some s := by
    intro p mem side
    obtain ⟨g, found, _⟩ := (apart.consistent side).mem_targets_iff.mp (targetLinks p mem side)
    exact ⟨apart.mem found, _, joined.gates side found⟩
  have length : targets.toList.length = targets.size := TreeMap.length_toList
  obtain ⟨ids, net₆, compared, all⟩ :=
    exists_comparisons apart known (compared_nothing apart joined) (by omega)
  have next₆ := all.next
  obtain ⟨shape, y, net₇, disjoined, contained₇, computes, plain, value⟩ :=
    exists_disjunction all.contained all.known (by omega)
  have next₇ := computes.next
  have outputs : ∀ z, (∃ s, net₇.shape? z = some s ∧ s.isOutput = true) ↔ Uncompared _ _ targets.toList z :=
    fun z => (computes.output_iff plain z).trans (all.outputs z)
  obtain ⟨out, net₈, m, added, sorted, closes⟩ := exists_output contained₇ (plain ▸ computes.known) (by omega)
  refine ⟨_, _, base, feed, fed, m, out, rfl, ?built, apart, joined, supplied, pairs, closes.contained, ?targets,
    ?fresh, fun logical => closes.logical (computes.logical (all.logical logical)), ?values⟩
  case built =>
    refine Result.bind_eq_ok.mpr ⟨_, importLeft, Result.bind_eq_ok.mpr ⟨_, importRight, ?_⟩⟩
    refine Result.bind_eq_ok.mpr ⟨_, feeds, Result.bind_eq_ok.mpr ⟨_, removedLeft, ?_⟩⟩
    refine Result.bind_eq_ok.mpr ⟨_, removedRight, Result.bind_eq_ok.mpr ⟨_, compared, ?_⟩⟩
    dsimp only
    by_cases empty : ids.isEmpty = true
    · rw [if_pos empty] at disjoined ⊢
      exact Result.bind_eq_ok.mpr ⟨_, disjoined, Result.bind_eq_ok.mpr ⟨_, added, sorted⟩⟩
    · rw [if_neg empty] at disjoined ⊢
      exact Result.bind_eq_ok.mpr ⟨_, disjoined, Result.bind_eq_ok.mpr ⟨_, added, sorted⟩⟩
  case targets =>
    intro l
    simp only [closes.targets, ← outputs, ← exists_and_right, and_assoc]
  case fresh =>
    intro uncompared
    obtain ⟨s, known, _⟩ := (outputs out).mpr uncompared
    rw [closes.fresh] at known
    cases known
  case values =>
    intro val valuation
    obtain ⟨valuation₇, outValue⟩ := closes.values val valuation
    have valuation₆ : net₆.view.Valuation val :=
      all.contained.reachable.consistent.valuation_of_kept contained₇.reachable.consistent computes.kept valuation₇
    refine ⟨all.keeps val valuation₆, ?_⟩
    rw [outValue, computes.value val valuation₇, value, all.values val valuation₆, List.any_map]
    rfl

/-- The input that feeds a link of the left netlist. -/
def inputOf (feed : Side → Link → Option GateId) (l : Link) : GateId := (feed .left l).getD default

section Inputs

variable {feed : Side → Link → Option GateId} {fed : List ((Link × Link) × GateId)} (pairing : Pairing fed feed)
  {sources : Binding} (pairs : fed.map Prod.fst = sources.toList)
include pairing pairs

/-- Both links of a pair are fed by its input. -/
theorem feed_of_bound {l r : Link} (entry : sources[l]? = some r) :
    feed .left l = some (inputOf feed l) ∧ feed .right r = some (inputOf feed l) := by
  have mem : (l, r) ∈ fed.map Prod.fst := by
    rw [pairs]
    exact TreeMap.mem_toList_iff_getElem?_eq_some.mpr entry
  obtain ⟨⟨_, x⟩, inside, rfl⟩ := List.mem_map.mp mem
  have left : feed .left l = some x := (pairing.feeds .left l x).mpr ⟨_, inside, rfl, rfl⟩
  have input : inputOf feed l = x := by rw [inputOf, left, Option.getD_some]
  rw [input]
  exact ⟨left, (pairing.feeds .right r x).mpr ⟨_, inside, rfl, rfl⟩⟩

theorem feed_of_mem {k : Link} (mem : k ∈ sources) : feed .left k = some (inputOf feed k) := by
  obtain ⟨r, entry⟩ := exists_value mem
  exact (feed_of_bound pairing pairs entry).1

theorem mem_inputs {x : GateId} : x ∈ fed.map Prod.snd ↔ ∃ k ∈ sources, x = inputOf feed k := by
  constructor
  · intro mem
    obtain ⟨q, inside, rfl⟩ := List.mem_map.mp mem
    have entry : q.1 ∈ sources.toList := by
      rw [← pairs]
      exact List.mem_map_of_mem inside
    have left : feed .left q.1.1 = some q.2 := (pairing.feeds .left _ _).mpr ⟨q, inside, rfl, rfl⟩
    refine ⟨q.1.1, mem_of_getElem? (TreeMap.mem_toList_iff_getElem?_eq_some.mp entry), ?_⟩
    rw [inputOf, left, Option.getD_some]
  · rintro ⟨k, mem, rfl⟩
    obtain ⟨q, inside, _, input⟩ := (pairing.feeds .left k _).mp (feed_of_mem pairing pairs mem)
    rw [← input]
    exact List.mem_map_of_mem inside

theorem inputOf_inj {k k' : Link} (mem : k ∈ sources) (mem' : k' ∈ sources)
    (same : inputOf feed k = inputOf feed k') : k = k' := by
  obtain ⟨q, inside, left, input⟩ := (pairing.feeds .left k _).mp (feed_of_mem pairing pairs mem)
  obtain ⟨q', inside', left', input'⟩ := (pairing.feeds .left k' _).mp (feed_of_mem pairing pairs mem')
  have eq : q = q' := List.inj_on_of_nodup_map pairing.distinct inside inside' (input.trans (same.trans input'.symm))
  rw [← left, ← left', eq]

/-- A source link carries the value of its input. -/
theorem carried_of_bound {left right : Netlist} (bound : Bijects sources (· ∈ left.sources) (· ∈ right.sources))
    {val : GateId → Bool} {feedLeft feedRight : Link → Bool} (agree : ∀ l r : Link, sources[l]? = some r →
      feedLeft l = val (inputOf feed l) ∧ feedRight r = val (inputOf feed l)) :
    (∀ l ∈ left.sources, ((feed .left l).map val).getD false = feedLeft l) ∧
      ∀ r ∈ right.sources, ((feed .right r).map val).getD false = feedRight r := by
  constructor
  · intro l source
    obtain ⟨r, entry⟩ := exists_value ((bound.keys l).mpr source)
    rw [(feed_of_bound pairing pairs entry).1, (agree l r entry).1]
    rfl
  · intro r source
    obtain ⟨l, entry⟩ := (bound.values r).mpr source
    rw [(feed_of_bound pairing pairs entry).2, (agree l r entry).2]
    rfl

end Inputs

/-- A MITER CAN BE BUILT of two circuits under one-to-one bindings, as long as there are numbers. -/
theorem exists_combine {left right : Netlist} (circuitLeft : left.view.Circuit) (circuitRight : right.view.Circuit)
    {sources targets : Binding} (boundSources : Bijects sources (· ∈ left.sources) (· ∈ right.sources))
    (boundTargets : Bijects targets (· ∈ left.targets) (· ∈ right.targets))
    (room : left.names.length + right.names.length + sources.size + targets.size + 2 ≤ GateId.largest) :
    ∃ m input out, combine left right sources targets = .ok m ∧ IsMiter left right sources targets m input out := by
  have circuit : ∀ side : Side, (side.pick left right).view.Circuit := by
    intro side
    cases side with
    | left => exact circuitLeft
    | right => exact circuitRight
  obtain ⟨_, maps, base, feed, fed, m, out, rfl, built, apart, joined, supplied, pairs, combined⟩ :=
    exists_combined (fun side => (circuit side).ofReachable.1) (fun side => (circuit side).acyclic)
      (fun _ mem => boundSources.pick (fun side l => l ∈ (side.pick left right).sources) mem)
      (fun _ mem => boundTargets.pick (fun side l => l ∈ (side.pick left right).targets) mem) room
  have pairing := supplied.pairing boundSources pairs
  have complete : ∀ side : Side, ∀ l ∈ (side.pick left right).sources, ∃ x, feed side l = some x := by
    intro side l source
    obtain ⟨p, mem, rfl⟩ := boundSources.exists_pair (fun side l => l ∈ (side.pick left right).sources) source
    rw [← pairs] at mem
    obtain ⟨q, inside, rfl⟩ := List.mem_map.mp mem
    exact supplied.reached side q inside
  have contained := combined.contained
  rw [pending_eq_nil complete, List.append_nil] at contained
  have allCompared : ∀ y, ¬Uncompared (fun side => side.pick left right) maps targets.toList y := by
    rintro _ ⟨side, id, g, found, output, others, rfl⟩
    have port : .port id ∈ (side.pick left right).targets :=
      (apart.consistent side).mem_targets_iff.mpr ⟨g, found, output, rfl⟩
    obtain ⟨p, mem, same⟩ := boundTargets.exists_pair (fun side l => l ∈ (side.pick left right).targets) port
    exact others p mem (congrArg Link.source same)
  have logical : m.Logical := combined.logical (joined.logical apart (fun _ => rfl) circuit)
  refine ⟨m, inputOf feed, out, built, contained.circuit logical,
    ?sources, fun k mem k' mem' same => inputOf_inj pairing pairs mem mem' same, ?targets, ?values⟩
  case sources =>
    intro l
    rw [contained.mem_sources]
    constructor
    · rintro ⟨x, mem, rfl⟩
      obtain ⟨k, inside, rfl⟩ := (mem_inputs pairing pairs).mp mem
      exact ⟨k, inside, rfl⟩
    · rintro ⟨k, inside, rfl⟩
      exact ⟨_, (mem_inputs pairing pairs).mpr ⟨k, inside, rfl⟩, rfl⟩
  case targets =>
    intro l
    simp [combined.mem_targets, allCompared]
  case values =>
    intro val feedLeft feedRight valuation agree
    obtain ⟨joinedValuation, value⟩ := combined.values val valuation
    have values := joined.fedBy apart complete circuit joinedValuation
    obtain ⟨fedLeft, fedRight⟩ := carried_of_bound pairing pairs boundSources agree
    exact ⟨fun id => val ((maps .left).image id), fun id => val ((maps .right).image id),
      (values .left).congr (apart.consistent .left) fedLeft,
      (values .right).congr (apart.consistent .right) fedRight, value⟩

/-! ## Validation -/

/-- The netlists have equally many links, and all links on the left are bound. -/
structure Admissible (left right : Netlist) (sources targets : Binding) : Prop where
  sourceCount : left.sources.size = right.sources.size
  targetCount : left.targets.size = right.targets.size
  boundSources : ∀ l ∈ left.sources, l ∈ sources
  boundTargets : ∀ l ∈ left.targets, l ∈ targets

/-- What the refusal says is so. -/
def Explains (left right : Netlist) (sources targets : Binding) : Refusal → Prop
  | .inputCounts l r => l = left.sources.size ∧ r = right.sources.size ∧ l ≠ r
  | .outputCounts l r => l = left.targets.size ∧ r = right.targets.size ∧ l ≠ r
  | .unboundSource l => l ∈ left.sources ∧ l ∉ sources
  | .unboundTarget l => l ∈ left.targets ∧ l ∉ targets
  | _ => False

/-- The search for a link that is not bound. -/
theorem find_unbound (b : Binding) (links : LinkSet) :
    ((links.toList.find? fun l => !b.contains l) = none ∧ ∀ l ∈ links, l ∈ b) ∨
      ∃ l, (links.toList.find? fun l => !b.contains l) = some l ∧ l ∈ links ∧ l ∉ b := by
  cases search : links.toList.find? fun l => !b.contains l with
  | none =>
    refine .inl ⟨rfl, fun l mem => ?_⟩
    simpa using List.find?_eq_none.mp search l (TreeSet.mem_toList.mpr mem)
  | some l =>
    have unbound : b.contains l = false := by simpa using List.find?_some search
    refine .inr ⟨l, rfl, TreeSet.mem_toList.mp (List.mem_of_find?_eq_some search), fun mem => ?_⟩
    rw [TreeMap.contains_iff_mem.mpr mem] at unbound
    cases unbound

/-- NETLISTS ARE REFUSED FOR A REASON, and there is none where they are admissible. -/
theorem validate_cases (left right : Netlist) (sources targets : Binding) :
    (validate left right sources targets = .ok () ∧ Admissible left right sources targets) ∨
      ∃ r, validate left right sources targets = .error r ∧ Explains left right sources targets r := by
  unfold validate
  by_cases sourceCount : left.sources.size = right.sources.size
  · by_cases targetCount : left.targets.size = right.targets.size
    · rcases find_unbound sources left.sources with ⟨search, boundSources⟩ | ⟨l, search, unbound⟩
      · rcases find_unbound targets left.targets with ⟨search', boundTargets⟩ | ⟨l, search', unbound⟩
        · refine .inl ⟨?_, sourceCount, targetCount, boundSources, boundTargets⟩
          simp only [sourceCount, targetCount, ne_eq, not_true_eq_false, if_false, search, search']
          rfl
        · refine .inr ⟨.unboundTarget l, ?_, unbound⟩
          simp only [sourceCount, targetCount, ne_eq, not_true_eq_false, if_false, search, search']
          rfl
      · refine .inr ⟨.unboundSource l, ?_, unbound⟩
        simp only [sourceCount, targetCount, ne_eq, not_true_eq_false, if_false, search]
        rfl
    · refine .inr ⟨.outputCounts _ _, ?_, rfl, rfl, targetCount⟩
      simp only [sourceCount, targetCount, ne_eq, not_true_eq_false, not_false_eq_true, if_false, if_true]
      rfl
  · refine .inr ⟨.inputCounts _ _, ?_, rfl, rfl, sourceCount⟩
    simp only [sourceCount, ne_eq, not_false_eq_true, if_true]
    rfl

theorem Admissible.not_explains {left right : Netlist} {sources targets : Binding}
    (h : Admissible left right sources targets) (r : Refusal) : ¬Explains left right sources targets r := by
  intro explains
  cases r with
  | inputCounts =>
    obtain ⟨rfl, rfl, different⟩ := explains
    exact different h.sourceCount
  | outputCounts =>
    obtain ⟨rfl, rfl, different⟩ := explains
    exact different h.targetCount
  | unboundSource l => exact explains.2 (h.boundSources l explains.1)
  | unboundTarget l => exact explains.2 (h.boundTargets l explains.1)
  | solver | parse | unsupported | storage => exact explains

/-- Netlists whose links are bound one-to-one are not refused. -/
theorem validate_eq_ok {left right : Netlist} {sources targets : Binding}
    (boundSources : Bijects sources (· ∈ left.sources) (· ∈ right.sources))
    (boundTargets : Bijects targets (· ∈ left.targets) (· ∈ right.targets)) :
    validate left right sources targets = .ok () := by
  have admissible : Admissible left right sources targets := by
    refine ⟨?_, ?_, fun l => (boundSources.keys l).mpr, fun l => (boundTargets.keys l).mpr⟩
    · rw [← size_eq_of_keys boundSources.keys, boundSources.size_right]
    · rw [← size_eq_of_keys boundTargets.keys, boundTargets.size_right]
  rcases validate_cases left right sources targets with ⟨accepted, _⟩ | ⟨r, _, explains⟩
  · exact accepted
  · exact absurd explains (admissible.not_explains r)

/-! ## Assignments -/

section Assignments

variable {left right : Netlist} {sources targets : Binding} {m : Netlist} {input : Link → GateId} {out : GateId}
  (h : IsMiter left right sources targets m input out)
include h

theorem IsMiter.toList_targets : m.targets.toList = [.port out] := by
  refine List.perm_singleton.mp ((List.perm_ext_iff_of_nodup (nodup_toList _) (List.nodup_singleton _)).mpr fun l => ?_)
  rw [TreeSet.mem_toList, h.mem_targets, List.mem_singleton]

/-- Every assignment to the inputs is that of a valuation. -/
theorem IsMiter.exists_valuation (feed : Link → Bool) :
    ∃ val, m.view.Valuation val ∧ ∀ k ∈ sources, val (input k) = feed k := by
  have injOn : Set.InjOn input {k | k ∈ sources} := fun k mem k' mem' => h.injective k mem k' mem'
  obtain ⟨val, valuation, agree⟩ := h.circuit.exists_valuation (feed ∘ Function.invFunOn input {k | k ∈ sources})
  refine ⟨val, valuation, fun k mem => ?_⟩
  calc
    val (input k) = feed (Function.invFunOn input {k | k ∈ sources} (input k)) :=
      agree (.port (input k)) ((h.mem_sources _).mpr ⟨k, mem, rfl⟩)
    _ = feed k := congrArg feed (injOn.leftInvOn_invFunOn mem)

/-- Under an assignment to the pairs of sources, both netlists have values, and the output tells whether a bound pair
of targets differs. -/
theorem IsMiter.evaluates (circuitLeft : left.view.Circuit) (circuitRight : right.view.Circuit)
    (bound : Bijects targets (· ∈ left.targets) (· ∈ right.targets)) {feedLeft feedRight : Link → Bool}
    (agree : ∀ l r : Link, sources[l]? = some r → feedLeft l = feedRight r) :
    ∃ valLeft valRight, left.FedValues feedLeft valLeft ∧ right.FedValues feedRight valRight ∧
      m.view.Evaluates (sources.toList.map fun p => (input p.1, feedLeft p.1)) out
        (targets.toList.any fun p => valLeft p.1.source != valRight p.2.source) := by
  have fedAs : ∀ {val : GateId → Bool}, (∀ k ∈ sources, val (input k) = feedLeft k) →
      ∀ l r : Link, sources[l]? = some r → feedLeft l = val (input l) ∧ feedRight r = val (input l) := by
    intro val given l r entry
    have value := given l (mem_of_getElem? entry)
    exact ⟨value.symm, (agree l r entry).symm.trans value.symm⟩
  obtain ⟨val, valuation, given⟩ := h.exists_valuation feedLeft
  obtain ⟨valLeft, valRight, fedLeft, fedRight, _⟩ := h.values val feedLeft feedRight valuation (fedAs given)
  refine ⟨valLeft, valRight, fedLeft.fedValues circuitLeft, fedRight.fedValues circuitRight, ⟨val, valuation, ?_⟩, ?_⟩
  · intro x mem
    obtain ⟨p, entry, rfl⟩ := List.mem_map.mp mem
    exact given p.1 (mem_of_getElem? (TreeMap.mem_toList_iff_getElem?_eq_some.mp entry))
  · intro val' valuation' given'
    have same : ∀ k ∈ sources, val' (input k) = feedLeft k := by
      intro k mem
      obtain ⟨r, entry⟩ := exists_value mem
      exact given' (input k, feedLeft k)
        (List.mem_map.mpr ⟨(k, r), TreeMap.mem_toList_iff_getElem?_eq_some.mpr entry, rfl⟩)
    obtain ⟨valLeft', valRight', fedLeft', fedRight', value⟩ := h.values val' feedLeft feedRight valuation' (fedAs same)
    rw [value]
    rw [Bool.eq_iff_iff, List.any_eq_true, List.any_eq_true]
    refine exists_congr fun p => and_congr_right fun mem => ?_
    have entry : targets[p.1]? = some p.2 := TreeMap.mem_toList_iff_getElem?_eq_some.mp mem
    rw [eq_at_target circuitLeft fedLeft' fedLeft ((bound.keys _).mp (mem_of_getElem? entry)),
      eq_at_target circuitRight fedRight' fedRight ((bound.values _).mp ⟨_, entry⟩)]

end Assignments

end Miter

/-- The miter of two circuits under one-to-one bindings, whatever else the hints say. -/
theorem exists_miter {left right : Netlist} (circuitLeft : left.view.Circuit) (circuitRight : right.view.Circuit)
    {hints : Hints} {sources targets : Binding} (isSources : hints.sources.getD {} = sources)
    (isTargets : hints.targets.getD {} = targets)
    (boundSources : Bijects sources (· ∈ left.sources) (· ∈ right.sources))
    (boundTargets : Bijects targets (· ∈ left.targets) (· ∈ right.targets))
    (room : left.names.length + right.names.length + sources.size + targets.size + 2 ≤ GateId.largest) :
    ∃ m input out, (miter left right hints).outcome = .ok m ∧ Miter.IsMiter left right sources targets m input out := by
  obtain ⟨m, input, out, built, isMiter⟩ :=
    Miter.exists_combine circuitLeft circuitRight boundSources boundTargets room
  refine ⟨m, input, out, ?_, isMiter⟩
  unfold miter
  dsimp only
  rw [isSources, isTargets, Miter.validate_eq_ok boundSources boundTargets]
  exact built

/-! ## Two circuits that read one driver twice -/

namespace Miter

/-- The parity of a driver outside with itself. -/
def selfParity : Netlist := .made [.nary .xor [⟨0⟩, ⟨0⟩], .nary .output [⟨1⟩]]

/-- A driver outside and its negation. -/
def selfDenial : Netlist := .made [.nary .not [⟨0⟩], .nary .and [⟨0⟩, ⟨1⟩], .nary .output [⟨2⟩]]

theorem selfParity_circuit : selfParity.view.Circuit := View.circuit_made (by decide +kernel)

theorem selfDenial_circuit : selfDenial.view.Circuit := View.circuit_made (by decide +kernel)

/-- The first use of the driver with the use that is negated, and the second with the other one. -/
def inTurn : Binding :=
  TreeMap.ofList [(Link.edge ⟨0⟩ ⟨1⟩ 0, Link.edge ⟨0⟩ ⟨1⟩ 0), (.edge ⟨0⟩ ⟨1⟩ 1, .edge ⟨0⟩ ⟨2⟩ 0)]

/-- The two uses in turn, and the two outputs. -/
def inTurnHints : Hints := Checker.boundHints inTurn (Checker.portPairs [(2, 3)])

theorem inTurn_bijects : Bijects inTurn (· ∈ selfParity.sources) (· ∈ selfDenial.sources) :=
  bijects_of_lists (by decide +kernel) (by decide +kernel) (nodup_toList _) (fun _ => TreeSet.mem_toList)
    fun _ => TreeSet.mem_toList

theorem outputs_biject : Bijects (Checker.portPairs [(2, 3)]) (· ∈ selfParity.targets) (· ∈ selfDenial.targets) :=
  bijects_of_lists (by decide +kernel) (by decide +kernel) (nodup_toList _) (fun _ => TreeSet.mem_toList)
    fun _ => TreeSet.mem_toList

theorem selfParity_value {feed : Link → Bool} {val : GateId → Bool} (fed : selfParity.FedBy feed val) :
    val ⟨2⟩ = (feed (.edge ⟨0⟩ ⟨1⟩ 0) != feed (.edge ⟨0⟩ ⟨1⟩ 1)) := by
  have outside : selfParity.contains ⟨0⟩ = false := by decide +kernel
  have inside : selfParity.contains ⟨1⟩ = true := by decide +kernel
  have parity : val ⟨1⟩ = GateFn.xor.evalBit false [feed (.edge ⟨0⟩ ⟨1⟩ 0), feed (.edge ⟨0⟩ ⟨1⟩ 1)] := by
    simpa [Shape.isSource, Shape.nary, Signal.plain, outside] using
      fed ⟨1⟩ ⟨.nary .xor [⟨0⟩, ⟨0⟩], ⟨1⟩, [.edge ⟨1⟩ ⟨2⟩ 0]⟩ (by decide +kernel)
  have output : val ⟨2⟩ = val ⟨1⟩ := by
    simpa [Shape.isSource, Shape.nary, Signal.plain, inside, GateFn.evalBit] using
      fed ⟨2⟩ ⟨.nary .output [⟨1⟩], ⟨2⟩, []⟩ (by decide +kernel)
  rw [output, parity, evalBit_xor]

theorem selfDenial_value {feed : Link → Bool} {val : GateId → Bool} (fed : selfDenial.FedBy feed val) :
    val ⟨3⟩ = (feed (.edge ⟨0⟩ ⟨2⟩ 0) && !feed (.edge ⟨0⟩ ⟨1⟩ 0)) := by
  have outside : selfDenial.contains ⟨0⟩ = false := by decide +kernel
  have inside : selfDenial.contains ⟨1⟩ = true ∧ selfDenial.contains ⟨2⟩ = true := by decide +kernel
  have negation : val ⟨1⟩ = !feed (.edge ⟨0⟩ ⟨1⟩ 0) := by
    simpa [Shape.isSource, Shape.nary, Signal.plain, outside, GateFn.evalBit] using
      fed ⟨1⟩ ⟨.nary .not [⟨0⟩], ⟨1⟩, [.edge ⟨1⟩ ⟨2⟩ 1]⟩ (by decide +kernel)
  have conjunction : val ⟨2⟩ = (feed (.edge ⟨0⟩ ⟨2⟩ 0) && val ⟨1⟩) := by
    simpa [Shape.isSource, Shape.nary, Signal.plain, outside, inside, GateFn.evalBit] using
      fed ⟨2⟩ ⟨.nary .and [⟨0⟩, ⟨1⟩], ⟨2⟩, [.edge ⟨2⟩ ⟨3⟩ 0]⟩ (by decide +kernel)
  have output : val ⟨3⟩ = val ⟨2⟩ := by
    simpa [Shape.isSource, Shape.nary, Signal.plain, inside, GateFn.evalBit] using
      fed ⟨3⟩ ⟨.nary .output [⟨2⟩], ⟨3⟩, []⟩ (by decide +kernel)
  rw [output, conjunction, negation]

end Miter

/-- THE MITER COMPUTES THE DIFFERENCE. It has one output, one input for each pair of bound source links, and under
every assignment to the pairs its output is set exactly if some bound targets differ. -/
theorem miter_difference {left right : Netlist} (circuitLeft : left.view.Circuit) (circuitRight : right.view.Circuit)
    {hints : Hints} {sources targets : Binding} (isSources : hints.sources.getD {} = sources)
    (isTargets : hints.targets.getD {} = targets)
    (boundSources : Bijects sources (· ∈ left.sources) (· ∈ right.sources))
    (boundTargets : Bijects targets (· ∈ left.targets) (· ∈ right.targets))
    (room : left.names.length + right.names.length + sources.size + targets.size + 2 ≤ GateId.largest) :
    ∃ (m : Netlist) (input : Link → GateId) (out : GateId), (miter left right hints).outcome = .ok m ∧ m.view.Circuit ∧
      m.targets.toList = [.port out] ∧ (∀ l, l ∈ m.sources ↔ ∃ k ∈ sources, l = .port (input k)) ∧
      (∀ k ∈ sources, ∀ k' ∈ sources, input k = input k' → k = k') ∧
      ∀ feedLeft feedRight : Link → Bool, (∀ l r : Link, sources[l]? = some r → feedLeft l = feedRight r) →
        ∃ valLeft valRight, left.FedValues feedLeft valLeft ∧ right.FedValues feedRight valRight ∧
          m.view.Evaluates (sources.toList.map fun p => (input p.1, feedLeft p.1)) out
            (targets.toList.any fun p => valLeft p.1.source != valRight p.2.source) := by
  obtain ⟨m, input, out, built, isMiter⟩ :=
    exists_miter circuitLeft circuitRight isSources isTargets boundSources boundTargets room
  exact ⟨m, input, out, built, isMiter.circuit, isMiter.toList_targets, isMiter.mem_sources, isMiter.injective,
    fun _ _ agree => isMiter.evaluates circuitLeft circuitRight boundTargets agree⟩

/-- Fed link by link, a parity of two differs from the second without the first where only the first is set. -/
theorem miter_selfParity_selfDenial : ∃ (m : Netlist) (first second out : GateId),
    (miter Miter.selfParity Miter.selfDenial Miter.inTurnHints).outcome = .ok m ∧
      m.targets.toList = [.port out] ∧ first ≠ second ∧
      ∀ a b : Bool, m.view.Evaluates [(first, a), (second, b)] out (a && !b) := by
  obtain ⟨m, input, out, built, _, single, _, injective, evaluates⟩ :=
    @miter_difference Miter.selfParity Miter.selfDenial Miter.selfParity_circuit Miter.selfDenial_circuit
      Miter.inTurnHints _ _ rfl rfl Miter.inTurn_bijects Miter.outputs_biject (by decide +kernel)
  refine ⟨m, input (.edge ⟨0⟩ ⟨1⟩ 0), input (.edge ⟨0⟩ ⟨1⟩ 1), out, built, single, ?_, fun a b => ?_⟩
  · intro same
    cases injective _ (by decide +kernel) _ (by decide +kernel) same
  · let feedLeft : Link → Bool := fun l => if l.pin = .input 0 then a else b
    let feedRight : Link → Bool := fun l => if l.target = ⟨1⟩ then a else b
    have sources : Miter.inTurn.toList =
        [(.edge ⟨0⟩ ⟨1⟩ 0, .edge ⟨0⟩ ⟨1⟩ 0), (.edge ⟨0⟩ ⟨1⟩ 1, .edge ⟨0⟩ ⟨2⟩ 0)] := by
      decide +kernel
    have targets : (Checker.portPairs [(2, 3)]).toList = [(Link.port ⟨2⟩, Link.port ⟨3⟩)] := by decide +kernel
    obtain ⟨valLeft, valRight, fedLeft, fedRight, value⟩ := evaluates feedLeft feedRight (by
      intro l r entry
      have mem : (l, r) ∈ Miter.inTurn.toList := TreeMap.mem_toList_iff_getElem?_eq_some.mpr entry
      rw [sources, List.mem_cons, List.mem_singleton] at mem
      rcases mem with pair | pair <;> cases pair <;> rfl)
    have difference : (Checker.portPairs [(2, 3)]).toList.any
        (fun p => valLeft p.1.source != valRight p.2.source) = (a && !b) := by
      rw [targets, List.any_cons, List.any_nil, Bool.or_false]
      show (valLeft ⟨2⟩ != valRight ⟨3⟩) = (a && !b)
      rw [Miter.selfParity_value fedLeft.fed, Miter.selfDenial_value fedRight.fed]
      show ((a != b) != (b && !a)) = (a && !b)
      cases a <;> cases b <;> rfl
    have given : Miter.inTurn.toList.map (fun p => (input p.1, feedLeft p.1)) =
        [(input (.edge ⟨0⟩ ⟨1⟩ 0), a), (input (.edge ⟨0⟩ ⟨1⟩ 1), b)] := by
      rw [sources]
      rfl
    rw [← difference, ← given]
    exact value

end LogicNet
