import LogicNet.Proofs.Equivalence.Strategies
import LogicNet.Proofs.Simulation.Lockstep

/-!
# Cutting at triggers

A sequential check cuts two netlists at their bound triggers. The outputs of triggers become sources and their
inputs become targets, and what is left is compared in a single step. If all inputs of bound triggers were
compared, then equal values of the triggers lead to equal values of the triggers, and the netlists are in
lockstep.

The cut keeps the pairs of drivers to be compared in a table keyed by the LEFT driver. Where two bound triggers
read one driver on the left and two on the right, one of the pairs is lost and nothing compares it. Bindings
under which this does not happen are ALIGNED, and for them an equal verdict is right
(`Checker.check_sound`). For others it may be wrong (`Checker.lost_pair`).
-/

namespace LogicNet

open Std

/-! ## The cut -/

namespace Checker

/-- The drivers of the inputs of two gates, in pairs. -/
def inputPairs (left right : Netlist) (x : GateId × GateId) : List (GateId × GateId) :=
  match left.gate? x.1, right.gate? x.2 with
  | some l, some r => (l.inputs.zip r.inputs).map fun s => (s.1.driver, s.2.driver)
  | _, _ => []

/-- Bound triggers that share a driver on the left share one on the right. -/
def Aligned (left right : Netlist) (triggers : Binding) : Prop :=
  ∀ x ∈ driverPairs triggers, ∀ y ∈ driverPairs triggers, ∀ a ∈ inputPairs left right x,
    ∀ b ∈ inputPairs left right y, a.1 = b.1 → a.2 = b.2

variable {left right : Netlist}

theorem inputPairs_eq {x : GateId × GateId} {l r : Gate} (foundLeft : left.gate? x.1 = some l)
    (foundRight : right.gate? x.2 = some r) :
    inputPairs left right x = (l.inputs.zip r.inputs).map fun s => (s.1.driver, s.2.driver) := by
  simp only [inputPairs, foundLeft, foundRight]

/-- Cutting succeeds on gates of one function and arity. -/
structure Cuttable (left right : Netlist) (x : GateId × GateId) (l r : Gate) : Prop where
  left : left.gate? x.1 = some l
  right : right.gate? x.2 = some r
  fn : l.fn = r.fn
  arity : l.inputs.length = r.inputs.length

/-- The pairs of drivers are read by the two gates. -/
theorem Cuttable.reads {x a : GateId × GateId} {l r : Gate} (h : Cuttable left right x l r)
    (mem : a ∈ inputPairs left right x) :
    (∃ s ∈ l.inputs, s.driver = a.1) ∧ ∃ s ∈ r.inputs, s.driver = a.2 := by
  rw [inputPairs_eq h.left h.right] at mem
  obtain ⟨s, inside, rfl⟩ := List.mem_map.mp mem
  have both := List.of_mem_zip inside
  exact ⟨⟨s.1, both.1, rfl⟩, ⟨s.2, both.2, rfl⟩⟩

theorem cutTrigger_eq_ok (coherentLeft : left.view.Coherent) (coherentRight : right.view.Coherent)
    {bound bound' : Binding × Binding} {pair : Link × Link}
    (made : cutTrigger left.view right.view bound pair = .ok bound') :
    (∃ l r, Cuttable left right (pair.1.source, pair.2.source) l r) ∧
      bound' = (bindPorts bound.1 [(pair.1.source, pair.2.source)],
        bindPorts bound.2 (inputPairs left right (pair.1.source, pair.2.source))) := by
  obtain ⟨l, foundLeft, made⟩ := Result.bind_eq_ok.mp made
  obtain ⟨r, foundRight, made⟩ := Result.bind_eq_ok.mp made
  obtain ⟨_, sameFn, made⟩ := Result.bind_eq_ok.mp made
  obtain ⟨_, sameArity, made⟩ := Result.bind_eq_ok.mp made
  cases made
  have foundLeft := Netlist.gate_eq_ok.mp foundLeft
  have foundRight := Netlist.gate_eq_ok.mp foundRight
  refine ⟨⟨l, r, foundLeft, foundRight, ?_, ?_⟩, ?_⟩
  · exact eq_of_beq (Result.require_eq_ok.mp sameFn)
  · exact eq_of_beq (Result.require_eq_ok.mp sameArity)
  · rw [inputPairs_eq foundLeft foundRight, bindPorts, bindPorts, List.foldl_map,
      coherentLeft.wired.keyed foundLeft, coherentRight.wired.keyed foundRight]
    rfl

/-- The ports of bound triggers become sources, and all pairs of their drivers targets. -/
theorem cutTriggers_eq_ok (coherentLeft : left.view.Coherent) (coherentRight : right.view.Coherent)
    {sources targets triggers : Binding} {cut : Binding × Binding}
    (made : cutTriggers left.view right.view sources targets triggers = .ok cut) :
    let state := triggers.toList.map fun pair => (pair.1.source, pair.2.source)
    (∀ x ∈ state, ∃ l r, Cuttable left right x l r) ∧
      cut = (bindPorts sources state, bindPorts targets (state.flatMap (inputPairs left right))) := by
  unfold cutTriggers at made
  generalize triggers.toList = pairs at *
  induction pairs generalizing sources targets with
  | nil =>
    cases made
    exact ⟨by simp, rfl⟩
  | cons pair pairs ih =>
    rw [List.foldlM_cons] at made
    obtain ⟨bound, first, rest⟩ := Result.bind_eq_ok.mp made
    obtain ⟨cuttable, rfl⟩ := cutTrigger_eq_ok coherentLeft coherentRight first
    obtain ⟨others, rfl⟩ := ih rest
    refine ⟨List.forall_mem_cons.mpr ⟨cuttable, others⟩, ?_⟩
    simp only [List.map_cons, List.flatMap_cons, bindPorts_append]
    rfl

end Checker

/-! ## Clocked netlists -/

namespace Netlist

/-- Logic on plain signals and memory with a sampled input, without loops through logic alone and without
drivers outside. -/
structure Clocked (net : Netlist) : Prop where
  reachable : net.Reachable
  gates : ∀ id g, net.gate? id = some g → g.fn.isLogic = true ∧ g.isTrigger = false ∨
    g.fn.isTriggered = true ∧ g.isTrigger = true
  acyclic : net.view.Acyclic
  closed : ∀ l ∈ net.top.sources, l.isPort = true

theorem trigger_ne_source {net : Netlist} {a b : GateId} (trigger : ∃ g, net.gate? a = some g ∧ g.isTrigger = true)
    (source : ∃ g, net.gate? b = some g ∧ g.isSource = true) : a ≠ b := by
  rintro rfl
  obtain ⟨g, found, trigger⟩ := trigger
  obtain ⟨d, here, source⟩ := source
  rw [found] at here
  cases here
  rw [Shape.isTrigger_of_isSource source] at trigger
  cases trigger

/-- The link is the port of a trigger. -/
def IsTriggerPort (net : Netlist) (l : Link) : Prop := ∃ id ∈ net.top.triggers, l = .port id

namespace Clocked

variable {net : Netlist} (h : net.Clocked)
include h

theorem coherent : net.view.Coherent := h.reachable.consistent.coherent_view

theorem mem_gates {id : GateId} : id ∈ net.view.part.gates ↔ ∃ g, net.gate? id = some g :=
  h.reachable.consistent.mem_view_gates

/-- The sources are the ports of the source gates: no edge comes from outside. -/
theorem mem_sources {l : Link} :
    l ∈ net.top.sources ↔ ∃ id g, l = .port id ∧ net.gate? id = some g ∧ g.isSource = true := by
  have enters := h.reachable.consistent.top.bounds.sources
  constructor
  · intro mem
    rcases (enters l).mp mem with ⟨g, found, _, source, port⟩ | ⟨edge, _⟩
    · exact ⟨l.source, g, port, found, source⟩
    · have port := h.closed l mem
      rw [edge.not_isPort] at port
      cases port
  · rintro ⟨id, g, rfl, found, source⟩
    exact (enters _).mpr (onBoundary_port.mpr ⟨g, found, contains_iff.mpr ⟨g, found⟩, source⟩)

theorem driver_inside {id : GateId} {g : Gate} (found : net.gate? id = some g) {s : Signal} (read : s ∈ g.inputs) :
    ∃ d, net.gate? s.driver = some d := by
  obtain ⟨i, edge⟩ := exists_edge_of_read found read
  rw [← contains_iff]
  by_contra outside
  have crosses : (net.contains id && !net.contains s.driver) = true := by
    rw [Bool.eq_false_iff.mpr outside, contains_iff.mpr ⟨g, found⟩]
    rfl
  have port := h.closed _ ((h.reachable.consistent.top.bounds.sources _).mpr (.inr ⟨edge, crosses⟩))
  rw [edge.not_isPort] at port
  cases port

/-- The targets are the ports of the output gates: every edge ends at a gate. -/
theorem mem_targets {l : Link} (mem : l ∈ net.top.targets) :
    ∃ id g, l = .port id ∧ net.gate? id = some g ∧ g.isOutput = true := by
  rcases (h.reachable.consistent.top.bounds.targets l).mp mem with ⟨g, found, _, output, port⟩ | ⟨edge, crosses⟩
  · exact ⟨l.source, g, port, found, output⟩
  · obtain ⟨g, found, _⟩ := edge
    beta_reduce at crosses
    rw [contains_iff.mpr ⟨g, found⟩, Bool.not_true, Bool.and_false] at crosses
    cases crosses

theorem mem_triggers {id : GateId} : id ∈ net.top.triggers ↔ ∃ g, net.gate? id = some g ∧ g.isTrigger = true := by
  refine (h.coherent.covers.accounts.triggers id).trans ⟨And.right, fun ⟨g, found, trigger⟩ => ?_⟩
  exact ⟨h.mem_gates.mpr ⟨g, found⟩, g, found, trigger⟩

theorem exists_source {id : GateId} :
    (∃ l, l ∈ net.top.sources ∧ l.source = id) ↔ ∃ g, net.gate? id = some g ∧ g.isSource = true := by
  constructor
  · rintro ⟨l, mem, rfl⟩
    obtain ⟨id, g, rfl, found, source⟩ := h.mem_sources.mp mem
    exact ⟨g, found, source⟩
  · rintro ⟨g, found, source⟩
    exact ⟨.port id, h.mem_sources.mpr ⟨id, g, rfl, found, source⟩, rfl⟩

theorem exists_trigger {id : GateId} :
    (∃ l, net.IsTriggerPort l ∧ l.source = id) ↔ ∃ g, net.gate? id = some g ∧ g.isTrigger = true := by
  rw [← h.mem_triggers]
  constructor
  · rintro ⟨_, ⟨id, mem, rfl⟩, rfl⟩
    exact mem
  · exact fun mem => ⟨.port id, ⟨id, mem, rfl⟩, rfl⟩

/-- The free gates are the sources and the triggers. -/
theorem isFree_iff {id : GateId} {g : Gate} (found : net.gate? id = some g) :
    g.isFree = true ↔ g.isSource = true ∨ g.isTrigger = true := by
  rw [Shape.isFree, Bool.or_eq_true]
  refine or_congr_right ?_
  rcases h.gates id g found with ⟨logic, plain⟩ | ⟨memory, trigger⟩
  · rw [GateFn.isTriggered_of_isLogic logic, plain]
  · rw [memory, trigger]

theorem timed : net.view.Timed := by
  intro id _ g found triggered
  rcases h.gates id g found with ⟨logic, _⟩ | ⟨_, trigger⟩
  · rw [GateFn.isTriggered_of_isLogic logic] at triggered
    cases triggered
  · exact trigger

theorem logical : net.view.Logical := by
  intro id _ g found
  rcases h.gates id g found with logic | ⟨memory, _⟩
  · exact .inr logic
  · exact .inl (by simp [Shape.isFree, memory])

theorem pinnable {pins : List GateId} (nodup : pins.Nodup)
    (free : ∀ id ∈ pins, ∃ g, net.gate? id = some g ∧ (g.isSource = true ∨ g.isTrigger = true)) :
    net.view.Pinnable pins := by
  refine ⟨nodup, fun id pin _ g found => ?_⟩
  obtain ⟨g', found', free⟩ := free id pin
  obtain rfl : g = g' := Option.some.inj (found.symm.trans found')
  exact (h.isFree_iff found).mpr free

/-- Pinned at its sources and triggers, a clocked netlist has nothing left that is not determined. -/
theorem simulable {pins : List GateId} (nodup : pins.Nodup)
    (pinned : ∀ id, id ∈ pins ↔ ∃ g, net.gate? id = some g ∧ (g.isSource = true ∨ g.isTrigger = true)) :
    net.view.Simulable pins where
  coherent := h.coherent
  logical := h.logical
  acyclic := h.acyclic
  pinnable := h.pinnable nodup fun id => (pinned id).mp
  complete id given := by
    rcases given with ⟨_, g, found, free⟩ | ⟨outside, t, _, g, found, s, read, rfl⟩
    · exact (pinned id).mpr ⟨g, found, (h.isFree_iff found).mp free⟩
    · exact absurd (h.mem_gates.mpr (h.driver_inside found read)) outside

/-- A clocked netlist can be compiled with some of its sources as pins, to read its targets. -/
theorem runnable {pins outs : List GateId} (nodup : pins.Nodup)
    (sources : ∀ id ∈ pins, ∃ l, l ∈ net.top.sources ∧ l.source = id)
    (targets : ∀ id ∈ outs, ∃ l, l ∈ net.top.targets ∧ l.source = id) : net.view.Runnable pins outs where
  coherent := h.coherent
  logical := h.logical
  acyclic := h.acyclic
  pinnable := by
    refine h.pinnable nodup fun id pin => ?_
    obtain ⟨g, found, source⟩ := h.exists_source.mp (sources id pin)
    exact ⟨g, found, .inl source⟩
  inside := by
    intro id read
    obtain ⟨l, target, rfl⟩ := targets id read
    exact h.coherent.source_of_target target

omit h in
/-- Sources of clocked netlists are ports, so if they are paired one-to-one their drivers are. -/
theorem oneToOne {left right : Netlist} (clockedLeft : left.Clocked) (clockedRight : right.Clocked)
    {sources : Binding} (bound : Bijects sources (· ∈ left.top.sources) (· ∈ right.top.sources)) :
    OneToOne (driverPairs sources) := by
  refine bound.oneToOne (unshared_of_ports ?_) (unshared_of_ports ?_)
  · intro l mem
    obtain ⟨id, _, rfl, _⟩ := clockedLeft.mem_sources.mp mem
    rfl
  · intro r mem
    obtain ⟨id, _, rfl, _⟩ := clockedRight.mem_sources.mp mem
    rfl

end Clocked

end Netlist

/-! ## Verdicts -/

namespace Checker

section Sequential

variable {left right : Netlist} {sources targets triggers : Binding}

/-- The bindings pair the ports and the triggers of two netlists one-to-one. -/
structure Bound (left right : Netlist) (sources targets triggers : Binding) : Prop where
  sources : Bijects sources (· ∈ left.top.sources) (· ∈ right.top.sources)
  targets : Bijects targets (· ∈ left.top.targets) (· ∈ right.top.targets)
  triggers : Bijects triggers left.IsTriggerPort right.IsTriggerPort

theorem mem_state {x : GateId × GateId} :
    x ∈ triggers.toList.map (fun pair => (pair.1.source, pair.2.source)) ↔ x ∈ driverPairs triggers :=
  List.mem_eraseDups.symm

/-- What the cut compares: sources with the states of bound triggers, and targets with all their inputs. -/
structure Cut (left right : Netlist) (sources targets triggers : Binding) (cut : Binding × Binding) : Prop where
  pins : ∀ x, x ∈ driverPairs cut.1 ↔ x ∈ driverPairs triggers ∨ x ∈ driverPairs sources
  reads : ∀ x, x ∈ driverPairs cut.2 ↔
    x ∈ (driverPairs triggers).flatMap (inputPairs left right) ∨ x ∈ driverPairs targets
  cuttable : ∀ x ∈ driverPairs triggers, ∃ l r, Cuttable left right x l r

/-- The bindings pair all that two netlists leave open, their sources and their triggers, one-to-one. -/
structure BoundOpen (left right : Netlist) (sources triggers : Binding) : Prop where
  sources : Bijects sources (· ∈ left.top.sources) (· ∈ right.top.sources)
  triggers : Bijects triggers left.IsTriggerPort right.IsTriggerPort

/-- Without triggers there is nothing to bind. -/
theorem toList_eq_nil_of_isEmpty (bound : Bijects triggers left.IsTriggerPort right.IsTriggerPort)
    (empty : left.top.triggers.isEmpty = true) : triggers.toList = [] := by
  rw [List.eq_nil_iff_forall_not_mem]
  rintro ⟨l, r⟩ mem
  have key := mem_of_getElem? (TreeMap.mem_toList_iff_getElem?_eq_some.mp mem)
  obtain ⟨id, trigger, _⟩ := (bound.keys l).mp key
  exact TreeSet.not_mem_of_isEmpty empty trigger

namespace BoundOpen

variable (bound : BoundOpen left right sources triggers) (clockedLeft : left.Clocked) (clockedRight : right.Clocked)
include bound clockedLeft clockedRight

/-- A bound trigger is a trigger on both sides. -/
theorem isTrigger {x : GateId × GateId} (mem : x ∈ driverPairs triggers) :
    (∃ g, left.gate? x.1 = some g ∧ g.isTrigger = true) ∧ ∃ g, right.gate? x.2 = some g ∧ g.isTrigger = true :=
  ⟨clockedLeft.exists_trigger.mp (bound.triggers.mem_left.mp (List.mem_map.mpr ⟨x, mem, rfl⟩)),
    clockedRight.exists_trigger.mp (bound.triggers.mem_right.mp (List.mem_map.mpr ⟨x, mem, rfl⟩))⟩

/-- A bound source is a source on both sides. -/
theorem isSource {x : GateId × GateId} (mem : x ∈ driverPairs sources) :
    (∃ g, left.gate? x.1 = some g ∧ g.isSource = true) ∧ ∃ g, right.gate? x.2 = some g ∧ g.isSource = true :=
  ⟨clockedLeft.exists_source.mp (bound.sources.mem_left.mp (List.mem_map.mpr ⟨x, mem, rfl⟩)),
    clockedRight.exists_source.mp (bound.sources.mem_right.mp (List.mem_map.mpr ⟨x, mem, rfl⟩))⟩

omit clockedLeft clockedRight in
theorem oneToOne_triggers : OneToOne (driverPairs triggers) := by
  refine bound.triggers.oneToOne (unshared_of_ports ?_) (unshared_of_ports ?_)
  · rintro _ ⟨id, _, rfl⟩
    rfl
  · rintro _ ⟨id, _, rfl⟩
    rfl

theorem oneToOne_sources : OneToOne (driverPairs sources) := clockedLeft.oneToOne clockedRight bound.sources

/-- The pins of the cut are the sources and the states, since no trigger is a source. -/
theorem pins_cut (x : GateId × GateId) :
    x ∈ driverPairs (bindPorts sources (triggers.toList.map fun pair => (pair.1.source, pair.2.source))) ↔
      x ∈ driverPairs triggers ∨ x ∈ driverPairs sources := by
  rw [mem_driverPairs_bindPorts, mem_state]
  · intro x hx y hy same
    rw [mem_state] at hx hy
    exact (bound.oneToOne_triggers x hx y hy).mp same
  · intro x hx mem
    have memory := (bound.isTrigger clockedLeft clockedRight (mem_state.mp hx)).1
    obtain ⟨id, g, port, found, source⟩ := clockedLeft.mem_sources.mp ((bound.sources.keys _).mp mem)
    exact Netlist.trigger_ne_source memory ⟨g, found, source⟩ (port_inj port)

/-- The states and sources that are compared are all that the netlists do not determine. -/
theorem simulable {cut : Binding}
    (pins : ∀ x, x ∈ driverPairs cut ↔ x ∈ driverPairs triggers ∨ x ∈ driverPairs sources) :
    left.view.Simulable ((driverPairs cut).map Prod.fst) ∧ right.view.Simulable ((driverPairs cut).map Prod.snd) := by
  have apart : ∀ x ∈ driverPairs triggers, ∀ y ∈ driverPairs sources, x.1 ≠ y.1 ∧ x.2 ≠ y.2 := by
    intro x hx y hy
    have memory := bound.isTrigger clockedLeft clockedRight hx
    have source := bound.isSource clockedLeft clockedRight hy
    exact ⟨Netlist.trigger_ne_source memory.1 source.1, Netlist.trigger_ne_source memory.2 source.2⟩
  have oneToOne : OneToOne (driverPairs cut) := by
    intro x hx y hy
    rcases (pins x).mp hx with hx | hx <;> rcases (pins y).mp hy with hy | hy
    · exact bound.oneToOne_triggers x hx y hy
    · exact iff_of_false (apart x hx y hy).1 (apart x hx y hy).2
    · exact iff_of_false (apart y hy x hx).1.symm (apart y hy x hx).2.symm
    · exact bound.oneToOne_sources clockedLeft clockedRight x hx y hy
  have split (side : GateId × GateId → GateId) (id : GateId) : id ∈ (driverPairs cut).map side ↔
      id ∈ (driverPairs triggers).map side ∨ id ∈ (driverPairs sources).map side := by
    simp only [List.mem_map, pins, or_and_right, exists_or]
  refine ⟨clockedLeft.simulable oneToOne.nodup.1 fun id => ?_, clockedRight.simulable oneToOne.nodup.2 fun id => ?_⟩
  · rw [split, bound.triggers.mem_left, clockedLeft.exists_trigger, bound.sources.mem_left,
      clockedLeft.exists_source, ← exists_or, ← exists_congr fun _ => and_or_left]
    simp only [or_comm]
  · rw [split, bound.triggers.mem_right, clockedRight.exists_trigger, bound.sources.mem_right,
      clockedRight.exists_source, ← exists_or, ← exists_congr fun _ => and_or_left]
    simp only [or_comm]

end BoundOpen

namespace Bound

variable (bound : Bound left right sources targets triggers) (clockedLeft : left.Clocked)
  (clockedRight : right.Clocked)
include bound clockedLeft clockedRight

omit clockedLeft clockedRight in
theorem boundOpen : BoundOpen left right sources triggers := ⟨bound.sources, bound.triggers⟩

theorem cut_spec (aligned : Aligned left right triggers) {cut : Binding × Binding}
    (made : cutTriggers left.view right.view sources targets triggers = .ok cut) :
    Cut left right sources targets triggers cut := by
  obtain ⟨cuttable, rfl⟩ := cutTriggers_eq_ok clockedLeft.coherent clockedRight.coherent made
  constructor
  case cuttable => exact fun x mem => cuttable x (mem_state.mpr mem)
  case pins => exact bound.boundOpen.pins_cut clockedLeft clockedRight
  case reads =>
    intro x
    have same : x ∈ (triggers.toList.map fun pair => (pair.1.source, pair.2.source)).flatMap (inputPairs left right) ↔
        x ∈ (driverPairs triggers).flatMap (inputPairs left right) := by
      simp only [List.mem_flatMap, mem_state]
    rw [mem_driverPairs_bindPorts, same]
    · intro a ha b hb
      obtain ⟨y, hy, ha⟩ := List.mem_flatMap.mp ha
      obtain ⟨z, hz, hb⟩ := List.mem_flatMap.mp hb
      exact aligned y (mem_state.mp hy) z (mem_state.mp hz) a ha b hb
    · intro a ha mem
      obtain ⟨y, hy, ha⟩ := List.mem_flatMap.mp ha
      obtain ⟨l, r, cut⟩ := cuttable y hy
      obtain ⟨⟨s, read, driver⟩, _⟩ := cut.reads ha
      obtain ⟨id, d, port, found, output⟩ := clockedLeft.mem_targets ((bound.targets.keys _).mp mem)
      rw [← port_inj port, ← driver] at found
      rw [clockedLeft.coherent.wired.not_isOutput_of_read cut.left read found] at output
      cases output

/-- The cut compares all inputs of bound triggers exactly if the bindings are aligned. -/
theorem compares_iff {cut : Binding × Binding}
    (made : cutTriggers left.view right.view sources targets triggers = .ok cut) :
    (∀ x ∈ driverPairs triggers, ∀ a ∈ inputPairs left right x, a ∈ driverPairs cut.2) ↔
      Aligned left right triggers := by
  constructor
  · intro all x hx y hy a ha b hb same
    refine driverPairs_functional (unshared_of_ports fun l mem => ?_) (all x hx a ha) (all y hy b hb) same
    obtain ⟨_, rfl⟩ := cutTriggers_eq_ok clockedLeft.coherent clockedRight.coherent made
    rcases mem_bindPorts.mp mem with ⟨z, _, rfl⟩ | old
    · rfl
    · obtain ⟨id, _, rfl, _⟩ := clockedLeft.mem_targets ((bound.targets.keys l).mp old)
      rfl
  · intro aligned x hx a ha
    have spec := bound.cut_spec clockedLeft clockedRight aligned made
    exact (spec.reads a).mpr (.inl (List.mem_flatMap.mpr ⟨x, hx, ha⟩))

theorem runnable : left.view.Runnable ((driverPairs sources).map Prod.fst) ((driverPairs targets).map Prod.fst) ∧
    right.view.Runnable ((driverPairs sources).map Prod.snd) ((driverPairs targets).map Prod.snd) := by
  have nodup := (bound.boundOpen.oneToOne_sources clockedLeft clockedRight).nodup
  exact ⟨clockedLeft.runnable nodup.1 (fun _ => bound.sources.mem_left.mp) fun _ => bound.targets.mem_left.mp,
    clockedRight.runnable nodup.2 (fun _ => bound.sources.mem_right.mp) fun _ => bound.targets.mem_right.mp⟩

/-- Netlists that are equal after the cut are in lockstep. -/
theorem lockstep {c : Checker} (sound : c.oracle.Sound) {cut : Binding × Binding}
    (spec : Cut left right sources targets triggers cut)
    (equal : (c.combinational left.view right.view cut.1 cut.2).outcome = .ok .equal) :
    Lockstep left.view right.view (driverPairs sources) (driverPairs triggers) (driverPairs targets)
      (driverPairs cut.2) := by
  obtain ⟨simLeft, simRight⟩ := bound.boundOpen.simulable clockedLeft clockedRight spec.pins
  constructor
  case forces =>
    intro vl vr valLeft valRight fed held
    refine forces_of_combinational sound clockedLeft.coherent clockedRight.coherent (fun _ => ?_) equal vl vr valLeft
      valRight fun x mem => ((spec.pins x).mp mem).elim (held x) (fed x)
    exact ⟨⟨simLeft.determined, simRight.determined⟩, clockedLeft.timed, clockedRight.timed⟩
  case outputs => exact fun x mem => (spec.reads x).mpr (.inr mem)
  case memory =>
    intro x mem
    obtain ⟨⟨l, foundLeft, triggerLeft⟩, r, foundRight, triggerRight⟩ :=
      bound.boundOpen.isTrigger clockedLeft clockedRight mem
    obtain ⟨l', r', cuttable⟩ := spec.cuttable x mem
    obtain rfl : l = l' := Option.some.inj (foundLeft.symm.trans cuttable.left)
    obtain rfl : r = r' := Option.some.inj (foundRight.symm.trans cuttable.right)
    refine ⟨l, r, ⟨clockedLeft.mem_gates.mpr ⟨l, foundLeft⟩, foundLeft, triggerLeft, ?_⟩,
      ⟨clockedRight.mem_gates.mpr ⟨r, foundRight⟩, foundRight, triggerRight, ?_⟩, cuttable.fn, cuttable.arity, ?_⟩
    · intro pin
      have source := clockedLeft.exists_source.mp (bound.sources.mem_left.mp pin)
      exact Netlist.trigger_ne_source ⟨l, foundLeft, triggerLeft⟩ source rfl
    · intro pin
      have source := clockedRight.exists_source.mp (bound.sources.mem_right.mp pin)
      exact Netlist.trigger_ne_source ⟨r, foundRight, triggerRight⟩ source rfl
    · intro s pair
      refine (spec.reads _).mpr (.inl (List.mem_flatMap.mpr ⟨x, mem, ?_⟩))
      rw [inputPairs_eq foundLeft foundRight]
      exact List.mem_map.mpr ⟨s, pair, rfl⟩

omit clockedLeft clockedRight in
theorem toList_triggers (empty : left.top.triggers.isEmpty = true) : triggers.toList = [] :=
  toList_eq_nil_of_isEmpty bound.triggers empty

end Bound

/-- A flat check cuts at the triggers, if there are any, and compares what is left. -/
theorem exists_cut_of_check {c : Checker} {hints : Hints} {verdict : Verdict}
    (hintSources : hints.sources = some sources) (hintTargets : hints.targets = some targets)
    (hintTriggers : hints.triggers = some triggers)
    (flat : hints.parts = none ∨ left.size + right.size ≤ c.flatBound)
    (none : left.top.triggers.isEmpty = true → triggers.toList = [])
    (made : (c.check left right hints).outcome = .ok verdict) :
    ∃ cut, cutTriggers left.view right.view sources targets triggers = .ok cut ∧
      (c.combinational left.view right.view cut.1 cut.2).outcome = .ok verdict := by
  have flatMade : (c.flat left.view right.view sources targets hints).outcome = .ok verdict := by
    obtain ⟨bound, bindings⟩ := bindings_of_check made
    obtain ⟨hasSources, hasTargets, _⟩ := requireBindings_eq_ok.mp bindings
    obtain rfl : sources = bound.1 := Option.some.inj (hintSources.symm.trans hasSources)
    obtain rfl : targets = bound.2 := Option.some.inj (hintTargets.symm.trans hasTargets)
    rw [← outcome_check_flat bindings flat]
    exact made
  simp only [Checker.flat, hintTriggers, Traced.outcome_bind] at flatMade
  obtain ⟨_, _, flatMade⟩ := Result.bind_eq_ok.mp flatMade
  split at flatMade
  · next combinational =>
    refine ⟨(sources, targets), ?_, ?_⟩
    · rw [cutTriggers, none combinational]
      rfl
    · simpa using flatMade
  · simp only [byTriggers, Traced.outcome_bind, Traced.outcome_liftM, Traced.outcome_note] at flatMade
    obtain ⟨cut, made, flatMade⟩ := Result.bind_eq_ok.mp flatMade
    exact ⟨cut, made, flatMade⟩

/-- THE CUT IS SOUND for aligned bindings. If clocked netlists are found equal, under bindings that pair their
ports and triggers one-to-one, then all inputs of bound triggers were compared exactly if the bindings are
aligned. In this case the netlists give equal words on every pair of outputs at every step of every run,
from the zero state and fed with the same words. -/
theorem check_sound {c : Checker} (sound : c.oracle.Sound) (clockedLeft : left.Clocked)
    (clockedRight : right.Clocked) {hints : Hints} (hintSources : hints.sources = some sources)
    (hintTargets : hints.targets = some targets) (hintTriggers : hints.triggers = some triggers)
    (bound : Bound left right sources targets triggers)
    (flat : hints.parts = none ∨ left.size + right.size ≤ c.flatBound)
    (equal : (c.check left right hints).outcome = .ok .equal) :
    (∃ cut, cutTriggers left.view right.view sources targets triggers = .ok cut ∧
      ((∀ x ∈ driverPairs triggers, ∀ a ∈ inputPairs left right x, a ∈ driverPairs cut.2) ↔
        Aligned left right triggers)) ∧
    (Aligned left right triggers → ∃ leftSim rightSim,
      left.view.compile ((driverPairs sources).map Prod.fst) ((driverPairs targets).map Prod.fst) = .ok leftSim ∧
      right.view.compile ((driverPairs sources).map Prod.snd) ((driverPairs targets).map Prod.snd) = .ok rightSim ∧
      ∀ steps : List (List Word), (∀ words ∈ steps, words.length = (driverPairs sources).length) →
        ∃ rows, leftSim.run steps = .ok rows ∧ rightSim.run steps = .ok rows) := by
  obtain ⟨cut, made, equal⟩ := exists_cut_of_check hintSources hintTargets hintTriggers flat
    (fun empty => bound.toList_triggers empty) equal
  refine ⟨⟨cut, made, bound.compares_iff clockedLeft clockedRight made⟩, fun aligned => ?_⟩
  have spec := bound.cut_spec clockedLeft clockedRight aligned made
  obtain ⟨runLeft, runRight⟩ := bound.runnable clockedLeft clockedRight
  exact (bound.lockstep clockedLeft clockedRight sound spec equal).run runLeft runRight

end Sequential

section Samples

/-- Every gate is logic that reads only gates of smaller numbers, or memory, and all sources are ports. -/
def isClockwork (net : Netlist) : Bool :=
  (net.top.gates.all fun id => (net.gate? id).all fun g =>
    (g.fn.isLogic && !g.isTrigger && g.inputs.all fun s => s.driver.index < id.index) ||
      (g.fn.isTriggered && g.isTrigger)) && net.top.sources.toList.all (·.isPort)

theorem clocked_of_isClockwork {net : Netlist} (reachable : net.Reachable) (clockwork : isClockwork net = true) :
    net.Clocked := by
  obtain ⟨gates, ports⟩ := Bool.and_eq_true_iff.mp clockwork
  have each : ∀ id g, net.gate? id = some g →
      ((g.fn.isLogic = true ∧ g.isTrigger = false) ∧ ∀ s ∈ g.inputs, s.driver.index < id.index) ∨
        g.fn.isTriggered = true ∧ g.isTrigger = true := by
    intro id g found
    have mem := (reachable.consistent.top.members id).mp (Netlist.contains_iff.mpr ⟨g, found⟩)
    have := List.all_eq_true.mp gates id mem
    simpa [found] using this
  refine ⟨reachable, fun id g found => (each id g found).imp_left And.left, View.acyclic_of_forward ?_, ?_⟩
  · intro id _ g found plain
    rcases each id g found with ⟨_, forward⟩ | ⟨_, trigger⟩
    · exact forward
    · rw [plain] at trigger
      cases trigger
  · intro l mem
    exact List.all_eq_true.mp ports l (Std.TreeSet.mem_toList.mpr mem)

theorem clocked_made {shapes : List Shape} (clockwork : isClockwork (Netlist.made shapes) = true) :
    (Netlist.made shapes).Clocked := clocked_of_isClockwork (Netlist.reachable_made shapes) clockwork

/-- Bindings between ports and triggers that stand in the same order on both sides. -/
theorem bound_of_lists {left right : Netlist} {sources targets triggers : Binding}
    (sourceKeys : sources.toList.map Prod.fst = left.top.sources.toList)
    (sourceValues : sources.toList.map Prod.snd = right.top.sources.toList)
    (targetKeys : targets.toList.map Prod.fst = left.top.targets.toList)
    (targetValues : targets.toList.map Prod.snd = right.top.targets.toList)
    (triggerKeys : triggers.toList.map Prod.fst = left.top.triggers.toList.map Link.port)
    (triggerValues : triggers.toList.map Prod.snd = right.top.triggers.toList.map Link.port) :
    Bound left right sources targets triggers where
  sources := bijects_of_lists sourceKeys sourceValues (nodup_toList _) (fun _ => TreeSet.mem_toList)
    fun _ => TreeSet.mem_toList
  targets := bijects_of_lists targetKeys targetValues (nodup_toList _) (fun _ => TreeSet.mem_toList)
    fun _ => TreeSet.mem_toList
  triggers := by
    have port (net : Netlist) (l : Link) : l ∈ net.top.triggers.toList.map Link.port ↔ net.IsTriggerPort l := by
      simp [Netlist.IsTriggerPort, eq_comm]
    refine bijects_of_lists triggerKeys triggerValues ?_ (port left) (port right)
    exact (nodup_toList _).map fun _ _ => port_inj

/-- A parity of an input and its value before, stored. -/
def changes : Netlist := .made [⟨.input, []⟩, ⟨.input, []⟩, ⟨.flipFlop, [.plain ⟨0⟩, ⟨.rising, ⟨1⟩⟩]⟩,
  .nary .xor [⟨0⟩, ⟨2⟩], ⟨.flipFlop, [.plain ⟨3⟩, ⟨.rising, ⟨1⟩⟩]⟩, .nary .output [⟨4⟩]]

/-- The same with the parity made of its negation. -/
def negatedChanges : Netlist := .made [⟨.input, []⟩, ⟨.input, []⟩, ⟨.flipFlop, [.plain ⟨0⟩, ⟨.rising, ⟨1⟩⟩]⟩,
  .nary .xnor [⟨0⟩, ⟨2⟩], .nary .not [⟨3⟩], ⟨.flipFlop, [.plain ⟨4⟩, ⟨.rising, ⟨1⟩⟩]⟩, .nary .output [⟨5⟩]]

/-- Hints that bind ports and triggers. -/
def portHints (sources targets triggers : List (Nat × Nat)) : Hints :=
  { sources := some (portPairs sources), targets := some (portPairs targets), triggers := some (portPairs triggers) }

theorem changes_equals_negatedChanges :
    (Checker.check { oracle := trying } changes negatedChanges
      (portHints [(0, 0), (1, 1)] [(5, 6)] [(2, 2), (4, 5)])).outcome = .ok .equal ∧
    ∃ leftSim rightSim, changes.view.compile [⟨0⟩, ⟨1⟩] [⟨5⟩] = .ok leftSim ∧
      negatedChanges.view.compile [⟨0⟩, ⟨1⟩] [⟨6⟩] = .ok rightSim ∧
      ∀ steps : List (List Word), (∀ words ∈ steps, words.length = 2) →
        ∃ rows, leftSim.run steps = .ok rows ∧ rightSim.run steps = .ok rows := by
  have equal : (Checker.check { oracle := trying } changes negatedChanges
      (portHints [(0, 0), (1, 1)] [(5, 6)] [(2, 2), (4, 5)])).outcome = .ok .equal := by decide +kernel
  have clockedLeft : changes.Clocked := clocked_made (by decide +kernel)
  have clockedRight : negatedChanges.Clocked := clocked_made (by decide +kernel)
  have bound : Bound changes negatedChanges (portPairs [(0, 0), (1, 1)]) (portPairs [(5, 6)])
      (portPairs [(2, 2), (4, 5)]) := by
    refine bound_of_lists ?_ ?_ ?_ ?_ ?_ ?_ <;> decide +kernel
  have aligned : Aligned changes negatedChanges (portPairs [(2, 2), (4, 5)]) := by
    unfold Aligned
    decide +kernel
  have pins : driverPairs (portPairs [(0, 0), (1, 1)]) = [(⟨0⟩, ⟨0⟩), (⟨1⟩, ⟨1⟩)] := by decide +kernel
  have outs : driverPairs (portPairs [(5, 6)]) = [(⟨5⟩, ⟨6⟩)] := by decide +kernel
  have runs := (check_sound trying_correct.sound clockedLeft clockedRight rfl rfl rfl bound (.inl rfl) equal).2 aligned
  rw [pins, outs] at runs
  exact ⟨equal, runs⟩

/-- A flip-flop and a latch of one input. -/
def sharedData : Netlist := .made [⟨.input, []⟩, ⟨.input, []⟩, ⟨.flipFlop, [.plain ⟨0⟩, ⟨.rising, ⟨1⟩⟩]⟩,
  ⟨.latch, [.plain ⟨0⟩, ⟨.high, ⟨1⟩⟩]⟩, .nary .output [⟨2⟩], .nary .output [⟨3⟩]]

/-- A flip-flop of the negation of an input and a latch of the input. -/
def splitData : Netlist := .made [⟨.input, []⟩, ⟨.input, []⟩, .nary .not [⟨0⟩],
  ⟨.flipFlop, [.plain ⟨2⟩, ⟨.rising, ⟨1⟩⟩]⟩, ⟨.latch, [.plain ⟨0⟩, ⟨.high, ⟨1⟩⟩]⟩, .nary .output [⟨3⟩],
  .nary .output [⟨4⟩]]

/-- Two bound triggers share their data on the left and not on the right. Only one pair of the data is compared,
and netlists that differ at the second step are found equal. -/
theorem lost_pair : sharedData.Clocked ∧ splitData.Clocked ∧ Oracle.Sound trying ∧
    Bound sharedData splitData (portPairs [(0, 0), (1, 1)]) (portPairs [(4, 5), (5, 6)]) (portPairs [(2, 3), (3, 4)]) ∧
    (Checker.check { oracle := trying } sharedData splitData
      (portHints [(0, 0), (1, 1)] [(4, 5), (5, 6)] [(2, 3), (3, 4)])).outcome = .ok .equal ∧
    (sharedData.view.compile [⟨0⟩, ⟨1⟩] [⟨4⟩, ⟨5⟩] >>= fun sim => sim.run [[allLanes, 0], [0, 0]]) =
      .ok [[0, 0], [allLanes, 0]] ∧
    (splitData.view.compile [⟨0⟩, ⟨1⟩] [⟨5⟩, ⟨6⟩] >>= fun sim => sim.run [[allLanes, 0], [0, 0]]) =
      .ok [[0, 0], [0, 0]] := by
  refine ⟨clocked_made (by decide +kernel), clocked_made (by decide +kernel), trying_correct.sound, ?_, ?_, ?_, ?_⟩
  · refine bound_of_lists ?_ ?_ ?_ ?_ ?_ ?_ <;> decide +kernel
  · decide +kernel
  · decide +kernel
  · decide +kernel

end Samples

end Checker

end LogicNet
