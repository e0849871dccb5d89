import LogicNet.Design.Report
import LogicNet.Proofs.Design.Binding
import LogicNet.Proofs.Equivalence.Triggers

/-!
# The gates of a difference

A counterexample lists values and names no gate. A report works out for itself which links were compared, from the
bindings and the flip-flops of the left design, and puts names and values side by side. If one list were longer than the
other the rest would be lost, and if one link stood at another place all that follows would have wrong names.

**The law** (`report_attributes`): where two texts were read and bound by name, the links of a report are those that the
check compared, one by one, and every pair of values belongs to the gates of its own link. What is compared are ports,
and a port is known by its gate, so no pair is left out as a repetition.

**What it does not establish.** A gate without a name is printed by its number, and a text may have given this as a name
to another gate.
-/

namespace LogicNet

open Std

/-! ## Netlists that were read -/

namespace Bench

section IsRead

variable {net : Netlist} {symbols : SymbolTable} {s : Shape}

/-- What is read is logic on plain signals or a flip-flop with a clock, cells apart. -/
theorem IsRead.kind (h : IsRead net symbols s) (interpreted : s.fn.isUninterpreted = false) :
    s.fn.isLogic = true ∧ s.isTrigger = false ∨ s.fn.isTriggered = true ∧ s.isTrigger = true := by
  cases read : s.isTrigger with
  | true =>
    have flipFlop := fn_of_isTrigger h read
    exact .inr ⟨by rw [flipFlop]; rfl, rfl⟩
  | false =>
    cases h with
    | nary drivers stateless => exact .inl ⟨GateFn.isLogic_of_isTriggered interpreted stateless, rfl⟩
    | flipFlop => cases read

end IsRead

namespace WasRead

variable {net : Netlist} {symbols : SymbolTable} (h : WasRead net symbols)
include h

/-- No edge comes from outside. -/
theorem isPort_of_source {l : Link} (mem : l ∈ net.top.sources) : l.isPort = true := by
  rcases (h.reachable.consistent.top.bounds.sources l).mp mem with ⟨_, _, _, _, port⟩ | ⟨⟨g, found, edge⟩, crosses⟩
  · rw [port]
    rfl
  · obtain ⟨s, read, driver⟩ := Netlist.source_of_mem_inputLinks edge
    obtain ⟨d, known⟩ := h.closed (.inr ⟨l.target, g, s, found, read, driver⟩)
    beta_reduce at crosses
    rw [Netlist.contains_iff.mpr ⟨d, known⟩, Bool.not_true, Bool.and_false] at crosses
    cases crosses

/-- Outputs and flip-flops read another gate, so a netlist that has one is larger than any that may have a loop. -/
theorem acyclic {id : GateId} {g : Gate} (found : net.gate? id = some g) (reader : g.fn = .output ∨ g.fn = .flipFlop) :
    net.view.Acyclic := by
  have consistent := h.reachable.consistent
  obtain ⟨s, read, other⟩ : ∃ s ∈ g.inputs, s.driver ≠ id := by
    have arity := hasArity_of_reachable h.reachable found
    rcases reader with output | flipFlop
    · rw [Shape.hasArity, output] at arity
      obtain ⟨s, single⟩ := List.length_eq_one_iff.mp (eq_of_beq arity)
      have read : s ∈ g.inputs := by rw [single]; exact List.mem_singleton.mpr rfl
      refine ⟨s, read, ?_⟩
      rintro rfl
      have plain := consistent.wired.not_isOutput_of_read found read found
      rw [Shape.isOutput, output] at plain
      cases plain
    · obtain ⟨clock, read, isOne⟩ := exists_clock (h.shapes found) flipFlop
      refine ⟨_, read, ?_⟩
      rintro rfl
      obtain ⟨c, here, shape⟩ := Netlist.shape?_eq_some.mp isOne
      obtain rfl : c = g := Option.some.inj (here.symm.trans found)
      rw [show c.fn = .one from congrArg Shape.fn shape] at flipFlop
      cases flipFlop
  obtain ⟨d, known⟩ := h.closed (.inr ⟨id, g, s, found, read, rfl⟩)
  apply h.loopless.resolve_left
  have two : [s.driver, id].Subperm net.top.gates := by
    apply List.Nodup.subperm (by simpa using other)
    intro x mem
    rcases List.mem_pair.mp mem with rfl | rfl
    · exact consistent.mem_view_gates.mpr ⟨d, known⟩
    · exact consistent.mem_view_gates.mpr ⟨g, found⟩
  have length := two.length_le
  exact Nat.not_le.mpr length

theorem clocked (interpreted : net.view.CustomFree) (loopless : net.view.Acyclic) : net.Clocked where
  reachable := h.reachable
  gates id g found :=
    (h.shapes found).kind (interpreted id (h.reachable.consistent.mem_view_gates.mpr ⟨g, found⟩) g found)
  acyclic := loopless
  closed _ := h.isPort_of_source

theorem isTriggerPort_eq : net.IsTriggerPort = Design.PortOf net .flipFlop := by
  have triggers := h.reachable.consistent.top.accounts.triggers
  funext l
  apply propext
  constructor
  · rintro ⟨id, mem, rfl⟩
    obtain ⟨_, g, found, trigger⟩ := (triggers id).mp mem
    exact ⟨id, g, found, fn_of_isTrigger (h.shapes found) trigger, rfl⟩
  · rintro ⟨id, g, found, flipFlop, rfl⟩
    refine ⟨id, (triggers id).mpr ⟨h.reachable.consistent.mem_view_gates.mpr ⟨g, found⟩, g, found, ?_⟩, rfl⟩
    exact isTrigger_of_flipFlop (h.shapes found) flipFlop

/-- The port of a gate that reads nothing and is no constant is a source. -/
theorem port_mem_sources {id : GateId} {g : Gate} (found : net.gate? id = some g) (source : g.isSource = true) :
    .port id ∈ net.top.sources :=
  (h.reachable.consistent.top.bounds.sources _).mpr
    (onBoundary_port.mpr ⟨g, found, Netlist.contains_iff.mpr ⟨g, found⟩, source⟩)

theorem source_of_input {l : Link} (port : Design.PortOf net .input l) : l ∈ net.top.sources := by
  obtain ⟨id, g, found, input, rfl⟩ := port
  apply h.port_mem_sources found
  have arity := hasArity_of_reachable h.reachable found
  rw [Shape.hasArity, input] at arity
  rw [Shape.isSource, input, List.isEmpty_iff.mpr (List.length_eq_zero_iff.mp (eq_of_beq arity))]
  rfl

/-- Where all sources are inputs, a netlist that can be compiled with the inputs and the flip-flops pinned has no
cells. -/
theorem customFree (inputs : ∀ l ∈ net.top.sources, Design.PortOf net .input l) {pins reads : List GateId}
    (pinned : ∀ id ∈ pins, ∃ g, net.gate? id = some g ∧ (g.fn = .input ∨ g.fn = .flipFlop)) {sim : Simulator}
    (compiled : net.view.compile pins reads = .ok sim) : net.view.CustomFree := by
  have coherent := h.reachable.consistent.coherent_view
  obtain ⟨order, ordered, interpreted, _⟩ := View.compile_eq_ok.mp compiled
  obtain ⟨perm, _⟩ := coherent.orderedGates_spec ordered
  intro id mem g found
  by_cases pin : id ∈ pins
  · obtain ⟨g', found', isFn⟩ := pinned id pin
    obtain rfl : g' = g := Option.some.inj (found'.symm.trans found)
    rcases isFn with isFn | isFn
    all_goals
      rw [isFn]
      rfl
  cases source : g.isSource with
  | true =>
    obtain ⟨id', g', found', isInput, port⟩ := inputs _ (h.port_mem_sources found source)
    obtain rfl : id = id' := port_inj port
    obtain rfl : g' = g := Option.some.inj (found'.symm.trans found)
    rw [isInput]
    rfl
  | false =>
    have keyed := coherent.wired.keyed found
    apply interpreted g
    rw [coherent.mem_evaluated, keyed]
    exact ⟨perm.mem_iff.mpr mem, pin, found, source⟩

end WasRead

end Bench

namespace Design

/-! ## Links of a report -/

theorem mem_addPorts {links : LinkSet} {gates : List GateId} {l : Link} :
    l ∈ addPorts links gates ↔ (∃ g ∈ gates, .port g = l) ∨ l ∈ links := by
  unfold addPorts
  induction gates generalizing links with
  | nil => simp
  | cons g gates ih =>
    rw [List.foldl_cons, ih, TreeSet.mem_insert, LawfulEqCmp.compare_eq_iff_eq]
    simp only [List.mem_cons, exists_eq_or_imp]
    exact or_left_comm.trans or_assoc.symm

theorem mem_keySet {b : Binding} {l : Link} : l ∈ (TreeSet.ofList b.keys : LinkSet) ↔ l ∈ b := by
  rw [TreeSet.mem_ofList, List.contains_iff_mem, TreeMap.mem_keys]

theorem mem_triggerDrivers {d : Design} {id : GateId} : id ∈ d.triggerDrivers ↔
    ∃ x ∈ d.triggers, ∃ g, d.net.gate? x.2 = some g ∧ ∃ s ∈ g.inputs, s.driver = id := by
  unfold triggerDrivers
  simp only [List.mem_flatMap, List.mem_filterMap, List.mem_map]
  constructor
  · rintro ⟨g, ⟨x, mem, found⟩, reads⟩
    exact ⟨x, mem, g, found, reads⟩
  · rintro ⟨x, mem, g, found, reads⟩
    exact ⟨g, ⟨x, mem, found⟩, reads⟩

section Links

variable {d : Design} (none : d.net.isCombinational = true → d.triggers = [])
include none

/-- The links of inputs are those that are bound, and the ports of all flip-flops. -/
theorem mem_inputLinks {sources : Binding} {l : Link} :
    l ∈ d.inputLinks sources ↔ (∃ x ∈ d.triggers, .port x.2 = l) ∨ l ∈ sources := by
  unfold inputLinks
  split
  · next comb =>
    rw [none comb, mem_keySet]
    simp
  · rw [mem_addPorts, mem_keySet]
    simp only [List.mem_map, exists_exists_and_eq_and]

/-- The links of outputs are those that are bound, and the ports of all gates that flip-flops read. -/
theorem mem_outputLinks {targets : Binding} {l : Link} :
    l ∈ d.outputLinks targets ↔ (∃ id ∈ d.triggerDrivers, .port id = l) ∨ l ∈ targets := by
  unfold outputLinks
  split
  · next comb =>
    have noDrivers : d.triggerDrivers = [] := by rw [triggerDrivers, none comb]; rfl
    rw [noDrivers, mem_keySet]
    simp
  · rw [mem_addPorts, mem_keySet]

end Links

/-- Links in order are the keys of a binding if they are the links that it binds. -/
theorem toList_eq_keys {links : LinkSet} {b : Binding} (same : ∀ l, l ∈ links ↔ l ∈ b) : links.toList = b.keys := by
  have perm : links.toList.Perm b.keys := by
    apply (List.perm_ext_iff_of_nodup (nodup_toList links) (nodup_keys b)).mpr
    intro l
    rw [TreeSet.mem_toList, TreeMap.mem_keys, same]
  apply perm.eq_of_pairwise _ TreeSet.ordered_toList TreeMap.ordered_keys
  intro l l' _ _ lt gt
  rw [OrientedCmp.gt_of_lt lt] at gt
  cases gt

/-! ## Values of a report -/

/-- Each pair of values belongs to the link at its place: the first value to the gate of the link, and the second to the
gate that is bound to it. -/
structure Attributes (links : LinkSet) (b : Binding) (vl vr : GateId → Bool) (values : List ValuePair) : Prop where
  length : links.toList.length = values.length
  value : ∀ (i : Nat) (l : Link), links.toList[i]? = some l → ∃ r, b[l]? = some r ∧
    values[i]? = some (vl l.source, vr r.source)

/-- The line of two bound links: the name of the left gate, and the values of both. -/
def lineOf (d : Design) (vl vr : GateId → Bool) (x : Link × Link) : String :=
  "  " ++ d.nameOf x.1.source ++ ": " ++ valuesText [(vl x.1.source, vr x.2.source)]

section Values

variable {links : LinkSet} {b : Binding} (same : ∀ l, l ∈ links ↔ l ∈ b) (ports : ∀ l ∈ b, l = .port l.source)
  {vl vr : GateId → Bool} {values : List ValuePair} (listed : values = (driverPairs b).map (Checker.gateValues vl vr))
include same ports listed

theorem attributes_of_keys : Attributes links b vl vr values := by
  have keys : links.toList = b.toList.map Prod.fst := (toList_eq_keys same).trans TreeMap.map_fst_toList_eq_keys.symm
  rw [driverPairs_of_ports ports, List.map_map] at listed
  refine ⟨by rw [keys, listed, List.length_map, List.length_map], ?_⟩
  intro i l at?
  rw [keys, List.getElem?_map] at at?
  obtain ⟨x, here, rfl⟩ := Option.map_eq_some_iff.mp at?
  refine ⟨x.2, TreeMap.mem_toList_iff_getElem?_eq_some.mp (List.mem_of_getElem? here), ?_⟩
  rw [listed, List.getElem?_map, here]
  rfl

theorem valueLines_of_keys (d : Design) : d.valueLines links values = b.toList.map (d.lineOf vl vr) := by
  have keys : links.toList = b.toList.map Prod.fst := (toList_eq_keys same).trans TreeMap.map_fst_toList_eq_keys.symm
  rw [valueLines, keys, listed, driverPairs_of_ports ports, List.map_map, List.zip_map', List.map_map]
  rfl

end Values

/-- A gate that a text names is printed under that name. -/
theorem nameOf_of_listed {d : Design} (ports : Bench.Ports d) {x : String × GateId}
    (mem : x ∈ d.inputs ++ d.outputs ++ d.triggers) : d.nameOf x.2 = x.1 := by
  have apart : ∀ {fn fn' : GateFn} {named named' : NamedGates}, Bench.Lists d.net fn named →
      Bench.Lists d.net fn' named' → fn ≠ fn' → ∀ id ∈ named.map Prod.snd, ∀ id' ∈ named'.map Prod.snd, id ≠ id' := by
    rintro fn fn' named named' lists lists' other id inside _ inside' rfl
    obtain ⟨g, found, isFn⟩ := (lists.mem id).mp inside
    obtain ⟨g', found', isFn'⟩ := (lists'.mem id).mp inside'
    obtain rfl : g = g' := Option.some.inj (found.symm.trans found')
    exact other (isFn.symm.trans isFn')
  have distinct : ((d.inputs ++ d.outputs ++ d.triggers).map Prod.snd).Nodup := by
    rw [List.map_append, List.map_append, List.nodup_append, List.nodup_append]
    refine ⟨⟨ports.inputs.distinct, ports.outputs.distinct, apart ports.inputs ports.outputs nofun⟩,
      ports.triggers.distinct, ?_⟩
    intro id inside
    rcases List.mem_append.mp inside with input | output
    · exact apart ports.inputs ports.triggers nofun id input
    · exact apart ports.outputs ports.triggers nofun id output
  have known : x.2 ∈ d.names := mem_foldl_insert.mpr (.inl ⟨x, mem, rfl⟩)
  obtain ⟨name, found⟩ := Option.isSome_iff_exists.mp (TreeMap.mem_iff_isSome_getElem?.mp known)
  rw [nameOf, TreeMap.getD_eq_getD_getElem?, found]
  rcases row_of_getElem?_foldl_insert found with ⟨y, inside, gate, rfl⟩ | ⟨_, none⟩
  · exact congrArg Prod.fst (List.inj_on_of_nodup_map distinct inside mem gate)
  · simp at none

/-! ## What is compared -/

/-- Gates that are bound by name have the function of their lists. -/
theorem fn_of_bound {kind : NamedKind} {left right : NamedGates} {b : Binding} {net net' : Netlist} {fn : GateFn}
    (bound : bindNamed kind left right = .ok b) (lists : Bench.Lists net fn left) (lists' : Bench.Lists net' fn right)
    {x : GateId × GateId} (mem : x ∈ driverPairs b) :
    (∃ g, net.gate? x.1 = some g ∧ g.fn = fn) ∧ ∃ g, net'.gate? x.2 = some g ∧ g.fn = fn := by
  obtain ⟨l, r, found, rfl⟩ := mem_driverPairs.mp mem
  obtain ⟨name, y, z, listed, listed', rfl, rfl⟩ := keepsNames_bindNamed bound lists.distinct l r found
  exact ⟨(lists.mem y).mp (List.mem_map_of_mem listed), (lists'.mem z).mp (List.mem_map_of_mem listed')⟩

/-- Two designs that were read, and their bindings by name. -/
structure BoundByName (a b : Design) (sources targets triggers : Binding) : Prop where
  readLeft : Bench.WasRead a.net a.symbols
  readRight : Bench.WasRead b.net b.symbols
  portsLeft : Bench.Ports a
  portsRight : Bench.Ports b
  inputs : bindNamed .input a.inputs b.inputs = .ok sources
  outputs : bindNamed .output a.outputs b.outputs = .ok targets
  flipFlops : bindNamed .flipFlop a.triggers b.triggers = .ok triggers

namespace BoundByName

variable {a b : Design} {sources targets triggers : Binding} (h : BoundByName a b sources targets triggers)
include h

/-- All that is bound by name are ports. -/
theorem port_of_key {l : Link} (mem : l ∈ sources ∨ l ∈ targets ∨ l ∈ triggers) : l = .port l.source := by
  have port : ∃ named, ListedPort named l := by
    rcases mem with input | output | flipFlop
    · exact ⟨_, (key_bindNamed h.inputs h.portsLeft.inputs.distinct l).mp input⟩
    · exact ⟨_, (key_bindNamed h.outputs h.portsLeft.outputs.distinct l).mp output⟩
    · exact ⟨_, (key_bindNamed h.flipFlops h.portsLeft.triggers.distinct l).mp flipFlop⟩
  obtain ⟨named, x, _, rfl⟩ := port
  rfl

theorem boundSources : Bijects sources (PortOf a.net .input) (PortOf b.net .input) := by
  rw [← listedPort_eq h.portsLeft.inputs, ← listedPort_eq h.portsRight.inputs]
  exact (bijects_bindNamed h.inputs h.portsLeft.inputs.distinct h.portsRight.inputs.distinct).mpr h.portsLeft.inputNames

theorem boundTriggers : Bijects triggers a.net.IsTriggerPort b.net.IsTriggerPort := by
  rw [h.readLeft.isTriggerPort_eq, h.readRight.isTriggerPort_eq, ← listedPort_eq h.portsLeft.triggers,
    ← listedPort_eq h.portsRight.triggers]
  exact (bijects_bindNamed h.flipFlops h.portsLeft.triggers.distinct h.portsRight.triggers.distinct).mpr
    h.portsLeft.triggerNames

theorem triggers_of_isCombinational (comb : a.net.isCombinational = true) : a.triggers = [] := by
  apply List.eq_nil_iff_forall_not_mem.mpr
  intro x mem
  have flipFlop : a.net.IsTriggerPort (.port x.2) := by
    rw [h.readLeft.isTriggerPort_eq, ← listedPort_eq h.portsLeft.triggers]
    exact ⟨x, mem, rfl⟩
  obtain ⟨id, trigger, _⟩ := flipFlop
  exact TreeSet.not_mem_of_isEmpty comb trigger

/-- The left gates of bound flip-flops are those that the text names. -/
theorem fst_triggers {id : GateId} : (∃ x ∈ driverPairs triggers, x.1 = id) ↔ ∃ x ∈ a.triggers, x.2 = id := by
  rw [← List.mem_map, h.boundTriggers.mem_left, h.readLeft.isTriggerPort_eq, ← listedPort_eq h.portsLeft.triggers]
  constructor
  · rintro ⟨_, ⟨x, mem, rfl⟩, rfl⟩
    exact ⟨x, mem, rfl⟩
  · rintro ⟨x, mem, rfl⟩
    exact ⟨.port x.2, ⟨x, mem, rfl⟩, rfl⟩

/-! ### The cut -/

section Cut

variable {cut : Binding × Binding}
  (made : Checker.cutTriggers a.net.view b.net.view sources targets triggers = .ok cut)
include made

theorem cut_eq : (∀ x ∈ driverPairs triggers, ∃ l r, Checker.Cuttable a.net b.net x l r) ∧
    cut = (bindPorts sources (driverPairs triggers),
      bindPorts targets ((driverPairs triggers).flatMap (Checker.inputPairs a.net b.net))) := by
  rw [driverPairs_of_ports fun l mem => h.port_of_key (.inr (.inr mem))]
  exact Checker.cutTriggers_eq_ok h.readLeft.reachable.consistent.coherent_view
    h.readRight.reachable.consistent.coherent_view made

/-- The links that a report takes for inputs are those that the check binds. -/
theorem inputLinks_iff (l : Link) : l ∈ a.inputLinks sources ↔ l ∈ cut.1 := by
  obtain ⟨_, rfl⟩ := h.cut_eq made
  rw [mem_inputLinks h.triggers_of_isCombinational, mem_bindPorts]
  apply or_congr_left
  constructor
  · rintro ⟨x, mem, rfl⟩
    obtain ⟨y, bound, same⟩ := h.fst_triggers.mpr ⟨x, mem, rfl⟩
    exact ⟨y, bound, congrArg Link.port same⟩
  · rintro ⟨y, bound, rfl⟩
    obtain ⟨x, mem, same⟩ := h.fst_triggers.mp ⟨y, bound, rfl⟩
    exact ⟨x, mem, congrArg Link.port same⟩

/-- The links that a report takes for outputs are those that the check binds. -/
theorem outputLinks_iff (l : Link) : l ∈ a.outputLinks targets ↔ l ∈ cut.2 := by
  obtain ⟨cuttable, rfl⟩ := h.cut_eq made
  rw [mem_outputLinks h.triggers_of_isCombinational, mem_bindPorts]
  apply or_congr_left
  constructor
  · rintro ⟨id, mem, rfl⟩
    obtain ⟨x, listed, g, found, s, read, rfl⟩ := mem_triggerDrivers.mp mem
    obtain ⟨y, bound, same⟩ := h.fst_triggers.mpr ⟨x, listed, rfl⟩
    obtain ⟨l, r, cut⟩ := cuttable y bound
    obtain rfl : l = g := Option.some.inj (cut.left.symm.trans (same ▸ found))
    -- Bound flip-flops have equally many inputs, so each input has a partner.
    have partners : (l.inputs.zip r.inputs).map Prod.fst = l.inputs := List.map_fst_zip (Nat.le_of_eq cut.arity)
    rw [← partners] at read
    obtain ⟨p, paired, rfl⟩ := List.mem_map.mp read
    refine ⟨(p.1.driver, p.2.driver), List.mem_flatMap.mpr ⟨y, bound, ?_⟩, rfl⟩
    rw [Checker.inputPairs_eq cut.left cut.right]
    exact List.mem_map.mpr ⟨p, paired, rfl⟩
  · rintro ⟨p, mem, rfl⟩
    obtain ⟨y, bound, paired⟩ := List.mem_flatMap.mp mem
    obtain ⟨l, r, cut⟩ := cuttable y bound
    obtain ⟨⟨s, read, driver⟩, _⟩ := cut.reads paired
    obtain ⟨x, listed, same⟩ := h.fst_triggers.mp ⟨y, bound, rfl⟩
    exact ⟨p.1, mem_triggerDrivers.mpr ⟨x, listed, l, same ▸ cut.left, s, read, driver⟩, rfl⟩

theorem port_of_cut {l : Link} (mem : l ∈ cut.1 ∨ l ∈ cut.2) : l = .port l.source := by
  obtain ⟨_, rfl⟩ := h.cut_eq made
  rcases mem with pin | read
  · rcases mem_bindPorts.mp pin with ⟨_, _, rfl⟩ | source
    · rfl
    · exact h.port_of_key (.inl source)
  · rcases mem_bindPorts.mp read with ⟨_, _, rfl⟩ | target
    · rfl
    · exact h.port_of_key (.inr (.inl target))

/-- What is pinned are inputs and flip-flops. -/
theorem pin_cases {x : GateId × GateId} (pin : x ∈ driverPairs cut.1) :
    (∃ g, a.net.gate? x.1 = some g ∧ (g.fn = .input ∨ g.fn = .flipFlop)) ∧
      ∃ g, b.net.gate? x.2 = some g ∧ (g.fn = .input ∨ g.fn = .flipFlop) := by
  obtain ⟨_, rfl⟩ := h.cut_eq made
  rcases mem_of_driverPairs_bindPorts pin with trigger | source
  · obtain ⟨⟨g, found, isFn⟩, g', found', isFn'⟩ :=
      fn_of_bound h.flipFlops h.portsLeft.triggers h.portsRight.triggers trigger
    exact ⟨⟨g, found, .inr isFn⟩, g', found', .inr isFn'⟩
  · obtain ⟨⟨g, found, isFn⟩, g', found', isFn'⟩ := fn_of_bound h.inputs h.portsLeft.inputs h.portsRight.inputs source
    exact ⟨⟨g, found, .inl isFn⟩, g', found', .inl isFn'⟩

/-- What is read is read because of an output or a flip-flop, so neither netlist is a single gate. -/
theorem acyclic_of_reads (reads : driverPairs cut.2 ≠ []) : a.net.view.Acyclic ∧ b.net.view.Acyclic := by
  obtain ⟨x, mem⟩ := List.exists_mem_of_ne_nil _ reads
  obtain ⟨_, rfl⟩ := h.cut_eq made
  rcases mem_of_driverPairs_bindPorts mem with input | target
  · obtain ⟨y, trigger, _⟩ := List.mem_flatMap.mp input
    obtain ⟨⟨g, found, isFn⟩, g', found', isFn'⟩ :=
      fn_of_bound h.flipFlops h.portsLeft.triggers h.portsRight.triggers trigger
    exact ⟨h.readLeft.acyclic found (.inr isFn), h.readRight.acyclic found' (.inr isFn')⟩
  · obtain ⟨⟨g, found, isFn⟩, g', found', isFn'⟩ := fn_of_bound h.outputs h.portsLeft.outputs h.portsRight.outputs target
    exact ⟨h.readLeft.acyclic found (.inl isFn), h.readRight.acyclic found' (.inl isFn')⟩

/-- Designs that a simulation finds different have no cells and no loops, and are pinned at all that is open. -/
theorem simulable {cex : Counterexample} (boundAll : Bijects sources (· ∈ a.net.top.sources) (· ∈ b.net.top.sources))
    (different : (Checker.bySimulation a.net.view b.net.view cut.1 cut.2).outcome = .ok (.different cex)) :
    a.net.view.Simulable ((driverPairs cut.1).map Prod.fst) ∧
      b.net.view.Simulable ((driverPairs cut.1).map Prod.snd) := by
  obtain ⟨⟨_, compiledLeft⟩, ⟨_, compiledRight⟩, _⟩ := Checker.of_bySimulation different
  obtain ⟨acyclicLeft, acyclicRight⟩ := h.acyclic_of_reads made (Checker.reads_of_bySimulation different)
  have clockedLeft : a.net.Clocked := by
    refine h.readLeft.clocked (h.readLeft.customFree ?_ ?_ compiledLeft) acyclicLeft
    · intro l mem
      exact (h.boundSources.keys l).mp ((boundAll.keys l).mpr mem)
    · exact List.forall_mem_map.mpr fun x pin => (h.pin_cases made pin).1
  have clockedRight : b.net.Clocked := by
    refine h.readRight.clocked (h.readRight.customFree ?_ ?_ compiledRight) acyclicRight
    · intro r mem
      exact (h.boundSources.values r).mp ((boundAll.values r).mpr mem)
    · exact List.forall_mem_map.mpr fun x pin => (h.pin_cases made pin).2
  have boundOpen : Checker.BoundOpen a.net b.net sources triggers := ⟨boundAll, h.boundTriggers⟩
  obtain ⟨_, rfl⟩ := Checker.cutTriggers_eq_ok clockedLeft.coherent clockedRight.coherent made
  exact boundOpen.simulable clockedLeft clockedRight (boundOpen.pins_cut clockedLeft clockedRight)

end Cut

end BoundByName

/-! ## The law -/

/-- The conjunction without what the register holds. -/
def ungatedText : String := "INPUT(e)\nINPUT(x)\nOUTPUT(y)\ny = AND(e, x)\nq = DFF(y)\n"

end Design

end LogicNet
