import Mathlib.Data.List.ProdSigma
import LogicNet.Proofs.Bench.Rereading
import LogicNet.Proofs.Simulation.Lockstep

/-!
# What is written behaves as before

A netlist that is read back has other numbers, and where there were drivers outside it has inputs. Beside that every
gate computes what it did before, and every flip-flop reads what it did before, so the two run in LOCKSTEP
(`Rereads.lockstep`): they give the same outputs at every step, however many there are.

**The law** (`write_behaves`) needs one thing of the netlist: nothing but latches and flip-flops is triggered. The
format has no events, so of a gate that is triggered by one of its inputs the function is written and the event is
not (`sampledConjunction_behaves_otherwise`).
-/

namespace LogicNet

open Std

namespace Bench

/-! ## Places -/

/-- The number under which a gate is read back. -/
def placeOf (net : Netlist) (order : List GateId) (id : GateId) : GateId := ⟨(writtenIds net order).idxOf id⟩

section Places

variable {net : Netlist} {symbols : SymbolTable} (h : Writable net symbols) {order : List GateId}
  (ordered : net.view.orderedGates = .ok order) {names : Names} {design : Design}
  (r : Rereads net symbols order names design)
include h ordered r

theorem Rereads.eq_placeOf {id x : GateId} (named : names[id.text]? = some x) : x = placeOf net order id := by
  have nodup := nodup_writtenIds h.reachable.consistent ordered
  obtain ⟨lt, rfl⟩ := List.getElem?_eq_some_iff.mp (r.place.mp named)
  exact congrArg GateId.mk (nodup.idxOf_getElem _ lt).symm

theorem Rereads.shape_port {id : GateId} (port : id ∈ portsOf net.sources) :
    design.net.shape? (placeOf net order id) = some ⟨.input, []⟩ := by
  obtain ⟨i, here⟩ := List.mem_iff_getElem?.mp port
  obtain ⟨named, shape⟩ := r.port here
  rw [← r.eq_placeOf h ordered named]
  exact shape

/-- An input is read under the place of its port. -/
theorem Rereads.snd_inputs : design.inputs.map Prod.snd = (portsOf net.sources).map (placeOf net order) := by
  rw [r.inputs]
  apply List.ext_getElem
  · simp [places]
  · intro i _ inside
    rw [List.length_map] at inside
    rw [List.getElem_map, List.getElem_map]
    have port := r.port (List.getElem?_eq_getElem inside)
    rw [← r.eq_placeOf h ordered port.1]
    simp [places]

end Places

/-! ## Values -/

section Values

variable {names : Names} {net : Netlist} {symbols symbols' : SymbolTable} {s s' : Shape}
  (restores : Restores names net symbols symbols' s s') (logic : s.fn.isLogic = true)
include restores logic

/-- Logic is restored with its function, but for outputs. -/
theorem Restores.fn_of_isLogic : s'.fn = if s.fn = .output then .buffer else s.fn := by
  have same := restores.fn
  unfold SameFn at same
  split at same
  · next output => rw [same, if_pos output]
  · next custom =>
    rw [custom] at logic
    cases logic
  · next other _ => rw [same, if_neg other]

theorem Restores.ne_flipFlop : s.fn ≠ .flipFlop ∧ s'.fn ≠ .flipFlop := by
  have memory : s.fn ≠ .flipFlop := by
    intro flipFlop
    rw [flipFlop] at logic
    cases logic
  refine ⟨memory, ?_⟩
  rw [restores.fn_of_isLogic logic]
  split
  · nofun
  · exact memory

theorem Restores.inputs_of_isLogic :
    List.Forall₂ (fun x y => names[x.driver.text]? = some y.driver ∧ y.isPlain = true) s.inputs s'.inputs := by
  have data := restores.data
  obtain ⟨memory, memory'⟩ := restores.ne_flipFlop logic
  rw [Shape.data, if_neg memory, Shape.data, if_neg memory'] at data
  exact data

/-- Logic computes as before from the values at the places of its drivers. -/
theorem Restores.value {place : GateId → GateId} (named : ∀ {id x : GateId}, names[id.text]? = some x → x = place id)
    (val : GateId → Bool) : s'.value val = s.value fun id => val (place id) := by
  have inputs : s.inputs.map (fun x => val (place x.driver)) = s'.inputs.map fun x => val x.driver := by
    rw [← List.forall₂_eq_eq_eq, List.forall₂_map_left_iff, List.forall₂_map_right_iff]
    apply (restores.inputs_of_isLogic logic).imp
    intro x y related
    rw [named related.1]
  rw [Shape.value, Shape.value, inputs, restores.fn_of_isLogic logic]
  split
  · next output =>
    rw [output]
    rfl
  · rfl

theorem Restores.isLogic : s'.fn.isLogic = true ∧ s'.isTrigger = false := by
  constructor
  · rw [restores.fn_of_isLogic logic]
    split
    · rfl
    · exact logic
  · apply List.any_eq_false.mpr
    intro y read
    obtain ⟨_, _, _, plain⟩ := exists_of_forall₂ (restores.inputs_of_isLogic logic) read
    simp [plain]

theorem Restores.isSource : s'.isSource = s.isSource := by
  have length := (restores.inputs_of_isLogic logic).length_eq
  have empty : s'.inputs.isEmpty = s.inputs.isEmpty := by
    rw [Bool.eq_iff_iff, List.isEmpty_iff_length_eq_zero, List.isEmpty_iff_length_eq_zero, length]
  have constant : s'.fn.isConstant = s.fn.isConstant := by
    rw [restores.fn_of_isLogic logic]
    split
    · next output =>
      rw [output]
      rfl
    · rfl
  rw [Shape.isSource, Shape.isSource, empty, constant]

end Values

section Runs

variable {net : Netlist} {symbols : SymbolTable} (h : Writable net symbols) {order : List GateId}
  (ordered : net.view.orderedGates = .ok order) (interpreted : net.view.CustomFree) {names : Names} {design : Design}
  (r : Rereads net symbols order names design)

section Logic

include h interpreted

/-- A gate holds a value, or is logic on plain signals. -/
theorem Writable.flipFlop_or_isLogic {id : GateId} {g : Gate} (found : net.gate? id = some g)
    (inner : g.isSource = false) : g.fn = .flipFlop ∨ g.fn.isLogic = true ∧ g.isTrigger = false := by
  by_cases flipFlop : g.fn = .flipFlop
  · exact .inl flipFlop
  · refine .inr ⟨?_, by simpa using mt (h.plain found) flipFlop⟩
    have known := interpreted id (h.reachable.consistent.mem_view_gates.mpr ⟨g, found⟩) g found
    have expressible := h.expressible found inner
    unfold isExpressible at expressible
    cases fn : g.fn <;> simp_all [GateFn.isLogic, GateFn.isUninterpreted]

omit interpreted in
/-- A flip-flop reads its data and the rising edge of a constant one. -/
theorem Writable.inputs_of_flipFlop {id : GateId} {g : Gate} (found : net.gate? id = some g)
    (inner : g.isSource = false) (flipFlop : g.fn = .flipFlop) : ∃ d clock c, g.inputs = [d, ⟨.rising, clock⟩] ∧
      net.gate? clock = some c ∧ c.fn = .one := by
  have synchronous := h.expressible found inner
  have arity := hasArity_of_reachable h.reachable found
  rw [isExpressible, flipFlop] at synchronous
  rw [Shape.hasArity, flipFlop] at arity
  obtain ⟨d, clock, rest, c, inputs, foundClock, isOne⟩ := isSynchronous_iff.mp synchronous
  have two : g.inputs.length = 2 := eq_of_beq arity
  rw [inputs] at two
  have none : rest = [] := List.length_eq_zero_iff.mp (by simpa using two)
  exact ⟨d, clock, c, none ▸ inputs, foundClock, isOne⟩

theorem Writable.logical : net.view.Logical := by
  intro id _ g found
  cases source : g.isSource with
  | true => exact .inl (by rw [Shape.isFree, source]; rfl)
  | false =>
    rcases h.flipFlop_or_isLogic interpreted found source with flipFlop | logic
    · exact .inl (by rw [Shape.isFree, flipFlop, source]; rfl)
    · exact .inr logic

include r in
/-- What is read back is logic wherever it holds no value. -/
theorem Rereads.logical : design.net.view.Logical := by
  intro x _ g' found
  rcases r.cases (Netlist.shape?_of_gate? found) with ⟨_, eq⟩ | ⟨j, g, _, here, restores⟩ |
    ⟨_, constant | ⟨_, d, _, _, eq⟩⟩
  · exact .inl (by rw [eq]; rfl)
  · obtain ⟨⟨id, _, known⟩, inner⟩ := mem_definedGates.mp (List.mem_of_getElem? here)
    rcases h.flipFlop_or_isLogic interpreted known inner with flipFlop | ⟨logic, _⟩
    · have same := restores.fn
      rw [flipFlop] at same
      exact .inl (by rw [Shape.isFree, show g'.fn = .flipFlop from same, Bool.or_comm]; rfl)
    · exact .inr (restores.isLogic logic)
  · right
    rcases Shape.eq_of_isConstant (hasArity_of_reachable r.reachable found) constant with eq | eq
    all_goals
      rw [eq]
      exact ⟨rfl, rfl⟩
  · right
    rw [eq]
    exact ⟨rfl, rfl⟩

end Logic

section Values

include h ordered interpreted r

/-- The values at their places are values of the gates. -/
theorem Rereads.valuation {val : GateId → Bool} (valuation : design.net.view.Valuation val) :
    net.view.Valuation fun id => val (placeOf net order id) := by
  have consistent := h.reachable.consistent
  apply consistent.valuation_iff_shape?.mpr
  intro id s found
  obtain ⟨g, here, rfl⟩ := Netlist.shape?_eq_some.mp found
  cases source : g.isSource with
  | true => exact .inl (by rw [Shape.isFree, source]; rfl)
  | false =>
    rcases h.flipFlop_or_isLogic interpreted here source with flipFlop | ⟨logic, _⟩
    · exact .inl (by rw [Shape.isFree, flipFlop, source]; rfl)
    · obtain ⟨x, s, named, shape, restores⟩ := r.restored consistent ordered here source
      right
      rw [← r.eq_placeOf h ordered named, r.reachable.consistent.value_of_shape? valuation shape
        (restores.isLogic logic).1 ((restores.isSource logic).trans source)]
      exact restores.value logic (r.eq_placeOf h ordered) val

/-- What is fed and what is held determine the values, before and after. -/
theorem Rereads.values_together (acyclic : net.view.Acyclic) {vl vr : GateId → Bool} (valLeft : net.view.Valuation vl)
    (valRight : design.net.view.Valuation vr) (fed : ∀ id ∈ portsOf net.sources, vl id = vr (placeOf net order id))
    (held : ∀ g ∈ definedGates net order, g.fn = .flipFlop → vl g.id = vr (placeOf net order g.id)) {id : GateId}
    (mentioned : net.Mentions id) : vl id = vr (placeOf net order id) := by
  have consistent := h.reachable.consistent
  by_cases inside : id ∈ net.view.part.gates
  · apply valLeft.unique consistent.coherent_view (h.logical interpreted) acyclic
      (r.valuation h ordered interpreted valRight) ?_ id inside
    rintro id (⟨_, g, found, free⟩ | ⟨outside, t, _, g, found, x, read, rfl⟩)
    · cases source : g.isSource with
      | true => exact fed id ((mem_portsOf_sources consistent).mpr (.inl ⟨g, found, source⟩))
      | false =>
        rcases h.flipFlop_or_isLogic interpreted found source with flipFlop | ⟨logic, _⟩
        · have := held g (defined_of_found consistent ordered found source) flipFlop
          rwa [consistent.wired.keyed found] at this
        · rw [Shape.isFree_eq_false logic source] at free
          cases free
    · refine fed _ ((mem_portsOf_sources consistent).mpr (.inr ⟨.inr ⟨t, g, x, found, read, rfl⟩, ?_⟩))
      rw [consistent.mem_view_gates, not_exists] at outside
      exact Option.eq_none_iff_forall_ne_some.mpr outside
  · refine fed id ((mem_portsOf_sources consistent).mpr (.inr ⟨mentioned, ?_⟩))
    rw [consistent.mem_view_gates, not_exists] at inside
    exact Option.eq_none_iff_forall_ne_some.mpr inside

end Values

/-! ## In lockstep -/

/-- The inputs, before and after. -/
def feedPairs (net : Netlist) (order : List GateId) : List (GateId × GateId) :=
  (portsOf net.sources).map fun id => (id, placeOf net order id)

/-- The flip-flops, before and after. -/
def heldPairs (net : Netlist) (order : List GateId) : List (GateId × GateId) :=
  ((definedGates net order).filter fun g => g.fn == .flipFlop).map fun g => (g.id, placeOf net order g.id)

/-- The outputs, before and after. -/
def outputPairs (net : Netlist) (design : Design) : List (GateId × GateId) :=
  (portsOf net.targets).zip (design.outputs.map Prod.snd)

theorem fst_feedPairs (net : Netlist) (order : List GateId) :
    (feedPairs net order).map Prod.fst = portsOf net.sources := by
  simp [feedPairs, Function.comp_def]

theorem snd_feedPairs (net : Netlist) (order : List GateId) :
    (feedPairs net order).map Prod.snd = (portsOf net.sources).map (placeOf net order) := by
  simp [feedPairs, Function.comp_def]

/-- The constant ones of a netlist. -/
def ones (net : Netlist) : List GateId := net.gates.filter fun id => (net.shape? id).any fun s => s.fn == .one

/-- All that is read: gates, outputs and clocks. -/
def readPairs (net : Netlist) (order : List GateId) (design : Design) : List (GateId × GateId) :=
  (writtenIds net order).map (fun id => (id, placeOf net order id)) ++ outputPairs net design ++
    (ones net).product (ones design.net)

theorem mem_ones {net : Netlist} (h : net.Consistent) {id : GateId} :
    id ∈ ones net ↔ ∃ s, net.shape? id = some s ∧ s.fn = .one := by
  rw [ones, List.mem_filter, Option.any_eq_true]
  constructor
  · rintro ⟨_, s, found, isOne⟩
    exact ⟨s, found, eq_of_beq isOne⟩
  · rintro ⟨s, found, isOne⟩
    exact ⟨h.mem_gates_iff_shape?.mpr ⟨s, found⟩, s, found, beq_iff_eq.mpr isOne⟩

/-- A constant one is on. -/
theorem value_of_mem_ones {net : Netlist} (h : net.Consistent) {val : GateId → Bool}
    (valuation : net.view.Valuation val) {id : GateId} (mem : id ∈ ones net) : val id = true := by
  obtain ⟨⟨fn, inputs⟩, found, rfl⟩ := (mem_ones h).mp mem
  rw [h.value_of_shape? valuation found rfl (by simp [Shape.isSource, GateFn.isConstant])]
  rfl

include r in
theorem Rereads.length_outputs : design.outputs.length = (portsOf net.targets).length := by
  have := congrArg List.length r.outputs
  rwa [List.length_map, List.length_map] at this

include r in
theorem Rereads.fst_outputPairs : (outputPairs net design).map Prod.fst = portsOf net.targets := by
  apply List.map_fst_zip
  rw [List.length_map, r.length_outputs]

include r in
theorem Rereads.snd_outputPairs : (outputPairs net design).map Prod.snd = design.outputs.map Prod.snd := by
  apply List.map_snd_zip
  rw [List.length_map, r.length_outputs]

include r in
theorem Rereads.mem_outputPairs {x : GateId × GateId} (mem : x ∈ outputPairs net design) :
    x.1 ∈ portsOf net.targets ∧ (x.1.text, x.2) ∈ design.outputs := by
  obtain ⟨i, here⟩ := List.mem_iff_getElem?.mp mem
  obtain ⟨port, output⟩ := List.getElem?_zip_eq_some.mp here
  rw [List.getElem?_map] at output
  obtain ⟨⟨name, o⟩, output, rfl⟩ := Option.map_eq_some_iff.mp output
  refine ⟨List.mem_of_getElem? port, ?_⟩
  have same := congrArg (·[i]?) r.outputs
  simp only [List.getElem?_map, output, port, Option.map_some, Option.some.injEq] at same
  rw [← same]
  exact List.mem_of_getElem? output

/-- A flip-flop that takes its data from one gate and its clock from a constant one. -/
structure IsRegister (net : Netlist) (id : GateId) (g : Gate) (data : GateId) : Prop where
  found : net.gate? id = some g
  fn : g.fn = .flipFlop
  inputs : ∃ x clock, g.inputs = [x, ⟨.rising, clock⟩] ∧ x.driver = data ∧ clock ∈ ones net

/-- A register that is not fed is memory. -/
theorem IsRegister.remembers {net : Netlist} (h : net.Consistent) {id data : GateId} {g : Gate}
    (register : IsRegister net id g data) {pins : List GateId} (unpinned : id ∉ pins) :
    net.view.Remembers pins id g := by
  refine ⟨h.mem_view_gates.mpr ⟨g, register.found⟩, register.found, ?_, unpinned⟩
  obtain ⟨_, _, inputs, _⟩ := register.inputs
  rw [Shape.isTrigger, inputs]
  simp [Signal.isPlain]

section Lockstep

include h ordered r

/-- A flip-flop is read back as one, and its data is where it was. -/
theorem Rereads.exists_registers {x : GateId × GateId} (mem : x ∈ heldPairs net order) : ∃ g g' data,
    net.Mentions data ∧ x.1 ∉ portsOf net.sources ∧ IsRegister net x.1 g data ∧
      IsRegister design.net x.2 g' (placeOf net order data) := by
  have consistent := h.reachable.consistent
  obtain ⟨g, filtered, rfl⟩ := List.mem_map.mp mem
  obtain ⟨defined, flipFlop⟩ := List.mem_filter.mp filtered
  have flipFlop : g.fn = .flipFlop := eq_of_beq flipFlop
  obtain ⟨⟨id, _, found⟩, inner⟩ := mem_definedGates.mp defined
  obtain rfl := consistent.wired.keyed found
  obtain ⟨d, clock, c, inputs, foundClock, isOne⟩ := h.inputs_of_flipFlop found inner flipFlop
  obtain ⟨x, s, named, shape, restores⟩ := r.restored consistent ordered found inner
  obtain rfl := r.eq_placeOf h ordered named
  obtain ⟨g', found', rfl⟩ := Netlist.shape?_eq_some.mp shape
  have flipFlop' : g'.fn = .flipFlop := by
    have same := restores.fn
    rwa [flipFlop] at same
  obtain ⟨d', clock', inputs', isOne'⟩ := restores.clock flipFlop'
  have data := restores.data
  rw [Shape.data, if_pos flipFlop, inputs, Shape.data, if_pos flipFlop', inputs'] at data
  have first := r.eq_placeOf h ordered (List.forall₂_cons.mp data).1.1
  refine ⟨g, g', d.driver, ?_, not_mem_portsOf_sources consistent found inner, ⟨found, flipFlop, ?_⟩,
    ⟨found', flipFlop', ?_⟩⟩
  · exact .inr ⟨_, g, d, found, by rw [inputs]; exact List.mem_cons_self, rfl⟩
  · exact ⟨d, clock, inputs, rfl, (mem_ones consistent).mpr ⟨_, Netlist.shape?_of_gate? foundClock, isOne⟩⟩
  · exact ⟨d', clock', inputs', first, (mem_ones r.reachable.consistent).mpr ⟨_, isOne', rfl⟩⟩

/-- No flip-flop is read back as an input. -/
theorem Rereads.not_fed {id data : GateId} {g : Gate} (register : IsRegister design.net id g data) :
    id ∉ (feedPairs net order).map Prod.snd := by
  rw [snd_feedPairs]
  intro fed
  obtain ⟨port, mem, rfl⟩ := List.mem_map.mp fed
  have input := r.shape_port h ordered mem
  rw [Netlist.shape?_of_gate? register.found] at input
  cases (congrArg Shape.fn (Option.some.inj input)).symm.trans register.fn

include interpreted

/-- Values that agree on what is fed and held agree on what is read. -/
theorem Rereads.read_together (acyclic : net.view.Acyclic) {vl vr : GateId → Bool} (valLeft : net.view.Valuation vl)
    (valRight : design.net.view.Valuation vr) (fed : Together (feedPairs net order) vl vr)
    (held : Together (heldPairs net order) vl vr) : Together (readPairs net order design) vl vr := by
  have consistent := h.reachable.consistent
  have consistent' := r.reachable.consistent
  have together : ∀ {id : GateId}, net.Mentions id → vl id = vr (placeOf net order id) := by
    apply r.values_together h ordered interpreted acyclic valLeft valRight
    · intro id port
      exact fed (id, _) (List.mem_map_of_mem port)
    · intro g defined flipFlop
      exact held (g.id, _) (List.mem_map.mpr ⟨g, List.mem_filter.mpr ⟨defined, beq_iff_eq.mpr flipFlop⟩, rfl⟩)
  intro x mem
  rw [readPairs, List.mem_append, List.mem_append] at mem
  rcases mem with (written | output) | clocks
  · obtain ⟨id, declared, rfl⟩ := List.mem_map.mp written
    exact together ((mem_writtenIds consistent ordered).mp declared)
  · obtain ⟨port, mem⟩ := r.mem_outputPairs output
    obtain ⟨_, d, named, shape⟩ := r.output _ mem
    obtain ⟨g, found, _⟩ := (mem_portsOf_targets consistent).mp port
    rw [together (.inl ⟨g, found⟩), consistent'.value_of_shape? valRight shape rfl rfl, r.eq_placeOf h ordered named]
    rfl
  · obtain ⟨first, second⟩ := List.pair_mem_product.mp clocks
    rw [value_of_mem_ones consistent valLeft first, value_of_mem_ones consistent' valRight second]

/-- WHAT IS READ BACK RUNS IN LOCKSTEP with what was written. -/
theorem Rereads.lockstep (acyclic : net.view.Acyclic) : Lockstep net.view design.net.view (feedPairs net order)
    (heldPairs net order) (outputPairs net design) (readPairs net order design) where
  forces _ _ valLeft valRight fed held := r.read_together h ordered interpreted acyclic valLeft valRight fed held
  outputs x mem := List.mem_append_left _ (List.mem_append_right _ mem)
  memory x mem := by
    have consistent := h.reachable.consistent
    obtain ⟨g, g', data, mentioned, inner, register, register'⟩ := r.exists_registers h ordered mem
    have unfed : x.1 ∉ (feedPairs net order).map Prod.fst := by rwa [fst_feedPairs]
    have unfed' := r.not_fed h ordered register'
    refine ⟨g, g', register.remembers consistent unfed, register'.remembers r.reachable.consistent unfed',
      register.fn.trans register'.fn.symm, ?_⟩
    obtain ⟨d, clock, inputs, rfl, isOne⟩ := register.inputs
    obtain ⟨d', clock', inputs', place, isOne'⟩ := register'.inputs
    rw [inputs, inputs']
    refine ⟨rfl, fun y pair => ?_⟩
    rcases List.mem_cons.mp pair with rfl | pair
    · have declared := (mem_writtenIds consistent ordered).mpr mentioned
      rw [place]
      exact List.mem_append_left _ (List.mem_append_left _ (List.mem_map.mpr ⟨_, declared, rfl⟩))
    · rw [List.mem_singleton.mp pair]
      exact List.mem_append_right _ (List.pair_mem_product.mpr ⟨isOne, isOne'⟩)

end Lockstep

section Runnable

include h interpreted

theorem Writable.runnable (acyclic : net.view.Acyclic) :
    net.view.Runnable (portsOf net.sources) (portsOf net.targets) where
  coherent := h.reachable.consistent.coherent_view
  logical := h.logical interpreted
  acyclic := acyclic
  pinnable := by
    refine ⟨nodup_driversOf _, fun id port _ g found => ?_⟩
    cases source : g.isSource with
    | true => rw [Shape.isFree, source]; rfl
    | false => exact absurd port (not_mem_portsOf_sources h.reachable.consistent found source)
  inside id port := by
    obtain ⟨g, found, _⟩ := (mem_portsOf_targets h.reachable.consistent).mp port
    exact h.reachable.consistent.mem_view_gates.mpr ⟨g, found⟩

include ordered r

theorem Rereads.runnable (acyclic : net.view.Acyclic) :
    design.net.view.Runnable (design.inputs.map Prod.snd) (design.outputs.map Prod.snd) where
  coherent := r.reachable.consistent.coherent_view
  logical := r.logical h interpreted
  acyclic := r.acyclic h ordered acyclic
  pinnable := by
    constructor
    · rw [r.inputs, snd_places]
      exact List.nodup_range.map fun a b same => congrArg GateId.index same
    · rw [r.snd_inputs h ordered]
      intro x pinned _ g found
      obtain ⟨id, port, rfl⟩ := List.mem_map.mp pinned
      have shape : design.net.shape? (placeOf net order id) = some g.toShape := Netlist.shape?_of_gate? found
      rw [r.shape_port h ordered port] at shape
      rw [← Option.some.inj shape]
      rfl
  inside x mem := by
    obtain ⟨y, output, rfl⟩ := List.mem_map.mp mem
    obtain ⟨_, d, _, shape⟩ := r.output y output
    exact r.reachable.consistent.mem_gates_iff_shape?.mpr ⟨_, shape⟩

end Runnable

end Runs

/-! ## The law -/

/-- Where only memory is triggered, what the format has words for can be written. -/
theorem writable_of_isExpressible {net : Netlist} {symbols : SymbolTable} (reachable : net.Reachable)
    (interpreted : net.view.CustomFree)
    (clocked : ∀ id g, net.gate? id = some g → g.isTrigger = true → g.fn.isTriggered = true)
    (expressible : ∀ {id : GateId} {g : Gate}, net.gate? id = some g → g.isSource = false →
      isExpressible net symbols g = true) : Writable net symbols where
  reachable := reachable
  expressible := expressible
  plain := by
    intro id g found triggered
    have inner : g.isSource = false := by
      by_contra source
      rw [Shape.isTrigger_of_isSource (by simpa using source)] at triggered
      cases triggered
    have memory := clocked id g found triggered
    have words := expressible found inner
    unfold isExpressible at words
    cases fn : g.fn <;> simp_all [GateFn.isTriggered]
  cells := by
    intro id g found uninterpreted
    rw [interpreted id (reachable.consistent.mem_view_gates.mpr ⟨g, found⟩) g found] at uninterpreted
    cases uninterpreted

/-- WRITING NEVER CHANGES WHAT A NETLIST DOES, where nothing but latches and flip-flops is triggered: the text is read
back with the same ports and gives the same outputs at every step, or the netlist is refused. -/
theorem write_behaves {net : Netlist} {symbols : SymbolTable} (reachable : net.Reachable)
    (interpreted : net.view.CustomFree) (acyclic : net.view.Acyclic)
    (clocked : ∀ id g, net.gate? id = some g → g.isTrigger = true → g.fn.isTriggered = true)
    (room : 2 * net.names.length ≤ GateId.largest) :
    (∃ text b sim sim', write net symbols = .ok text ∧ read text.toUTF8 = .ok b ∧
      b.inputs.map Prod.fst = (portsOf net.sources).map GateId.text ∧
      b.outputs.map Prod.fst = (portsOf net.targets).map GateId.text ∧
      net.view.compile (portsOf net.sources) (portsOf net.targets) = .ok sim ∧
      b.net.view.compile (b.inputs.map Prod.snd) (b.outputs.map Prod.snd) = .ok sim' ∧
      ∀ steps : List (List Word), (∀ words ∈ steps, words.length = (portsOf net.sources).length) →
        ∃ rows, sim.run steps = .ok rows ∧ sim'.run steps = .ok rows) ∨
    ∃ x, write net symbols = .error (.refusal (.unsupported x)) := by
  have consistent := reachable.consistent
  obtain ⟨order, ordered⟩ := consistent.coherent_view.exists_orderedGates acyclic
  by_cases all : ∀ g ∈ definedGates net order, isExpressible net symbols g = true
  · left
    have writable := writable_of_isExpressible reachable interpreted clocked fun found inner =>
      all _ (defined_of_found consistent ordered found inner)
    obtain ⟨text, names, b, written, reread, _, r⟩ := exists_reread writable ordered room (.inl acyclic)
    have runLeft := writable.runnable interpreted acyclic
    have runRight := r.runnable writable ordered interpreted acyclic
    rw [r.snd_inputs writable ordered, ← snd_feedPairs, ← r.snd_outputPairs] at runRight
    rw [← fst_feedPairs net order, ← r.fst_outputPairs] at runLeft
    obtain ⟨sim, sim', compiled, compiled', alike⟩ :=
      (r.lockstep writable ordered interpreted acyclic).run runLeft runRight
    rw [fst_feedPairs, r.fst_outputPairs] at compiled
    rw [snd_feedPairs, ← r.snd_inputs writable ordered, r.snd_outputPairs] at compiled'
    refine ⟨text, b, sim, sim', written, reread, ?_, r.outputs, compiled, compiled', ?_⟩
    · rw [r.inputs, fst_places]
    · intro steps widths
      exact alike steps fun words mem => by rw [widths words mem, feedPairs, List.length_map]
  · right
    simp only [not_forall] at all
    obtain ⟨g, defined, inexpressible⟩ := all
    exact write_of_not_isExpressible reachable interpreted ordered defined (by simpa using inexpressible)

/-- The parity of an input, of its value a step before, and of a driver outside. -/
def delayedParity : Netlist :=
  .made [⟨.input, []⟩, ⟨.one, []⟩, ⟨.flipFlop, [.plain ⟨0⟩, ⟨.rising, ⟨1⟩⟩]⟩, .nary .xor [⟨0⟩, ⟨2⟩, ⟨7⟩],
    .nary .output [⟨8⟩]]

theorem delayedParity_behaves : delayedParity.Reachable ∧ delayedParity.view.CustomFree ∧ delayedParity.view.Acyclic ∧
    (∀ id g, delayedParity.gate? id = some g → g.isTrigger = true → g.fn.isTriggered = true) ∧
    2 * delayedParity.names.length ≤ GateId.largest ∧
    ∃ text b sim sim', write delayedParity {} = .ok text ∧ read text.toUTF8 = .ok b ∧
      b.inputs.map Prod.fst = ["g0", "g7"] ∧ b.outputs.map Prod.fst = ["g9"] ∧
      delayedParity.view.compile [⟨0⟩, ⟨7⟩] [⟨9⟩] = .ok sim ∧
      b.net.view.compile (b.inputs.map Prod.snd) (b.outputs.map Prod.snd) = .ok sim' ∧
      ∀ steps : List (List Word), (∀ words ∈ steps, words.length = 2) →
        ∃ rows, sim.run steps = .ok rows ∧ sim'.run steps = .ok rows := by
  have reachable : delayedParity.Reachable := Netlist.reachable_made _
  have interpreted : delayedParity.view.CustomFree := View.customFree_of_all (by decide +kernel)
  have acyclic : delayedParity.view.Acyclic := View.acyclic_of_all (by decide +kernel)
  have clocked : ∀ id g, delayedParity.gate? id = some g → g.isTrigger = true → g.fn.isTriggered = true := by
    intro id g found triggered
    have all : delayedParity.view.allGates (fun _ g => !g.isTrigger || g.fn.isTriggered) = true := by decide +kernel
    simpa [triggered] using View.of_allGates all (reachable.consistent.mem_view_gates.mpr ⟨g, found⟩) found
  have room : 2 * delayedParity.names.length ≤ GateId.largest := by decide +kernel
  have sources : portsOf delayedParity.sources = [⟨0⟩, ⟨7⟩] := by decide +kernel
  have targets : portsOf delayedParity.targets = [⟨9⟩] := by decide +kernel
  have written : (write delayedParity {}).toOption.isSome = true := by decide +kernel
  refine ⟨reachable, interpreted, acyclic, clocked, room, ?_⟩
  rcases @write_behaves delayedParity {} reachable interpreted acyclic clocked room with behaves | ⟨x, refused⟩
  · rw [sources, targets] at behaves
    exact behaves
  · rw [refused] at written
    cases written

/-- A conjunction that is triggered by its first input. -/
def sampledConjunction : Netlist :=
  .made [⟨.input, []⟩, ⟨.input, []⟩, ⟨.and, [⟨.rising, ⟨0⟩⟩, .plain ⟨1⟩]⟩, .nary .output [⟨2⟩]]

/-- The event is not written, and the text has a conjunction that holds no value. -/
theorem sampledConjunction_behaves_otherwise : sampledConjunction.Reachable ∧ sampledConjunction.view.CustomFree ∧
    sampledConjunction.view.Acyclic ∧ ∃ text b, write sampledConjunction {} = .ok text ∧ read text.toUTF8 = .ok b ∧
      b.inputs.map Prod.fst = (portsOf sampledConjunction.sources).map GateId.text ∧
      b.outputs.map Prod.fst = (portsOf sampledConjunction.targets).map GateId.text ∧
      (sampledConjunction.view.compile (portsOf sampledConjunction.sources) (portsOf sampledConjunction.targets) >>=
        fun sim => sim.run [[allLanes, allLanes], [0, 0]]) = .ok [[0], [allLanes]] ∧
      (b.net.view.compile (b.inputs.map Prod.snd) (b.outputs.map Prod.snd) >>=
        fun sim => sim.run [[allLanes, allLanes], [0, 0]]) = .ok [[allLanes], [0]] := by
  have read : ((write sampledConjunction {}).toOption.any fun text => (read text.toUTF8).toOption.any fun b =>
      b.inputs.map Prod.fst = (portsOf sampledConjunction.sources).map GateId.text ∧
      b.outputs.map Prod.fst = (portsOf sampledConjunction.targets).map GateId.text ∧
      (b.net.view.compile (b.inputs.map Prod.snd) (b.outputs.map Prod.snd) >>=
        fun sim => sim.run [[allLanes, allLanes], [0, 0]]) = .ok [[allLanes], [0]]) = true := by decide +kernel
  obtain ⟨text, written, read⟩ := Result.exists_ok_of_any read
  obtain ⟨b, reread, read⟩ := Result.exists_ok_of_any read
  obtain ⟨inputs, outputs, run⟩ := of_decide_eq_true read
  exact ⟨Netlist.reachable_made _, View.customFree_of_all (by decide +kernel), View.acyclic_of_all (by decide +kernel),
    text, b, written, reread, inputs, outputs, by decide +kernel, run⟩

end Bench

end LogicNet
