import LogicNet.Proofs.Netlist.Success

/-!
# Growing circuits

A SELF-CONTAINED netlist is undivided, has no loops, and every driver in it is a gate. So its boundary is plain: a
source link is the port of an input, and a target link is the port of an output. It is a circuit if all its gates are
LOGICAL.

Two edits keep it so, and keep every value in it. An output can be opened: as a buffer it has the value that it had,
and can be read. And gates can be added.

**The law** (`SelfContained.exists_addGate`): whatever gate is returned for a shape, in every valuation it has the
value of the shape. It may be a new gate, a known one, or the inverter of a known one.
-/

namespace LogicNet

open Std

/-! ## Values of shapes -/

/-- The value of a shape from the values of its drivers. -/
def Shape.value (s : Shape) (val : GateId → Bool) : Bool := s.fn.evalBit false (s.inputs.map fun x => val x.driver)

theorem Shape.value_nary (fn : GateFn) (ids : List GateId) (val : GateId → Bool) :
    (Shape.nary fn ids).value val = fn.evalBit false (ids.map val) := by
  rw [Shape.value, Shape.nary, List.map_map]
  rfl

theorem Shape.isTrigger_nary (fn : GateFn) (ids : List GateId) : (Shape.nary fn ids).isTrigger = false := by
  rw [Shape.isTrigger, Shape.nary, List.any_map]
  exact List.any_eq_false.mpr fun _ _ => by simp [Signal.isPlain, Signal.plain]

/-- The complement is logic on the same inputs. -/
theorem Shape.complement_spec {s c : Shape} (h : s.complement = some c) :
    c.fn.isLogic = true ∧ c.isSource = s.isSource := by
  obtain ⟨f, complement, rfl⟩ := Option.map_eq_some_iff.mp h
  rw [Shape.isSource, Shape.isSource]
  generalize s.fn = fn at complement
  cases fn <;> cases complement <;> exact ⟨rfl, rfl⟩

/-- The complement has the opposite value. -/
theorem Shape.value_complement {s c : Shape} (h : s.complement = some c) (val : GateId → Bool) :
    s.value val = !c.value val := by
  obtain ⟨f, complement, rfl⟩ := Option.map_eq_some_iff.mp h
  rw [Shape.value, Shape.value]
  generalize s.fn = fn at complement
  cases fn <;> cases complement <;> simp [GateFn.evalBit]

theorem Shape.isFree_eq_false {s : Shape} (logic : s.fn.isLogic = true) (driven : s.isSource = false) :
    s.isFree = false := by
  rw [Shape.isFree, driven, GateFn.isTriggered_of_isLogic logic]
  rfl

namespace Netlist

section Shapes

variable {net : Netlist} (h : net.Consistent)
include h

theorem Consistent.mem_gates_iff_shape? {id : GateId} : id ∈ net.view.part.gates ↔ ∃ s, net.shape? id = some s := by
  rw [h.mem_view_gates]
  constructor
  · rintro ⟨g, found⟩
    exact ⟨_, shape?_of_gate? found⟩
  · rintro ⟨s, found⟩
    obtain ⟨g, found, _⟩ := shape?_eq_some.mp found
    exact ⟨g, found⟩

/-- A valuation is a matter of shapes. -/
theorem Consistent.valuation_iff_shape? {val : GateId → Bool} : net.view.Valuation val ↔
    ∀ (id : GateId) (s : Shape), net.shape? id = some s → s.isFree = true ∨ val id = s.value val := by
  constructor
  · intro valuation id s found
    have inside := h.mem_gates_iff_shape?.mpr ⟨s, found⟩
    obtain ⟨g, here, rfl⟩ := shape?_eq_some.mp found
    have obeys := valuation id inside g here
    rw [Gate.Obeys, h.wired.keyed here] at obeys
    exact obeys
  · intro each id _ g found
    have obeys := each id _ (shape?_of_gate? found)
    rw [← h.wired.keyed found] at obeys
    exact obeys

theorem Consistent.value_of_shape? {val : GateId → Bool} (valuation : net.view.Valuation val) {id : GateId} {s : Shape}
    (found : net.shape? id = some s) (logic : s.fn.isLogic = true) (driven : s.isSource = false) :
    val id = s.value val := by
  rcases h.valuation_iff_shape?.mp valuation id s found with free | value
  · rw [Shape.isFree_eq_false logic driven] at free
    cases free
  · exact value

/-- An output reads one signal. -/
theorem Consistent.eq_of_isOutput {id : GateId} {s : Shape} (found : net.shape? id = some s)
    (output : s.isOutput = true) : ∃ x, s = ⟨.output, [x]⟩ := by
  obtain ⟨g, here, rfl⟩ := shape?_eq_some.mp found
  have fn : g.fn = .output := eq_of_beq output
  have arity := (Bool.and_eq_true_iff.mp (h.wired.valid here)).1
  rw [Shape.hasArity, fn] at arity
  obtain ⟨x, one⟩ := List.length_eq_one_iff.mp (eq_of_beq arity)
  exact ⟨x, by rw [← fn, ← one]⟩

end Shapes

theorem feeds_iff_shape? {net : Netlist} {d t : GateId} : Feeds net.gate? d t ↔
    ∃ s, net.shape? t = some s ∧ s.isTrigger = false ∧ ∃ x ∈ s.inputs, x.driver = d := by
  constructor
  · rintro ⟨g, found, reads⟩
    exact ⟨_, shape?_of_gate? found, reads⟩
  · rintro ⟨s, found, reads⟩
    obtain ⟨g, here, rfl⟩ := shape?_eq_some.mp found
    exact ⟨g, here, reads⟩

/-- With fewer gates and less that is read there are no more loops. -/
theorem Consistent.acyclic_mono {net net' : Netlist} (h : net.Consistent) (h' : net'.Consistent)
    (known : ∀ {id : GateId} {s : Shape}, net'.shape? id = some s → ∃ s, net.shape? id = some s)
    (feeds : ∀ {d t : GateId}, Feeds net'.gate? d t → Feeds net.gate? d t) (acyclic : net.view.Acyclic) :
    net'.view.Acyclic := by
  intro t loop
  refine acyclic t (Relation.TransGen.mono (fun a b step => ?_) t t loop)
  obtain ⟨inA, inB, feed⟩ := step
  obtain ⟨_, knownA⟩ := h'.mem_gates_iff_shape?.mp inA
  obtain ⟨_, knownB⟩ := h'.mem_gates_iff_shape?.mp inB
  exact ⟨h.mem_gates_iff_shape?.mpr (known knownA), h.mem_gates_iff_shape?.mpr (known knownB), feeds feed⟩

/-- Where shapes are kept, so are values. -/
theorem Consistent.valuation_of_kept {net net' : Netlist} (h : net.Consistent) (h' : net'.Consistent)
    (kept : ∀ {id : GateId} {s : Shape}, net.shape? id = some s → net'.shape? id = some s) {val : GateId → Bool}
    (valuation : net'.view.Valuation val) : net.view.Valuation val :=
  h.valuation_iff_shape?.mpr fun id s found => h'.valuation_iff_shape?.mp valuation id s (kept found)

/-- A gate that feeds nothing is on no loop: a path goes through the other gates, except perhaps at its end. -/
theorem acyclic_of_sink {net net' : Netlist} {y : GateId} (sink : ∀ {d t : GateId}, Feeds net'.gate? d t → d ≠ y)
    (old : ∀ {d t : GateId}, t ≠ y → Feeds net'.gate? d t →
      d ∈ net.view.part.gates ∧ t ∈ net.view.part.gates ∧ Feeds net.gate? d t)
    (acyclic : net.view.Acyclic) : net'.view.Acyclic := by
  have path : ∀ {a b : GateId}, Relation.TransGen
      (fun a b => a ∈ net'.view.part.gates ∧ b ∈ net'.view.part.gates ∧ Feeds net'.gate? a b) a b → a ≠ y ∧
      (b ≠ y → Relation.TransGen
        (fun a b => a ∈ net.view.part.gates ∧ b ∈ net.view.part.gates ∧ Feeds net.gate? a b) a b) := by
    intro a b steps
    induction steps with
    | single step => exact ⟨sink step.2.2, fun other => .single (old other step.2.2)⟩
    | tail _ step ih => exact ⟨ih.1, fun other => (ih.2 (sink step.2.2)).tail (old other step.2.2)⟩
  intro t loop
  obtain ⟨other, loop⟩ := path loop
  exact acyclic t (loop other)

/-! ## Self-contained netlists -/

/-- All gates compute logic on plain signals. -/
def Logical (net : Netlist) : Prop :=
  ∀ {id : GateId} {s : Shape}, net.shape? id = some s → s.fn.isLogic = true ∧ s.isTrigger = false

/-- A netlist without parts and loops in which every driver is a gate, and exactly these gates are sources. -/
structure SelfContained (inputs : List GateId) (net : Netlist) : Prop where
  reachable : net.Reachable
  flat : net.parts = []
  inside : ∀ {id : GateId} {s : Shape}, net.shape? id = some s → ∀ x ∈ s.inputs, ∃ d, net.shape? x.driver = some d
  sources : ∀ id, id ∈ inputs ↔ ∃ s, net.shape? id = some s ∧ s.isSource = true
  acyclic : net.view.Acyclic

namespace SelfContained

variable {inputs : List GateId} {net : Netlist} (h : SelfContained inputs net)
include h

theorem circuit (logical : net.Logical) : net.view.Circuit :=
  ⟨⟨⟨h.reachable, .inl rfl⟩, fun _ _ _ found => logical (shape?_of_gate? found)⟩, h.acyclic⟩

theorem inside_of_edge {l : Link} (edge : IsEdge net.gate? l) :
    net.contains l.source = true ∧ net.contains l.target = true := by
  obtain ⟨g, found, link⟩ := edge
  obtain ⟨x, read, driver⟩ := source_of_mem_inputLinks link
  obtain ⟨d, known⟩ := h.inside (shape?_of_gate? found) x read
  obtain ⟨g', found', _⟩ := shape?_eq_some.mp known
  exact ⟨contains_iff.mpr ⟨g', driver ▸ found'⟩, contains_iff.mpr ⟨g, found⟩⟩

theorem mem_sources {l : Link} : l ∈ net.sources ↔ ∃ x ∈ inputs, l = .port x := by
  rw [show l ∈ net.sources ↔ _ from h.reachable.consistent.top.bounds.sources l]
  constructor
  · rintro (⟨g, found, _, source, port⟩ | ⟨edge, crosses⟩)
    · exact ⟨l.source, (h.sources _).mpr ⟨_, shape?_of_gate? found, source⟩, port⟩
    · simp [(h.inside_of_edge edge).1] at crosses
  · rintro ⟨x, mem, rfl⟩
    obtain ⟨s, found, source⟩ := (h.sources x).mp mem
    obtain ⟨g, here, rfl⟩ := shape?_eq_some.mp found
    exact onBoundary_port.mpr ⟨g, here, contains_iff.mpr ⟨g, here⟩, source⟩

theorem mem_targets {l : Link} :
    l ∈ net.targets ↔ ∃ id s, net.shape? id = some s ∧ s.isOutput = true ∧ l = .port id := by
  rw [show l ∈ net.targets ↔ _ from h.reachable.consistent.top.bounds.targets l]
  constructor
  · rintro (⟨g, found, _, output, port⟩ | ⟨edge, crosses⟩)
    · exact ⟨l.source, _, shape?_of_gate? found, output, port⟩
    · simp [(h.inside_of_edge edge).2] at crosses
  · rintro ⟨id, s, found, output, rfl⟩
    obtain ⟨g, here, rfl⟩ := shape?_eq_some.mp found
    exact onBoundary_port.mpr ⟨g, here, contains_iff.mpr ⟨g, here⟩, output⟩

theorem of_gates {net' : Netlist} (reachable : net'.Reachable) (flat : net'.parts = [])
    (same : net'.gate? = net.gate?) : SelfContained inputs net' := by
  have shapes : net'.shape? = net.shape? := by
    funext id
    rw [shape?, same, shape?]
  refine ⟨reachable, flat, ?_, ?_, ?_⟩
  · rw [shapes]
    exact h.inside
  · rw [shapes]
    exact h.sources
  · refine h.reachable.consistent.acyclic_mono reachable.consistent (fun known => ⟨_, shapes ▸ known⟩) ?_ h.acyclic
    rw [same]
    exact fun feeds => feeds

/-! ## Opening an output -/

/-- An output can be made a buffer, which keeps all values. -/
theorem exists_open {id : GateId} {s : Shape} (found : net.shape? id = some s) (output : s.isOutput = true) :
    ∃ net', net.setGate id ⟨.buffer, s.inputs⟩ = .ok net' ∧ SelfContained inputs net' ∧
      net'.shape? = Function.update net.shape? id (some ⟨.buffer, s.inputs⟩) ∧ net'.nextId = net.nextId ∧
      (net.Logical → net'.Logical) ∧ ∀ val, net'.view.Valuation val → net.view.Valuation val := by
  have consistent := h.reachable.consistent
  obtain ⟨x, rfl⟩ := consistent.eq_of_isOutput found output
  obtain ⟨g, here, shape⟩ := shape?_eq_some.mp found
  obtain ⟨net', set, next⟩ := @exists_setGate net consistent id g here ⟨.buffer, [x]⟩ rfl
    (fun y read => consistent.canDrive_of_read here (by rw [shape]; exact read)) nofun
  have reshapes := reshapes_setGate consistent set
  have reachable : net'.Reachable := .setGate id _ h.reachable set
  refine ⟨net', set, ⟨reachable, ?flat, ?inside, ?sources, ?acyclic⟩, reshapes.shapes, next, ?logical, ?values⟩
  case flat => exact reshapes.flat h.flat
  case inside =>
    intro y s now z read
    have driver : ∃ d, net.shape? z.driver = some d := by
      rcases reshapes.before now with ⟨_, rfl⟩ | ⟨_, known⟩
      · exact h.inside found z read
      · exact h.inside known z read
    obtain ⟨d, driver⟩ := driver
    by_cases same : z.driver = id
    · exact ⟨_, same ▸ reshapes.self⟩
    · exact ⟨d, (reshapes.other same).trans driver⟩
  case sources =>
    intro y
    rw [h.sources]
    constructor
    · rintro ⟨s, known, source⟩
      refine ⟨s, (reshapes.other ?_).trans known, source⟩
      rintro rfl
      rw [found, Option.some.injEq] at known
      rw [← known] at source
      cases source
    · rintro ⟨s, now, source⟩
      rcases reshapes.before now with ⟨_, rfl⟩ | ⟨_, known⟩
      · cases source
      · exact ⟨s, known, source⟩
  case acyclic =>
    refine consistent.acyclic_mono reachable.consistent ?_ ?_ h.acyclic
    · intro y s now
      rcases reshapes.before now with ⟨rfl, _⟩ | ⟨_, known⟩
      · exact ⟨_, found⟩
      · exact ⟨s, known⟩
    · intro d t feeds
      rw [feeds_iff_shape?] at feeds ⊢
      obtain ⟨s, now, reads⟩ := feeds
      rcases reshapes.before now with ⟨rfl, rfl⟩ | ⟨_, known⟩
      · exact ⟨_, found, reads⟩
      · exact ⟨s, known, reads⟩
  case logical =>
    intro logical y s now
    rcases reshapes.before now with ⟨_, rfl⟩ | ⟨_, known⟩
    · exact ⟨rfl, (logical found).2⟩
    · exact logical known
  case values =>
    intro val valuation
    refine consistent.valuation_iff_shape?.mpr fun y s known => ?_
    have now := reachable.consistent.valuation_iff_shape?.mp valuation y
    by_cases same : y = id
    · rw [same, found, Option.some.injEq] at known
      have opened := now ⟨.buffer, [x]⟩ (by rw [same]; exact reshapes.self)
      rw [← known]
      exact opened
    · exact now s ((reshapes.other same).trans known)

/-! ## Adding a gate -/

end SelfContained

/-- Gate `y` was returned for this shape: nothing that was there has changed, and `y` has its value. -/
structure Computes (net : Netlist) (shape : Shape) (y : GateId) (net' : Netlist) : Prop where
  next : net'.nextId ≤ net.nextId + 1
  kept : ∀ {id : GateId} {s : Shape}, net.shape? id = some s → net'.shape? id = some s
  known : ∃ s, net'.shape? y = some s ∧ s.isOutput = shape.isOutput
  outputs : ∀ {id : GateId} {s : Shape}, net'.shape? id = some s → s.isOutput = true →
    net.shape? id = some s ∨ id = y ∧ shape.isOutput = true
  logical : net.Logical → net'.Logical
  value : ∀ val, net'.view.Valuation val → val y = shape.value val

/-- A gate that is not an output adds none. -/
theorem Computes.output_iff {net net' : Netlist} {shape : Shape} {y : GateId} (h : net.Computes shape y net')
    (plain : shape.isOutput = false) (z : GateId) :
    (∃ s, net'.shape? z = some s ∧ s.isOutput = true) ↔ ∃ s, net.shape? z = some s ∧ s.isOutput = true := by
  constructor
  · rintro ⟨s, now, output⟩
    rcases h.outputs now output with before | ⟨_, isOutput⟩
    · exact ⟨s, before, output⟩
    · rw [plain] at isOutput
      cases isOutput
  · rintro ⟨s, before, output⟩
    exact ⟨s, h.kept before, output⟩

/-- A shape that a self-contained netlist can take in. -/
structure Fits (net : Netlist) (shape : Shape) : Prop where
  arity : shape.hasArity = true
  logic : shape.fn.isLogic = true
  plain : shape.isTrigger = false
  driven : shape.isSource = false
  drivers : ∀ x ∈ shape.inputs, ∃ d, net.shape? x.driver = some d ∧ d.isOutput = false

namespace SelfContained

variable {inputs : List GateId} {net : Netlist} (h : SelfContained inputs net)
include h

/-- A gate that is there already has its value. -/
theorem computes_known {shape : Shape} (fits : net.Fits shape) {y : GateId} (found : net.shape? y = some shape) :
    Computes net shape y net where
  next := Nat.le_succ _
  kept := fun known => known
  known := ⟨shape, found, rfl⟩
  outputs := fun known _ => .inl known
  logical := fun logical => logical
  value := fun _ valuation => h.reachable.consistent.value_of_shape? valuation found fits.logic fits.driven

/-- A new gate reads what is there, and nothing reads it. -/
theorem exists_build {shape : Shape} (fits : net.Fits shape) (room : net.nextId < GateId.largest) :
    ∃ y net', net.build shape = .ok (y, net') ∧ (net'.Reachable → SelfContained inputs net') ∧
      Computes net shape y net' := by
  have consistent := h.reachable.consistent
  obtain ⟨net', built, next⟩ := @Netlist.exists_build net shape fits.arity (by
    intro x read
    obtain ⟨d, driver, plain⟩ := fits.drivers x read
    exact consistent.canDrive_of_shape? driver plain) room
  obtain ⟨_, reshapes⟩ := reshapes_build built
  let y : GateId := ⟨net.nextId⟩
  have fresh : ∀ {id : GateId} {s : Shape}, net.shape? id = some s → id ≠ y := by
    rintro id s known rfl
    exact Nat.lt_irrefl _ (consistent.lt_next known)
  have kept : ∀ {id : GateId} {s : Shape}, net.shape? id = some s → net'.shape? id = some s :=
    fun known => (reshapes.other (fresh known)).trans known
  have drivers : ∀ {id : GateId} {s : Shape}, net'.shape? id = some s → ∀ x ∈ s.inputs,
      ∃ d, net.shape? x.driver = some d := by
    intro id s now x read
    rcases reshapes.before now with ⟨_, rfl⟩ | ⟨_, known⟩
    · obtain ⟨d, driver, _⟩ := fits.drivers x read
      exact ⟨d, driver⟩
    · exact h.inside known x read
  refine ⟨y, net', built, fun reachable => ⟨reachable, ?flat, ?inside, ?sources, ?acyclic⟩,
    ⟨Nat.le_of_eq next, kept, ⟨shape, reshapes.self, rfl⟩, ?outputs, ?logical, ?value⟩⟩
  case flat => exact reshapes.flat h.flat
  case inside =>
    intro id s now x read
    obtain ⟨d, driver⟩ := drivers now x read
    exact ⟨d, kept driver⟩
  case sources =>
    intro id
    rw [h.sources]
    constructor
    · rintro ⟨s, known, source⟩
      exact ⟨s, kept known, source⟩
    · rintro ⟨s, now, source⟩
      rcases reshapes.before now with ⟨_, rfl⟩ | ⟨_, known⟩
      · rw [fits.driven] at source
        cases source
      · exact ⟨s, known, source⟩
  case acyclic =>
    refine acyclic_of_sink (y := y) ?_ ?_ h.acyclic
    · intro d t feeds
      obtain ⟨s, now, _, x, read, rfl⟩ := feeds_iff_shape?.mp feeds
      obtain ⟨_, driver⟩ := drivers now x read
      exact fresh driver
    · intro d t other feeds
      obtain ⟨s, now, plain, x, read, rfl⟩ := feeds_iff_shape?.mp feeds
      rcases reshapes.before now with ⟨same, _⟩ | ⟨_, known⟩
      · exact absurd same other
      · exact ⟨consistent.mem_gates_iff_shape?.mpr (drivers now x read), consistent.mem_gates_iff_shape?.mpr ⟨s, known⟩,
          feeds_iff_shape?.mpr ⟨s, known, plain, x, read, rfl⟩⟩
  case outputs =>
    intro id s now output
    rcases reshapes.before now with ⟨same, rfl⟩ | ⟨_, known⟩
    · exact .inr ⟨same, output⟩
    · exact .inl known
  case logical =>
    intro logical id s now
    rcases reshapes.before now with ⟨_, rfl⟩ | ⟨_, known⟩
    · exact ⟨fits.logic, fits.plain⟩
    · exact logical known
  case value =>
    intro val valuation
    exact (consistent.build built).value_of_shape? valuation reshapes.self fits.logic fits.driven

/-- A gate found under its shape, or a new one. -/
theorem exists_findOrBuild {shape : Shape} (fits : net.Fits shape) (room : net.nextId < GateId.largest) :
    ∃ y net', net.findOrBuild shape = .ok (y, net') ∧ (net'.Reachable → SelfContained inputs net') ∧
      Computes net shape y net' := by
  unfold findOrBuild
  cases known : net.shared[shape]? with
  | none => exact h.exists_build fits room
  | some y =>
    have found := (h.reachable.consistent.shared shape y known).2
    exact ⟨y, net, rfl, fun _ => h, h.computes_known fits found⟩

/-- A SHAPE GETS A GATE WITH ITS VALUE, new or not. -/
theorem exists_addGate {shape : Shape} (fits : net.Fits shape) (room : net.nextId < GateId.largest) :
    ∃ y net', net.addGate shape = .ok (y, net') ∧ SelfContained inputs net' ∧ Computes net shape y net' := by
  suffices added : ∃ y net', net.addGate shape = .ok (y, net') ∧ (net'.Reachable → SelfContained inputs net') ∧
      Computes net shape y net' by
    obtain ⟨y, net', added, contained, computes⟩ := added
    exact ⟨y, net', added, contained (.addGate shape h.reachable added), computes⟩
  unfold addGate
  split
  · split
    · next y known =>
      have found := (h.reachable.consistent.shared shape y known).2
      exact ⟨y, net, rfl, fun _ => h, h.computes_known fits found⟩
    · next base _ complement =>
      obtain ⟨c, isComplement, known⟩ := Option.bind_eq_some_iff.mp complement
      obtain ⟨shareable, found⟩ := h.reachable.consistent.shared c base known
      have driven : c.isOutput = false ∧ c.isSource = false := by simpa [Shape.isShareable] using shareable
      have inverter : net.Fits (.nary .not [base]) := by
        refine ⟨rfl, rfl, Shape.isTrigger_nary _ _, rfl, fun x read => ?_⟩
        obtain rfl : x = .plain base := by simpa [Shape.nary] using read
        exact ⟨c, found, driven.1⟩
      obtain ⟨y, net', added, contained, computes⟩ := h.exists_findOrBuild inverter room
      have plain : shape.isOutput = false := by
        obtain ⟨f, isComplement, _⟩ := Option.map_eq_some_iff.mp isComplement
        rw [Shape.isOutput]
        generalize shape.fn = fn at isComplement
        cases fn <;> first | rfl | cases isComplement
      refine ⟨y, net', added, contained, computes.next, computes.kept, ?_, fun now output => ?_, computes.logical,
        fun val valuation => ?_⟩
      · rw [plain]
        exact computes.known
      · rcases computes.outputs now output with before | ⟨_, inverts⟩
        · exact .inl before
        · cases inverts
      · have inverted := computes.value val valuation
        have kept := (h.reachable.consistent.findOrBuild added).value_of_shape? valuation (computes.kept found)
          (Shape.complement_spec isComplement).1 driven.2
        rw [inverted, Shape.value_complement isComplement, ← kept]
        rfl
    · exact h.exists_build fits room
  · exact h.exists_build fits room

end SelfContained

end Netlist

end LogicNet
