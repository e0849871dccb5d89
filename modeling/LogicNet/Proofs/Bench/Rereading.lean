import LogicNet.Proofs.Bench.Writing
import LogicNet.Proofs.Netlist.Feeding

/-!
# Reading what was written

The names of a written text are the numbers of the gates and of the drivers outside, each once (`writtenIds_perm`).
So the text is well-formed, and reading it gives every gate a place.

**The law** (`exists_reread`): a netlist that can be written is read back gate by gate (`Rereads`): the gate at the
place of a definition has the function it was written for and reads the gates at the places of its drivers. Nothing
is added but outputs, and a constant that clocks the flip-flops.
-/

namespace LogicNet

open Std

namespace Bench

/-! ## Names of a written text -/

/-- The numbers that are names in a written text, in the order in which they are declared. -/
def writtenIds (net : Netlist) (order : List GateId) : List GateId :=
  portsOf net.sources ++ (definedGates net order).map Gate.id

section Ids

variable {net : Netlist} (h : net.Consistent)
include h

theorem ids_definedGates (ids : List GateId) :
    (definedGates net ids).map Gate.id = ids.filter fun id => (net.gate? id).any fun g => !g.isSource := by
  induction ids with
  | nil => rfl
  | cons id ids ih =>
    unfold definedGates at *
    cases found : net.gate? id with
    | none => simp [found, ih]
    | some g =>
      have key := h.wired.keyed found
      cases source : g.isSource <;> simp [found, source, key, ih]

/-- A port that is written as an input is a source, or a driver outside. -/
theorem mem_portsOf_sources {id : GateId} : id ∈ portsOf net.sources ↔
    (∃ g, net.gate? id = some g ∧ g.isSource = true) ∨ net.Mentions id ∧ net.gate? id = none := by
  apply mem_driversOf.trans
  constructor
  · rintro ⟨l, mem, rfl⟩
    rcases h.mem_sources_iff.mp mem with ⟨id, g, rfl, found, source⟩ | ⟨t, i, g, s, rfl, found, read, outside⟩
    · exact .inl ⟨g, found, source⟩
    · exact .inr ⟨.inr ⟨t, g, s, found, List.mem_of_getElem? read, rfl⟩, outside⟩
  · rintro (⟨g, found, source⟩ | ⟨⟨g, found⟩ | ⟨t, g, s, found, read, rfl⟩, outside⟩)
    · exact ⟨.port id, (h.port_mem_sources found).mpr source, rfl⟩
    · rw [outside] at found
      cases found
    · obtain ⟨i, here⟩ := List.mem_iff_getElem?.mp read
      exact ⟨.edge s.driver t i, (h.edge_mem_sources found here).mpr outside, rfl⟩

/-- What is written as a definition is not written as an input. -/
theorem not_mem_portsOf_sources {id : GateId} {g : Gate} (found : net.gate? id = some g) (inner : g.isSource = false) :
    id ∉ portsOf net.sources := by
  intro port
  rcases (mem_portsOf_sources h).mp port with ⟨g', found', source⟩ | ⟨_, outside⟩
  · rw [found] at found'
    cases found'
    rw [inner] at source
    cases source
  · rw [found] at outside
    cases outside

/-- A port that is written as an output is one. -/
theorem mem_portsOf_targets {id : GateId} : id ∈ portsOf net.targets ↔
    ∃ g, net.gate? id = some g ∧ g.isOutput = true := by
  apply mem_driversOf.trans
  constructor
  · rintro ⟨l, mem, rfl⟩
    obtain ⟨g, found, output, _⟩ := h.mem_targets_iff.mp mem
    exact ⟨g, found, output⟩
  · rintro ⟨g, found, output⟩
    exact ⟨.port id, h.mem_targets_iff.mpr ⟨g, found, output, rfl⟩, rfl⟩

variable {order : List GateId} (ordered : net.view.orderedGates = .ok order)
include ordered

theorem defined_of_found {id : GateId} {g : Gate} (found : net.gate? id = some g) (inner : g.isSource = false) :
    g ∈ definedGates net order := by
  obtain ⟨perm, _⟩ := h.coherent_view.orderedGates_spec ordered
  exact mem_definedGates.mpr ⟨⟨id, perm.mem_iff.mpr (h.mem_view_gates.mpr ⟨g, found⟩), found⟩, inner⟩

theorem mem_definedIds {id : GateId} : id ∈ (definedGates net order).map Gate.id ↔
    ∃ g, net.gate? id = some g ∧ g.isSource = false := by
  constructor
  · intro mem
    obtain ⟨g, defined, rfl⟩ := List.mem_map.mp mem
    obtain ⟨⟨id, _, found⟩, inner⟩ := mem_definedGates.mp defined
    exact ⟨g, h.wired.keyed found ▸ found, inner⟩
  · rintro ⟨g, found, inner⟩
    exact List.mem_map.mpr ⟨g, defined_of_found h ordered found inner, h.wired.keyed found⟩

theorem nodup_definedIds : ((definedGates net order).map Gate.id).Nodup := by
  obtain ⟨perm, _⟩ := h.coherent_view.orderedGates_spec ordered
  rw [ids_definedGates h]
  exact (perm.nodup_iff.mpr h.top.accounts.nodup).filter _

/-- Every gate and every driver outside has one name. -/
theorem writtenIds_perm : (writtenIds net order).Perm net.names := by
  have disjoint : (portsOf net.sources).Disjoint ((definedGates net order).map Gate.id) := by
    intro id port gate
    obtain ⟨g, found, inner⟩ := (mem_definedIds h ordered).mp gate
    exact not_mem_portsOf_sources h found inner port
  have nodup : (writtenIds net order).Nodup := (nodup_driversOf _).append (nodup_definedIds h ordered) disjoint
  apply (List.perm_ext_iff_of_nodup nodup h.nodup_names).mpr
  intro id
  rw [writtenIds, List.mem_append, mem_portsOf_sources h, mem_definedIds h ordered, h.mem_names]
  constructor
  · rintro ((⟨g, found, _⟩ | ⟨mentioned, _⟩) | ⟨g, found, _⟩)
    · exact .inl ⟨g, found⟩
    · exact mentioned
    · exact .inl ⟨g, found⟩
  · intro mentioned
    cases found : net.gate? id with
    | none => exact .inl (.inr ⟨mentioned, rfl⟩)
    | some g => cases source : g.isSource <;> simp [source]

theorem nodup_writtenIds : (writtenIds net order).Nodup := (writtenIds_perm h ordered).nodup_iff.mpr h.nodup_names

theorem mem_writtenIds {id : GateId} : id ∈ writtenIds net order ↔ net.Mentions id := by
  rw [(writtenIds_perm h ordered).mem_iff, h.mem_names]

end Ids

/-! ## Well-formed texts -/

section WellFormed

theorem declared_eq (net : Netlist) (symbols : SymbolTable) (order : List GateId) :
    (portsOf net.sources).map GateId.text ++ (definitions net symbols order).map Definition.name =
      (writtenIds net order).map GateId.text := by
  rw [writtenIds, List.map_append, List.map_map, List.map_map]
  rfl

variable {net : Netlist} {symbols : SymbolTable} (h : Writable net symbols) {order : List GateId}
  (ordered : net.view.orderedGates = .ok order)
include h ordered

theorem text_mem_declared {id : GateId} (mentioned : net.Mentions id) :
    id.text ∈ (writtenIds net order).map GateId.text := by
  apply List.mem_map_of_mem
  exact (mem_writtenIds h.reachable.consistent ordered).mpr mentioned

omit ordered in
/-- The kinds of cells that are written are in one table. -/
theorem exists_cellTable (order : List GateId) : ∃ table : List String, table.length ≤ SymbolTable.capacity ∧
    ∀ kind ∈ cellKinds (definitions net symbols order), kind ∈ table := by
  have known : ∀ kind ∈ cellKinds (definitions net symbols order),
      kind ∈ symbols.names ∧ IsCellTable symbols := by
    intro kind mem
    obtain ⟨d, cell, rfl⟩ := List.mem_map.mp mem
    obtain ⟨mem, unnamed⟩ := List.mem_filter.mp cell
    obtain ⟨g, defined, rfl⟩ := List.mem_map.mp mem
    obtain ⟨⟨id, _, found⟩, inner⟩ := mem_definedGates.mp defined
    rcases h.named_or_cell found inner with ⟨named, _⟩ | ⟨n, kind, custom, known, same, _⟩
    · have closed : ∀ fn ∈ .output :: namedFns, (readFn fn).isNone = false := by decide
      rw [h.fn?_definitionOf found inner, closed g.fn named] at unnamed
      cases unnamed
    · refine ⟨?_, h.cells found (by rw [custom]; rfl)⟩
      show kindOf symbols g.fn ∈ symbols.names
      rw [same]
      exact List.mem_of_getElem? known
  by_cases none : cellKinds (definitions net symbols order) = []
  · exact ⟨[], Nat.zero_le _, by rw [none]; nofun⟩
  · obtain ⟨kind, mem⟩ := List.exists_mem_of_ne_nil _ none
    exact ⟨symbols.names, (known kind mem).2.fits, fun kind mem => (known kind mem).1⟩

/-- A WRITTEN TEXT IS WELL-FORMED. -/
theorem wellFormed_written : WellFormed ((portsOf net.sources).map GateId.text)
    ((portsOf net.targets).map GateId.text) (definitions net symbols order) := by
  have consistent := h.reachable.consistent
  refine ⟨?_, ?_, ?_, ?_, exists_cellTable h order⟩
  · rw [declared_eq]
    exact (nodup_writtenIds consistent ordered).map text_injective
  · rw [declared_eq]
    intro d mem operand inside
    obtain ⟨g, defined, rfl⟩ := List.mem_map.mp mem
    obtain ⟨s, read, rfl⟩ := List.mem_map.mp inside
    obtain ⟨⟨id, _, found⟩, _⟩ := mem_definedGates.mp defined
    exact text_mem_declared h ordered (.inr ⟨id, g, s, found, Shape.mem_of_mem_data read, rfl⟩)
  · rw [declared_eq]
    intro name mem
    obtain ⟨id, port, rfl⟩ := List.mem_map.mp mem
    obtain ⟨g, found, _⟩ := (mem_portsOf_targets consistent).mp port
    exact text_mem_declared h ordered (.inl ⟨g, found⟩)
  · intro d mem
    obtain ⟨g, defined, rfl⟩ := List.mem_map.mp mem
    obtain ⟨⟨id, _, found⟩, inner⟩ := mem_definedGates.mp defined
    exact h.hasArity_definitionOf found inner

omit ordered in
theorem isFlipFlop_definitionOf {g : Gate} (mem : g ∈ definedGates net order) :
    (definitionOf symbols g).isFlipFlop = (g.fn == .flipFlop) := by
  obtain ⟨⟨id, _, found⟩, inner⟩ := mem_definedGates.mp mem
  rw [Definition.isFlipFlop, h.fn?_definitionOf found inner]
  cases g.fn <;> rfl

/-- Half of all numbers are enough for a netlist to be read back: what is added are outputs and clocks. -/
theorem room_written :
    ((portsOf net.sources).map GateId.text).length + (definitions net symbols order).length +
      ((definitions net symbols order).filter Definition.isFlipFlop).length +
      ((portsOf net.targets).map GateId.text).length ≤ 2 * net.names.length := by
  have consistent := h.reachable.consistent
  have all := (writtenIds_perm consistent ordered).length_eq
  have flipFlops : ((definitions net symbols order).filter Definition.isFlipFlop).length =
      ((definedGates net order).filter fun g => g.fn == .flipFlop).length := by
    rw [List.filter_map, List.length_map]
    exact congrArg List.length (List.filter_congr fun g mem => isFlipFlop_definitionOf h mem)
  have outputs : (portsOf net.targets).length ≤
      ((definedGates net order).filter fun g => !(g.fn == .flipFlop)).length := by
    rw [← List.length_map (f := Gate.id)]
    apply ((nodup_driversOf _).subperm ?_).length_le
    intro id port
    obtain ⟨g, found, output⟩ := (mem_portsOf_targets consistent).mp port
    obtain ⟨x, shape⟩ := consistent.eq_of_isOutput (Netlist.shape?_of_gate? found) output
    refine List.mem_map.mpr ⟨g, List.mem_filter.mpr ⟨?_, by rw [shape]; rfl⟩, consistent.wired.keyed found⟩
    exact defined_of_found consistent ordered found (by rw [shape]; rfl)
  have parts := List.length_eq_length_filter_add (l := definedGates net order) fun g => g.fn == .flipFlop
  rw [writtenIds, List.length_append, List.length_map] at all
  rw [flipFlops, List.length_map, List.length_map, List.length_map]
  omega

end WellFormed

/-! ## Gate by gate -/

/-- The function that one becomes when it is written and read: an output is a buffer, and a cell keeps its name, which
may have another number. -/
def SameFn (symbols symbols' : SymbolTable) (fn fn' : GateFn) : Prop :=
  match fn with
  | .output => fn' = .buffer
  | .custom n => ∃ m kind, symbols.names[n]? = some kind ∧ fn' = .custom m ∧ symbols'.names[m]? = some kind
  | fn => fn' = fn

/-- The second shape has the function of the first and reads the gates that are named after its drivers, position by
position. A flip-flop is clocked by a constant one. -/
structure Restores (names : Names) (net : Netlist) (symbols symbols' : SymbolTable) (s s' : Shape) : Prop where
  fn : SameFn symbols symbols' s.fn s'.fn
  data : List.Forall₂ (fun x y => names[x.driver.text]? = some y.driver ∧ y.isPlain = true) s.data s'.data
  clock : s'.fn = .flipFlop → ∃ x clock, s'.inputs = [x, ⟨.rising, clock⟩] ∧ net.shape? clock = some ⟨.one, []⟩

theorem sameFn_of_readFn {symbols symbols' : SymbolTable} {fn fn' : GateFn} (read : readFn fn = some fn') :
    SameFn symbols symbols' fn fn' := by
  unfold SameFn
  cases fn <;> cases read <;> rfl

section Gates

variable {net : Netlist} {symbols symbols' : SymbolTable} (h : Writable net symbols) {order : List GateId}
  (ordered : net.view.orderedGates = .ok order) {names : Names}
  (named : names.Numbers ((writtenIds net order).map GateId.text))
include h ordered named

/-- All names that are used are declared. -/
theorem names_of_resolves {net' : Netlist} {id g : GateId} (mentioned : net.Mentions id)
    (resolves : Resolves names net' id.text g) : names[id.text]? = some g := by
  obtain ⟨i, here⟩ := List.mem_iff_getElem?.mp (text_mem_declared h ordered mentioned)
  have declared := (named id.text ⟨i⟩).mpr here
  rcases resolves with own | ⟨undeclared, _⟩
  · exact own
  · rw [declared] at undeclared
    cases undeclared

/-- What a written definition describes restores its gate. -/
theorem restores_of_describes {net' : Netlist} {id : GateId} {g : Gate} (found : net.gate? id = some g)
    (inner : g.isSource = false) {s : Shape} (describes : Describes names net' symbols' (definitionOf symbols g) s) :
    Restores names net' symbols symbols' g.toShape s := by
  obtain ⟨drivers, resolve, cases⟩ := describes.cases
  have data : List.Forall₂ (fun x y => names[x.driver.text]? = some y.driver ∧ y.isPlain = true) g.data
      (drivers.map Signal.plain) := by
    rw [List.forall₂_map_right_iff]
    have mentioned : ∀ x ∈ g.data, net.Mentions x.driver := fun x read =>
      .inr ⟨id, g, x, found, Shape.mem_of_mem_data read, rfl⟩
    apply ((List.forall₂_and_left _ _).mpr ⟨mentioned, List.forall₂_map_left_iff.mp resolve⟩).imp
    rintro x y ⟨mentioned, resolves⟩
    exact ⟨names_of_resolves h ordered named mentioned resolves, rfl⟩
  rw [h.fn?_definitionOf found inner] at cases
  rcases cases with ⟨readable, driver, clock, rfl, isOne, rfl⟩ | ⟨fn, readable, plain, _, rfl⟩ |
    ⟨readable, m, known, rfl⟩
  · exact ⟨sameFn_of_readFn readable, data, fun _ => ⟨_, clock, rfl, isOne⟩⟩
  · refine ⟨sameFn_of_readFn readable, ?_, fun flipFlop => absurd flipFlop plain⟩
    have all : (Shape.nary fn drivers).data = drivers.map Signal.plain := if_neg plain
    rw [all]
    exact data
  · refine ⟨?_, data, nofun⟩
    rcases h.named_or_cell found inner with ⟨isNamed, _⟩ | ⟨n, kind, custom, numbered, same, _⟩
    · have closed : ∀ fn ∈ .output :: namedFns, readFn fn ≠ none := by decide
      exact absurd readable (closed g.fn isNamed)
    · rw [custom]
      exact ⟨m, kind, numbered, rfl, same ▸ known⟩

end Gates

/-- A netlist that was written and read back: every name has the gate of its place, and every gate is restored. There
is nothing else but outputs and constants. -/
structure Rereads (net : Netlist) (symbols : SymbolTable) (order : List GateId) (names : Names) (design : Design) :
    Prop where
  reachable : design.net.Reachable
  named : names.Numbers ((writtenIds net order).map GateId.text)
  inputs : design.inputs = places ((portsOf net.sources).map GateId.text)
  input : ∀ i < (portsOf net.sources).length, design.net.shape? ⟨i⟩ = some ⟨.input, []⟩
  gate : ∀ (j : Nat) (g : Gate), (definedGates net order)[j]? = some g →
    ∃ s, design.net.shape? ⟨(portsOf net.sources).length + j⟩ = some s ∧
      Restores names design.net symbols design.symbols g.toShape s
  outputs : design.outputs.map Prod.fst = (portsOf net.targets).map GateId.text
  output : ∀ x ∈ design.outputs, (writtenIds net order).length ≤ x.2.index ∧
    ∃ d, names[x.1]? = some d ∧ design.net.shape? x.2 = some (.nary .output [d])
  extra : ∀ (g : GateId) (s : Shape), design.net.shape? g = some s → (writtenIds net order).length ≤ g.index →
    s.isConstant = true ∨ ∃ name, (name, g) ∈ design.outputs
  triggers : design.triggers.map Prod.fst =
    ((definedGates net order).filter fun g => g.fn == .flipFlop).map fun g => g.id.text
  trigger : ∀ x ∈ design.triggers, names[x.1]? = some x.2

section Assembled

variable {net : Netlist} {symbols : SymbolTable} (h : Writable net symbols) {order : List GateId}
  (ordered : net.view.orderedGates = .ok order)
include h ordered

/-- The written definitions, all filled in. -/
theorem Assembled.rereads {names : Names} {design : Design}
    (named : names.Numbers ((writtenIds net order).map GateId.text))
    (assembled : Assembled ((portsOf net.sources).map GateId.text) (definitions net symbols order)
      names (definitions net symbols order) ((portsOf net.targets).map GateId.text) design)
    {net' : Netlist} (reachable : net'.Reachable) (same : net'.gate? = design.net.gate?) :
    Rereads net symbols order names { design with net := net' } := by
  have shapes := Netlist.shape?_congr same
  have keeps : KeepsConstants design.net net' := fun _ found => shapes ▸ found
  have length : (writtenIds net order).length = ((portsOf net.sources).map GateId.text).length +
      (definitions net symbols order).length := by
    simp [writtenIds]
  refine ⟨reachable, named, assembled.inputs, ?_, ?_, assembled.outputs, ?_, ?_, ?_, assembled.trigger⟩
  · intro i lt
    rw [shapes]
    exact assembled.input i (by simpa using lt)
  · intro j g here
    obtain ⟨s, found, describes⟩ := assembled.filled j (definitionOf symbols g) (by simp [here])
    rw [List.length_map] at found
    obtain ⟨⟨id, _, known⟩, inner⟩ := mem_definedGates.mp (List.mem_of_getElem? here)
    exact ⟨s, shapes ▸ found,
      restores_of_describes h ordered named known inner (describes.mono keeps List.prefix_rfl)⟩
  · intro x mem
    obtain ⟨above, d, resolves, found⟩ := assembled.output x mem
    obtain ⟨id, port, eq⟩ : ∃ id ∈ portsOf net.targets, id.text = x.1 := by
      rw [← List.mem_map, ← assembled.outputs]
      exact List.mem_map_of_mem mem
    obtain ⟨g, known, _⟩ := (mem_portsOf_targets h.reachable.consistent).mp port
    rw [← eq] at resolves ⊢
    exact ⟨length ▸ above, d, names_of_resolves h ordered named (.inl ⟨g, known⟩) resolves, shapes ▸ found⟩
  · intro x s found above
    exact assembled.extra x s (shapes ▸ found) (length ▸ above)
  · rw [assembled.triggers, List.filter_map, List.map_map]
    exact congrArg _ (List.filter_congr fun g mem => isFlipFlop_definitionOf h mem)

end Assembled

section Rereads

variable {net : Netlist} {symbols : SymbolTable} {order : List GateId} {names : Names} {design : Design}
  (r : Rereads net symbols order names design)
include r

/-- A gate is named after its place. -/
theorem Rereads.place {id x : GateId} : names[id.text]? = some x ↔ (writtenIds net order)[x.index]? = some id := by
  rw [r.named, List.getElem?_map, Option.map_eq_some_iff]
  constructor
  · rintro ⟨id', here, same⟩
    rw [← text_injective same]
    exact here
  · intro here
    exact ⟨id, here, rfl⟩

theorem Rereads.place_lt {name : String} {x : GateId} (named : names[name]? = some x) :
    x.index < (writtenIds net order).length := by
  have := (List.getElem?_eq_some_iff.mp ((r.named name x).mp named)).1
  rwa [List.length_map] at this

/-- A port is an input at its place. -/
theorem Rereads.port {i : Nat} {id : GateId} (here : (portsOf net.sources)[i]? = some id) :
    names[id.text]? = some ⟨i⟩ ∧ design.net.shape? ⟨i⟩ = some ⟨.input, []⟩ := by
  have lt := (List.getElem?_eq_some_iff.mp here).1
  refine ⟨r.place.mpr ?_, r.input i lt⟩
  rw [writtenIds, List.getElem?_append_left lt]
  exact here

/-- Every gate that was written is restored under its name. -/
theorem Rereads.restored (h : net.Consistent) (ordered : net.view.orderedGates = .ok order) {id : GateId} {g : Gate}
    (found : net.gate? id = some g) (inner : g.isSource = false) : ∃ x s, names[id.text]? = some x ∧
      design.net.shape? x = some s ∧ Restores names design.net symbols design.symbols g.toShape s := by
  obtain ⟨j, here⟩ := List.mem_iff_getElem?.mp (defined_of_found h ordered found inner)
  obtain ⟨s, shape, restores⟩ := r.gate j g here
  refine ⟨_, s, r.place.mpr ?_, shape, restores⟩
  rw [writtenIds, List.getElem?_append_right (Nat.le_add_right ..), Nat.add_sub_cancel_left, List.getElem?_map, here]
  exact congrArg some (h.wired.keyed found)

/-- Every gate that was read is an input, restores a gate, or has been added. -/
theorem Rereads.cases {x : GateId} {s : Shape} (found : design.net.shape? x = some s) :
    (x.index < (portsOf net.sources).length ∧ s = ⟨.input, []⟩) ∨
    (∃ j g, x = ⟨(portsOf net.sources).length + j⟩ ∧ (definedGates net order)[j]? = some g ∧
      Restores names design.net symbols design.symbols g.toShape s) ∨
    (writtenIds net order).length ≤ x.index ∧
      (s.isConstant = true ∨ ∃ name d, (name, x) ∈ design.outputs ∧ names[name]? = some d ∧ s = .nary .output [d]) := by
  by_cases isInput : x.index < (portsOf net.sources).length
  · have := r.input x.index isInput
    rw [found] at this
    exact .inl ⟨isInput, Option.some.inj this⟩
  by_cases isGate : x.index < (writtenIds net order).length
  · obtain ⟨j, place⟩ := Nat.exists_eq_add_of_le (Nat.le_of_not_lt isInput)
    rw [writtenIds, List.length_append, List.length_map] at isGate
    have here : (definedGates net order)[j]? = some (definedGates net order)[j] := List.getElem?_eq_getElem (by omega)
    obtain ⟨t, there, restores⟩ := r.gate j _ here
    have eq : x = ⟨(portsOf net.sources).length + j⟩ := congrArg GateId.mk place
    rw [← eq, found] at there
    cases there
    exact .inr (.inl ⟨j, _, eq, here, restores⟩)
  · have above := Nat.le_of_not_lt isGate
    refine .inr (.inr ⟨above, ?_⟩)
    rcases r.extra x s found above with constant | ⟨name, mem⟩
    · exact .inl constant
    · obtain ⟨_, d, named, shape⟩ := r.output _ mem
      rw [found] at shape
      exact .inr ⟨name, d, mem, named, Option.some.inj shape⟩

end Rereads

section Loops

variable {net : Netlist} {symbols : SymbolTable} (h : Writable net symbols) {order : List GateId}
  (ordered : net.view.orderedGates = .ok order) {names : Names} {design : Design}
  (r : Rereads net symbols order names design)
include h ordered r

omit r in
/-- Of two gates that are defined, the one that feeds the other comes first. -/
theorem lt_of_feeds (acyclic : net.view.Acyclic) {i j : Nat} {d t : GateId}
    (first : ((definedGates net order).map Gate.id)[i]? = some d)
    (second : ((definedGates net order).map Gate.id)[j]? = some t) (feeds : Feeds net.gate? d t) : i < j := by
  have consistent := h.reachable.consistent
  obtain ⟨_, topological⟩ := consistent.coherent_view.orderedGates_spec ordered
  have pairwise : ((definedGates net order).map Gate.id).Pairwise fun a b => ¬Feeds net.gate? b a := by
    rw [ids_definedGates consistent]
    exact topological.filter _
  obtain ⟨ltI, rfl⟩ := List.getElem?_eq_some_iff.mp first
  obtain ⟨ltJ, rfl⟩ := List.getElem?_eq_some_iff.mp second
  rcases Nat.lt_trichotomy i j with before | rfl | after
  · exact before
  · obtain ⟨g, found, _⟩ := (mem_definedIds consistent ordered).mp (List.getElem_mem ltI)
    exact absurd feeds (acyclic.not_feeds_self (consistent.mem_view_gates.mpr ⟨g, found⟩))
  · exact absurd feeds (List.pairwise_iff_getElem.mp pairwise j i ltJ ltI after)

/-- A netlist without loops is read back without loops: what is logic reads gates at earlier places. -/
theorem Rereads.acyclic (acyclic : net.view.Acyclic) : design.net.view.Acyclic := by
  apply View.acyclic_of_forward
  intro x _ g' found plain y read
  rcases r.cases (Netlist.shape?_of_gate? found) with ⟨_, eq⟩ | ⟨j, g, rfl, here, restores⟩ |
    ⟨above, constant | ⟨name, d, _, named, eq⟩⟩
  · rw [eq] at read
    cases read
  · obtain ⟨⟨id, _, known⟩, inner⟩ := mem_definedGates.mp (List.mem_of_getElem? here)
    have logic : g'.fn ≠ .flipFlop := by
      intro flipFlop
      obtain ⟨_, clock, inputs, _⟩ := restores.clock flipFlop
      rw [Shape.isTrigger, inputs] at plain
      simp [Signal.isPlain] at plain
    have stateless : g.isTrigger = false := by
      by_contra triggered
      have flipFlop := h.plain known (by simpa using triggered)
      have same := restores.fn
      rw [flipFlop] at same
      exact logic same
    have data : g'.data = g'.inputs := if_neg logic
    obtain ⟨z, readZ, named, _⟩ := exists_of_forall₂ restores.data (data ▸ read)
    have place := r.place.mp named
    by_contra after
    simp only [Nat.not_lt] at after
    rw [writtenIds, List.getElem?_append_right (by omega)] at place
    have feeds : Feeds net.gate? z.driver g.id :=
      ⟨g, h.reachable.consistent.wired.keyed known ▸ known, stateless, z, Shape.mem_of_mem_data readZ, rfl⟩
    have := lt_of_feeds h ordered acyclic place (by rw [List.getElem?_map, here]; rfl) feeds
    omega
  · rcases Shape.eq_of_isConstant (hasArity_of_reachable r.reachable found) constant with eq | eq
    all_goals
      rw [eq] at read
      cases read
  · rw [eq] at read
    rw [List.mem_singleton.mp read]
    exact Nat.lt_of_lt_of_le (r.place_lt named) above

end Loops

/-! ## The whole text -/

/-- The names that a text gives to gates. -/
def namesOf (bytes : ByteArray) : Result Names := do
  let said ← statements bytes
  return (← declare (said.filterMap Statement.input?) (said.filterMap Statement.gate?)).1

section Text

variable {net : Netlist} {symbols : SymbolTable} (h : Writable net symbols) {order : List GateId}
  (ordered : net.view.orderedGates = .ok order)
include h ordered

omit h ordered in
theorem eq_of_mentions (h : net.Consistent) (few : net.names.length ≤ 1) {a b : GateId} (first : net.Mentions a)
    (second : net.Mentions b) : a = b := by
  have inside := h.mem_names.mpr first
  have inside' := h.mem_names.mpr second
  obtain ⟨c, single⟩ := List.length_eq_one_iff.mp (Nat.le_antisymm few (List.length_pos_of_mem inside))
  rw [single, List.mem_singleton] at inside inside'
  rw [inside, inside']

/-- A single gate that reads itself is all there is to write. -/
theorem room_of_loop (few : net.names.length ≤ 1) (loop : ¬net.view.Acyclic) :
    ((portsOf net.sources).map GateId.text).length + (definitions net symbols order).length +
      ((definitions net symbols order).filter Definition.isFlipFlop).length +
      ((portsOf net.targets).map GateId.text).length ≤ 1 := by
  have consistent := h.reachable.consistent
  have all := (writtenIds_perm consistent ordered).length_eq
  rw [writtenIds, List.length_append, List.length_map] at all
  obtain ⟨t, path⟩ := not_forall_not.mp loop
  obtain ⟨b, ⟨_, _, g, found, plain, x, read, rfl⟩, _⟩ := Relation.TransGen.head'_iff.mp path
  have found : net.gate? b = some g := found
  -- There is one number only, so the gate that is fed is the one that feeds it.
  have flipFlops : (definitions net symbols order).filter Definition.isFlipFlop = [] := by
    apply List.filter_eq_nil_iff.mpr
    intro d mem isFlipFlop
    obtain ⟨g', defined, rfl⟩ := List.mem_map.mp mem
    obtain ⟨⟨id, _, known⟩, inner⟩ := mem_definedGates.mp defined
    rw [isFlipFlop_definitionOf h defined, beq_iff_eq] at isFlipFlop
    rw [eq_of_mentions consistent few (.inl ⟨g', known⟩) (.inl ⟨g, found⟩), found] at known
    cases known
    have synchronous := h.expressible found inner
    rw [isExpressible, isFlipFlop] at synchronous
    obtain ⟨_, _, _, _, inputs, _⟩ := isSynchronous_iff.mp synchronous
    rw [Shape.isTrigger, inputs] at plain
    simp [Signal.isPlain] at plain
  have outputs : portsOf net.targets = [] := by
    apply List.eq_nil_iff_forall_not_mem.mpr
    intro id port
    obtain ⟨g', known, output⟩ := (mem_portsOf_targets consistent).mp port
    have driver : net.gate? x.driver = some g' := by
      rw [eq_of_mentions consistent few (.inr ⟨b, g, x, found, read, rfl⟩) (.inl ⟨g', known⟩)]
      exact known
    rw [consistent.wired.not_isOutput_of_read found read driver] at output
    cases output
  rw [flipFlops, outputs, List.length_map, List.length_map]
  simp only [List.length_nil, List.map_nil]
  omega

/-- A NETLIST THAT CAN BE WRITTEN IS READ BACK, as long as it leaves half of the numbers. It has no loops, or is a
single gate. -/
theorem exists_reread (room : 2 * net.names.length ≤ GateId.largest)
    (loopless : net.view.Acyclic ∨ net.names.length ≤ 1) :
    ∃ text names design, write net symbols = .ok text ∧ read text.toUTF8 = .ok design ∧
      namesOf text.toUTF8 = .ok names ∧ Rereads net symbols order names design := by
  obtain ⟨text, said, written, spoken, inputs, outputs, gates⟩ := statements_written h ordered
  have enough := room_written h ordered
  obtain ⟨names, design, wired, next⟩ := exists_wire (wellFormed_written h ordered) (by omega)
  obtain ⟨named, assembled⟩ := assembled_of_wire wired
  rw [declared_eq] at named
  obtain ⟨net', sorted, same⟩ : ∃ net', design.net.sort = .ok net' ∧ net'.gate? = design.net.gate? := by
    by_cases acyclic : net.view.Acyclic
    · have r := assembled.rereads h ordered named assembled.reachable rfl
      obtain ⟨net', sorted, same, _⟩ := Netlist.exists_sort_of_flat assembled.reachable.consistent assembled.flat
        (r.acyclic h ordered acyclic)
      exact ⟨net', sorted, same⟩
    · have one := room_of_loop h ordered (loopless.resolve_left acyclic) acyclic
      have few := assembled.reachable.consistent.size_le_next
      exact ⟨_, Netlist.sort_of_few assembled.flat (by omega), rfl⟩
  refine ⟨text, names, { design with net := net' }, written, ?_, ?_,
    assembled.rereads h ordered named (.sort assembled.reachable sorted) same⟩
  · rw [read, spoken, Result.ok_bind, assemble_eq, inputs, outputs, gates, wired, Result.ok_bind]
    exact Result.bind_eq_ok.mpr ⟨net', sorted, rfl⟩
  · obtain ⟨start, declared⟩ := declare_of_wire wired
    rw [namesOf, spoken, Result.ok_bind, inputs, gates, declared]
    rfl

end Text

end Bench

end LogicNet
