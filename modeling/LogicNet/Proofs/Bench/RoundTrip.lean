import LogicNet.Proofs.Bench.Rereading

/-!
# Reading, writing and reading again

A netlist that was read holds nothing but what the format has words for (`IsRead`): plain functions, named cells, and
flip-flops that a constant one clocks. It has no drivers outside, and no loops unless it is a single gate. So it can be
written, and what is written is read back.

**The law** (`read_write_read`): reading, writing and reading again gives every gate back under the text of its number.
-/

namespace LogicNet

open Std

namespace Bench

/-! ## What can be read -/

/-- A shape that is made by reading: a function of plain signals, or a flip-flop. -/
inductive IsRead (net : Netlist) (symbols : SymbolTable) : Shape → Prop
  | nary {fn : GateFn} (drivers : List GateId) (stateless : fn.isTriggered = false)
      (cell : ∀ n, fn = .custom n → (symbols.names[n]?).isSome = true) : IsRead net symbols (.nary fn drivers)
  | flipFlop {clock : GateId} (driver : GateId) (isOne : net.shape? clock = some ⟨.one, []⟩) :
      IsRead net symbols ⟨.flipFlop, [.plain driver, ⟨.rising, clock⟩]⟩

section IsRead

variable {net : Netlist} {symbols : SymbolTable}

/-- There are words for everything that can be read. -/
theorem isExpressible_of_isRead {g : Gate} (h : IsRead net symbols g.toShape) : isExpressible net symbols g = true := by
  obtain ⟨⟨fn, inputs⟩, id, fanout⟩ := g
  cases h with
  | nary drivers stateless cell =>
    cases fn with
    | latch | flipFlop | flipFlopRS => cases stateless
    | custom n => exact cell n rfl
    | _ => rfl
  | flipFlop driver isOne =>
    obtain ⟨c, found, shape⟩ := Netlist.shape?_eq_some.mp isOne
    simp only [isExpressible]
    rw [isSynchronous_iff]
    exact ⟨_, _, _, c, rfl, found, congrArg Shape.fn shape⟩

theorem fn_of_isTrigger {s : Shape} (h : IsRead net symbols s) (triggered : s.isTrigger = true) : s.fn = .flipFlop := by
  cases h with
  | nary drivers =>
    obtain ⟨x, mem, sampled⟩ := List.any_eq_true.mp triggered
    obtain ⟨d, _, rfl⟩ := List.mem_map.mp mem
    cases sampled
  | flipFlop => rfl

theorem exists_clock {s : Shape} (h : IsRead net symbols s) (flipFlop : s.fn = .flipFlop) :
    ∃ clock, ⟨.rising, clock⟩ ∈ s.inputs ∧ net.shape? clock = some ⟨.one, []⟩ := by
  cases h with
  | @nary fn drivers stateless =>
    have memory : fn = .flipFlop := flipFlop
    rw [memory] at stateless
    cases stateless
  | @flipFlop clock driver isOne => exact ⟨clock, by simp, isOne⟩

theorem isTrigger_of_flipFlop {s : Shape} (h : IsRead net symbols s) (flipFlop : s.fn = .flipFlop) :
    s.isTrigger = true := by
  obtain ⟨clock, read, _⟩ := exists_clock h flipFlop
  exact List.any_eq_true.mpr ⟨_, read, rfl⟩

theorem IsRead.of_shapes {net' : Netlist} {s : Shape} (h : IsRead net symbols s) (same : net'.shape? = net.shape?) :
    IsRead net' symbols s := by
  cases h with
  | nary drivers stateless cell => exact .nary drivers stateless cell
  | flipFlop driver isOne => exact .flipFlop driver (same ▸ isOne)

/-- A definition describes a shape that can be read. -/
theorem isRead_of_describes {names : Names} {d : Definition} {s : Shape} (h : Describes names net symbols d s) :
    IsRead net symbols s := by
  obtain ⟨drivers, _, ⟨_, driver, clock, _, isOne, rfl⟩ | ⟨fn, named, plain, _, rfl⟩ | ⟨_, n, known, rfl⟩⟩ := h.cases
  · exact .flipFlop driver isOne
  · have named := Definition.fn?_mem named
    have closed : ∀ fn ∈ namedFns, fn ≠ .flipFlop → fn.isTriggered = false := by decide
    apply IsRead.nary drivers (closed fn named plain)
    rintro n rfl
    simp [namedFns] at named
  · apply IsRead.nary drivers rfl
    rintro _ ⟨⟩
    rw [known]
    rfl

end IsRead

section Reading

variable {ins outs : List String} {defs : List Definition} {names : Names} {design : Design}
  (named : names.Numbers (ins ++ defs.map Definition.name))
  (assembled : Assembled ins defs names defs outs design)
include named assembled

/-- A name stands for a gate. -/
theorem Assembled.known_of_resolves {name : String} {g : GateId} (resolves : Resolves names design.net name g) :
    ∃ s, design.net.shape? g = some s := by
  rcases resolves with own | ⟨_, ⟨_, found⟩ | ⟨_, found⟩⟩
  · obtain ⟨s, found, _⟩ := assembled.known named own
    exact ⟨s, found⟩
  · exact ⟨_, found⟩
  · exact ⟨_, found⟩

/-- All that is read are shapes the format has words for, and all drivers are gates. -/
theorem Assembled.isRead {x : GateId} {s : Shape} (found : design.net.shape? x = some s) :
    IsRead design.net design.symbols s ∧ ∀ y ∈ s.inputs, ∃ t, design.net.shape? y.driver = some t := by
  rcases assembled.place_cases found with ⟨_, rfl⟩ | ⟨j, d, _, _, describes⟩ | constant | ⟨name, mem⟩
  · exact ⟨.nary [] rfl nofun, nofun⟩
  · refine ⟨isRead_of_describes describes, ?_⟩
    intro y read
    obtain ⟨_, drivers, resolve, spells⟩ := describes
    rcases spells.driver read with operand | clock
    · obtain ⟨name, _, resolves⟩ := exists_of_forall₂ resolve operand
      exact assembled.known_of_resolves named resolves
    · exact ⟨_, clock⟩
  · obtain ⟨g, here, rfl⟩ := Netlist.shape?_eq_some.mp found
    rcases Shape.eq_of_isConstant (hasArity_of_reachable assembled.reachable here) constant with eq | eq
    all_goals
      rw [eq]
      exact ⟨.nary [] rfl nofun, nofun⟩
  · obtain ⟨_, d, resolves, here⟩ := assembled.output _ mem
    rw [found] at here
    cases here
    refine ⟨.nary [d] rfl nofun, ?_⟩
    intro y read
    rw [List.mem_singleton.mp read]
    exact assembled.known_of_resolves named resolves

end Reading

/-- What reading says about a netlist. -/
structure WasRead (net : Netlist) (symbols : SymbolTable) : Prop where
  reachable : net.Reachable
  shapes : ∀ {id : GateId} {g : Gate}, net.gate? id = some g → IsRead net symbols g.toShape
  closed : ∀ {id : GateId}, net.Mentions id → ∃ g, net.gate? id = some g
  loopless : net.top.size ≤ 1 ∨ net.view.Acyclic
  cells : IsCellTable symbols

theorem wasRead_of_read {bytes : ByteArray} {b : Design} (h : read bytes = .ok b) : WasRead b.net b.symbols := by
  obtain ⟨said, spoken, made⟩ := Result.bind_eq_ok.mp h
  rw [assemble_eq] at made
  obtain ⟨⟨names, design⟩, wired, made⟩ := Result.bind_eq_ok.mp made
  obtain ⟨net, sorted, made⟩ := Result.bind_eq_ok.mp made
  cases made
  obtain ⟨named, assembled⟩ := assembled_of_wire wired
  obtain ⟨same, _, _, loopless⟩ := Netlist.sort_spec assembled.reachable.consistent assembled.disturbed sorted
  have shapes := Netlist.shape?_congr same
  have isRead : ∀ {id : GateId} {g : Gate}, net.gate? id = some g → _ := fun found =>
    assembled.isRead named (shapes ▸ Netlist.shape?_of_gate? found)
  refine ⟨.sort assembled.reachable sorted, fun found => (isRead found).1.of_shapes shapes, ?_, loopless, ?_,
    assembled.symbols.room⟩
  · rintro id (known | ⟨t, g, x, found, read, rfl⟩)
    · exact known
    · obtain ⟨s, driver⟩ := (isRead found).2 x read
      rw [← shapes] at driver
      obtain ⟨g', known, _⟩ := Netlist.shape?_eq_some.mp driver
      exact ⟨g', known⟩
  · intro kind mem
    obtain ⟨d, cell, rfl⟩ := List.mem_map.mp (assembled.symbols.within kind mem)
    obtain ⟨defined, unnamed⟩ := List.mem_filter.mp cell
    obtain ⟨statement, inside, gate⟩ := List.mem_filterMap.mp defined
    have isGate : statement = .gate d := by
      cases statement <;> cases gate
      rfl
    subst isGate
    obtain ⟨line, singleLine, read⟩ := line_of_statement spoken inside
    refine ⟨(isWritten_of_ofLine singleLine read).kind, ?_⟩
    intro e same
    rw [fn?_congr same]
    exact Option.isNone_iff_eq_none.mp unnamed

/-! ## In the order of numbers -/

/-- The gates whose shapes pass a test, in the order of their numbers. -/
def idsWhere (net : Netlist) (p : Shape → Bool) : List GateId :=
  (net.table.toList.filter fun entry => p entry.2.toShape).map Prod.fst

theorem mem_idsWhere {net : Netlist} {p : Shape → Bool} {id : GateId} :
    id ∈ idsWhere net p ↔ ∃ g, net.gate? id = some g ∧ p g.toShape = true := by
  unfold idsWhere Netlist.gate?
  simp only [List.mem_map, List.mem_filter, Prod.exists, exists_and_right, exists_eq_right,
    TreeMap.mem_toList_iff_getElem?_eq_some]

theorem index_lt_of_compare {a b : GateId} (lt : compare a b = .lt) : a.index < b.index := Nat.compare_eq_lt.mp lt

theorem ordered_idsWhere (net : Netlist) (p : Shape → Bool) :
    (idsWhere net p).Pairwise fun a b => a.index < b.index := by
  apply List.pairwise_map.mpr
  exact (TreeMap.ordered_keys_toList.imp index_lt_of_compare).filter _

theorem ordered_portsOf (links : LinkSet) : (portsOf links).Pairwise fun a b => a.index < b.index :=
  TreeSet.ordered_toList.imp index_lt_of_compare

theorem nodup_of_ordered {xs : List GateId} (h : xs.Pairwise fun a b => a.index < b.index) : xs.Nodup := by
  apply h.imp
  rintro a b lt rfl
  exact Nat.lt_irrefl _ lt

/-- Lists in order are the same if they have the same members. -/
theorem eq_of_ordered {xs ys : List GateId} (h : xs.Pairwise fun a b => a.index < b.index)
    (h' : ys.Pairwise fun a b => a.index < b.index) (same : ∀ id, id ∈ xs ↔ id ∈ ys) : xs = ys := by
  have perm := (List.perm_ext_iff_of_nodup (nodup_of_ordered h) (nodup_of_ordered h')).mpr same
  apply perm.eq_of_pairwise ?_ h h'
  intro a b _ _ lt gt
  omega

/-! ## The law -/

section Law

variable {net : Netlist} {symbols : SymbolTable} (h : WasRead net symbols)
include h

/-- What was read can be written. -/
theorem WasRead.writable : Writable net symbols where
  reachable := h.reachable
  expressible found _ := isExpressible_of_isRead (h.shapes found)
  plain found triggered := fn_of_isTrigger (h.shapes found) triggered
  cells _ _ := h.cells

/-- There is nothing outside. -/
theorem WasRead.names_eq : net.names = net.gates := by
  have none : net.externalDrivers = [] := by
    apply List.eq_nil_iff_forall_not_mem.mpr
    intro id outside
    obtain ⟨mentioned, unknown⟩ := h.reachable.consistent.mem_externalDrivers.mp outside
    obtain ⟨g, known⟩ := h.closed mentioned
    rw [unknown] at known
    cases known
  rw [Netlist.names, none]
  exact List.append_nil _

theorem WasRead.exists_order : ∃ order, net.view.orderedGates = .ok order := by
  rcases h.loopless with few | acyclic
  · have sorted : net.view.part.isSorted = true := Bool.or_eq_true_iff.mpr (.inr (decide_eq_true few))
    exact ⟨_, if_pos sorted⟩
  · exact h.reachable.consistent.coherent_view.exists_orderedGates acyclic

theorem WasRead.portsOf_sources : portsOf net.sources = idsWhere net Shape.isSource := by
  apply eq_of_ordered (ordered_portsOf _) (ordered_idsWhere net _)
  intro id
  rw [mem_portsOf_sources h.reachable.consistent, mem_idsWhere]
  constructor
  · rintro (source | ⟨mentioned, unknown⟩)
    · exact source
    · obtain ⟨g, known⟩ := h.closed mentioned
      rw [unknown] at known
      cases known
  · exact .inl

theorem WasRead.portsOf_targets : portsOf net.targets = idsWhere net Shape.isOutput := by
  apply eq_of_ordered (ordered_portsOf _) (ordered_idsWhere net _)
  intro id
  rw [mem_portsOf_targets h.reachable.consistent, mem_idsWhere]

/-- The flip-flops are among the gates that are written. -/
theorem WasRead.flipFlops_perm {order : List GateId} (ordered : net.view.orderedGates = .ok order) :
    (((definedGates net order).filter fun g => g.fn == .flipFlop).map Gate.id).Perm
      (idsWhere net fun s => s.fn == .flipFlop) := by
  have consistent := h.reachable.consistent
  apply (List.perm_ext_iff_of_nodup ?_ (nodup_of_ordered (ordered_idsWhere net _))).mpr
  · intro id
    rw [mem_idsWhere, List.mem_map]
    constructor
    · rintro ⟨g, mem, rfl⟩
      obtain ⟨defined, flipFlop⟩ := List.mem_filter.mp mem
      obtain ⟨⟨id, _, found⟩, _⟩ := mem_definedGates.mp defined
      exact ⟨g, consistent.wired.keyed found ▸ found, flipFlop⟩
    · rintro ⟨g, found, flipFlop⟩
      have inner : g.isSource = false := by
        have arity := hasArity_of_reachable h.reachable found
        rw [Shape.hasArity, eq_of_beq flipFlop] at arity
        rw [Shape.isSource, List.isEmpty_eq_false_iff.mpr (List.ne_nil_of_length_eq_add_one (eq_of_beq arity))]
        rfl
      exact ⟨g, List.mem_filter.mpr ⟨defined_of_found consistent ordered found inner, flipFlop⟩,
        consistent.wired.keyed found⟩
  · exact (List.filter_sublist.map _).nodup (nodup_definedIds consistent ordered)

end Law

/-- The second design has all gates of the first, under the texts of their numbers. -/
structure Preserves (b : Design) (names : Names) (b' : Design) : Prop where
  inputs : b'.inputs.map Prod.fst = (idsWhere b.net Shape.isSource).map GateId.text
  outputs : b'.outputs.map Prod.fst = (idsWhere b.net Shape.isOutput).map GateId.text
  triggers : (b'.triggers.map Prod.fst).Perm ((idsWhere b.net fun s => s.fn == .flipFlop).map GateId.text)
  /-- A gate has one name. -/
  distinct : ∀ {m n : String} {x : GateId}, names[m]? = some x → names[n]? = some x → m = n
  input : ∀ x ∈ b'.inputs, names[x.1]? = some x.2 ∧ b'.net.shape? x.2 = some ⟨.input, []⟩
  trigger : ∀ x ∈ b'.triggers, names[x.1]? = some x.2
  output : ∀ x ∈ b'.outputs, ∃ d, names[x.1]? = some d ∧ b'.net.shape? x.2 = some (.nary .output [d])
  gate : ∀ {id : GateId} {g : Gate}, b.net.gate? id = some g → g.isSource = false → ∃ x s,
    names[id.text]? = some x ∧ b'.net.shape? x = some s ∧ Restores names b'.net b.symbols b'.symbols g.toShape s

theorem WasRead.preserves {b : Design} (h : WasRead b.net b.symbols) {order : List GateId}
    (ordered : b.net.view.orderedGates = .ok order) {names : Names} {b' : Design}
    (r : Rereads b.net b.symbols order names b') : Preserves b names b' where
  inputs := by
    rw [r.inputs, ← h.portsOf_sources, fst_places]
  outputs := by rw [r.outputs, h.portsOf_targets]
  triggers := by
    have texts := (h.flipFlops_perm ordered).map GateId.text
    rw [List.map_map] at texts
    rw [r.triggers]
    exact texts
  distinct first second := by
    rw [r.named] at first second
    exact Option.some.inj (first.symm.trans second)
  input := by
    intro x mem
    rw [r.inputs, mem_places, List.getElem?_map] at mem
    obtain ⟨id, here, eq⟩ := Option.map_eq_some_iff.mp mem
    rw [← eq]
    exact r.port here
  trigger := r.trigger
  output x mem := (r.output x mem).2
  gate found inner := r.restored h.reachable.consistent ordered found inner

/-- READING, WRITING AND READING AGAIN PRESERVES A NETLIST. What was read can always be written. It is read back
as long as it has no more than half of all numbers, and then nothing is lost but its names. -/
theorem read_write_read {bytes : ByteArray} {b : Design} (h : read bytes = .ok b) :
    ∃ text, write b.net b.symbols = .ok text ∧ (2 * b.net.size ≤ GateId.largest →
      ∃ names b', read text.toUTF8 = .ok b' ∧ namesOf text.toUTF8 = .ok names ∧ Preserves b names b') := by
  have wasRead := wasRead_of_read h
  obtain ⟨order, ordered⟩ := wasRead.exists_order
  obtain ⟨text, _, written, _⟩ := statements_written wasRead.writable ordered
  refine ⟨text, written, fun room => ?_⟩
  have size : b.net.names.length = b.net.size := by
    rw [wasRead.names_eq]
    exact wasRead.reachable.consistent.size_gates
  obtain ⟨text', names, b', written', reread, named, r⟩ := exists_reread wasRead.writable ordered (by omega)
    (wasRead.loopless.symm.imp_right fun few => by rwa [wasRead.names_eq])
  rw [written] at written'
  cases written'
  exact ⟨names, b', reread, named, wasRead.preserves ordered r⟩

/-- A definition that is used before it is written, a flip-flop, a cell, a constant, and a cell that is a source. -/
def toggleText : String :=
  "INPUT(a)\nOUTPUT(y)\nq = DFF(d)\nd = NAND(a, z, pad)\nz = foo(q, vdd)\ny = BUF(d)\npad = foo\n"

theorem toggleText_preserved : ∃ b, read toggleText.toUTF8 = .ok b ∧ 2 * b.net.size ≤ GateId.largest ∧
    ∃ text, write b.net b.symbols = .ok text ∧
      ∃ names b', read text.toUTF8 = .ok b' ∧ namesOf text.toUTF8 = .ok names ∧ Preserves b names b' := by
  have small : ((read toggleText.toUTF8).toOption.any fun b => 2 * b.net.size ≤ GateId.largest) = true := by
    decide +kernel
  obtain ⟨b, ok, room⟩ := Result.exists_ok_of_any small
  have room := of_decide_eq_true room
  obtain ⟨text, written, again⟩ := read_write_read ok
  exact ⟨b, ok, room, text, written, again room⟩

end Bench

end LogicNet
