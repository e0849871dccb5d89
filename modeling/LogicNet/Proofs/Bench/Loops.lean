import LogicNet.Proofs.Bench.Ports
import LogicNet.Proofs.Netlist.Flow

/-!
# Loops of a text

A definition may use names that are defined after it, so a text can say that a name depends on itself. A flip-flop
holds its value for a step, and a loop through one is no loop.

**The law** (`looped_of_not_acyclic`, `hasCombLoop_of_looped`): the gates that a text makes have a loop exactly if its
definitions have one. Outputs drive nothing, and inputs and constants read nothing, so every gate of a loop is a
definition, and what it reads are its operands.

Sorting finds a loop wherever there is more than one gate. So the one loop that is ever read is a single gate that
reads nothing but itself (`selfFed_of_few`).
-/

namespace LogicNet

open Std

namespace Netlist

/-- A gate that is no flip-flop. -/
def IsComb (net : Netlist) (id : GateId) : Prop := ∃ g, net.gate? id = some g ∧ g.fn ≠ .flipFlop

/-- Some gates drive each other in a circle, and none of them is a flip-flop. -/
def HasCombLoop (net : Netlist) : Prop :=
  ∃ id, Relation.TransGen (fun a b => net.IsComb a ∧ net.IsComb b ∧ Drives net.gate? a b) id id

theorem hasCombLoop_congr {net net' : Netlist} (same : net'.gate? = net.gate?) :
    net'.HasCombLoop ↔ net.HasCombLoop := by
  unfold HasCombLoop IsComb
  rw [same]

/-- Gates of a netlist that has one are the same. -/
theorem Consistent.eq_of_few {net : Netlist} (h : net.Consistent) (few : net.top.size ≤ 1) {a b : GateId} {s t : Shape}
    (here : net.shape? a = some s) (there : net.shape? b = some t) : a = b := by
  have memA : a ∈ net.top.gates := h.mem_gates_iff_shape?.mpr ⟨s, here⟩
  have memB : b ∈ net.top.gates := h.mem_gates_iff_shape?.mpr ⟨t, there⟩
  obtain ⟨c, only⟩ := List.length_eq_one_iff.mp (Nat.le_antisymm few (List.length_pos_of_mem memA))
  rw [only, List.mem_singleton] at memA memB
  rw [memA, memB]

end Netlist

/-- Where all nodes between two edges have a property, a loop keeps to nodes that have it. -/
theorem loop_within {α : Type} {r : α → α → Prop} {p : α → Prop} (between : ∀ a b c, r a b → r b c → p b) {t : α}
    (loop : Relation.TransGen r t t) : Relation.TransGen (fun a b => p a ∧ p b ∧ r a b) t t := by
  have general : ∀ {a b c}, p a → Relation.TransGen r a b → r b c →
      Relation.TransGen (fun a b => p a ∧ p b ∧ r a b) a b ∧ p b := by
    intro a b c start path next
    induction path generalizing c with
    | single edge =>
      have here := between _ _ _ edge next
      exact ⟨.single ⟨start, here, edge⟩, here⟩
    | tail _ edge ih =>
      obtain ⟨before, there⟩ := ih edge
      have here := between _ _ _ edge next
      exact ⟨before.tail ⟨there, here, edge⟩, here⟩
  obtain ⟨x, first, _⟩ := Relation.TransGen.head'_iff.mp loop
  obtain ⟨y, _, last⟩ := Relation.TransGen.tail'_iff.mp loop
  exact (general (between _ _ _ last first) loop first).1

namespace Bench

/-- The definition of the second name uses the first, and does not store it. -/
def ReadBy (defs : List Definition) (a b : String) : Prop :=
  ∃ d ∈ defs, d.name = b ∧ d.isFlipFlop = false ∧ a ∈ d.operands

/-- Some definition depends on itself, directly or through others. -/
def Looped (defs : List Definition) : Prop := ∃ name, Relation.TransGen (ReadBy defs) name name

/-- There is one gate and nothing else, and all it reads is itself. -/
def SelfFed (ins outs : List String) (defs : List Definition) : Prop :=
  ins = [] ∧ outs = [] ∧ ∃ d, defs = [d] ∧ d.isFlipFlop = false ∧ d.operands ≠ [] ∧ ∀ name ∈ d.operands, name = d.name

theorem SelfFed.looped {ins outs : List String} {defs : List Definition} (h : SelfFed ins outs defs) :
    Looped defs := by
  obtain ⟨_, _, d, rfl, plain, nonempty, self⟩ := h
  obtain ⟨name, mem⟩ := List.exists_mem_of_ne_nil _ nonempty
  have reads : d.name ∈ d.operands := self name mem ▸ mem
  exact ⟨d.name, .single ⟨d, List.mem_singleton_self d, rfl, plain, reads⟩⟩

/-- What is described reads its operands and nothing else, unless it is a flip-flop. -/
theorem Describes.inputs {names : Names} {net : Netlist} {symbols : SymbolTable} {d : Definition} {s : Shape}
    (h : Describes names net symbols d s) (plain : d.isFlipFlop = false) :
    ∃ drivers, List.Forall₂ (Resolves names net) d.operands drivers ∧ s.inputs = drivers.map Signal.plain := by
  obtain ⟨drivers, resolve, ⟨flipFlop, _⟩ | ⟨fn, _, _, _, rfl⟩ | ⟨_, n, _, rfl⟩⟩ := h.cases
  · rw [Definition.isFlipFlop, flipFlop] at plain
    cases plain
  · exact ⟨drivers, resolve, rfl⟩
  · exact ⟨drivers, resolve, rfl⟩

section Assembled

variable {ins outs : List String} {defs : List Definition} {names : Names} {design : Design}
  (named : names.Numbers (ins ++ defs.map Definition.name))
  (assembled : Assembled ins defs names defs outs design)
include named assembled

/-! ## From the text to the gates -/

omit named in
theorem Assembled.isComb {j : Nat} {d : Definition} (at? : defs[j]? = some d) (plain : d.isFlipFlop = false) :
    design.net.IsComb ⟨ins.length + j⟩ := by
  obtain ⟨s, here, describes⟩ := assembled.filled j d at?
  obtain ⟨g, found, rfl⟩ := Netlist.shape?_eq_some.mp here
  refine ⟨g, found, ?_⟩
  intro flipFlop
  rw [describes.fn.1.mp flipFlop] at plain
  cases plain

omit named in
/-- A declared operand drives the gate of its definition. -/
theorem Assembled.drives {j : Nat} {d : Definition} (at? : defs[j]? = some d) (plain : d.isFlipFlop = false)
    {name : String} (operand : name ∈ d.operands) {g : GateId} (own : names[name]? = some g) :
    Drives design.net.gate? g ⟨ins.length + j⟩ := by
  obtain ⟨s, here, describes⟩ := assembled.filled j d at?
  obtain ⟨drivers, resolve, inputs⟩ := describes.inputs plain
  obtain ⟨x, found, rfl⟩ := Netlist.shape?_eq_some.mp here
  obtain ⟨y, mem, resolves⟩ := exists_of_forall₂ resolve.flip operand
  have same : y = g := by
    rcases resolves with found | ⟨undeclared, _⟩
    · exact Option.some.inj (found.symm.trans own)
    · rw [own] at undeclared
      cases undeclared
  refine ⟨x, found, Signal.plain y, ?_, same⟩
  rw [inputs]
  exact List.mem_map_of_mem mem

/-- Definitions that depend on each other in a circle make gates that do. -/
theorem Assembled.hasCombLoop_of_looped (looped : Looped defs) : design.net.HasCombLoop := by
  obtain ⟨name, loop⟩ := looped
  -- The names of a loop are those of definitions, so each has a gate.
  have defined : ∀ a b c, ReadBy defs a b → ReadBy defs b c →
      ∃ (j : Nat) (d : Definition), defs[j]? = some d ∧ d.isFlipFlop = false ∧ d.name = b := by
    intro a b c read _
    obtain ⟨d, mem, isName, plain, _⟩ := read
    obtain ⟨j, at?⟩ := List.mem_iff_getElem?.mp mem
    exact ⟨j, d, at?, plain, isName⟩
  refine ⟨_, Relation.TransGen.lift (fun name : String => names[name]?.getD ⟨0⟩) ?_ _ _ (loop_within defined loop)⟩
  rintro _ _ ⟨⟨i, c, atC?, plainC, rfl⟩, _, d, mem, rfl, plain, operand⟩
  obtain ⟨j, at?⟩ := List.mem_iff_getElem?.mp mem
  have place : ∀ {k : Nat} {e : Definition}, defs[k]? = some e → names[e.name]?.getD ⟨0⟩ = ⟨ins.length + k⟩ := by
    intro k e here
    rw [names_of_definition named here]
    rfl
  have edge := And.intro (assembled.isComb atC? plainC) (And.intro (assembled.isComb at? plain)
    (assembled.drives at? plain operand (names_of_definition named atC?)))
  rw [← place atC?, ← place at?] at edge
  exact edge

/-! ## From the gates to the text -/

/-- A loop of gates that are no flip-flops is one of gates that are not triggered. -/
theorem Assembled.not_acyclic_of_hasCombLoop (loop : design.net.HasCombLoop) : ¬design.net.view.Acyclic := by
  have consistent := assembled.reachable.consistent
  obtain ⟨id, loop⟩ := loop
  intro acyclic
  apply acyclic id
  refine Relation.TransGen.mono ?_ _ _ loop
  rintro a b ⟨⟨g, found, _⟩, ⟨h, found', comb⟩, h', reader, reads⟩
  obtain rfl : h' = h := Option.some.inj (reader.symm.trans found')
  refine ⟨consistent.mem_view_gates.mpr ⟨g, found⟩, consistent.mem_view_gates.mpr ⟨h', found'⟩, h', found', ?_, reads⟩
  rw [Bool.eq_false_iff]
  intro trigger
  exact comb (fn_of_isTrigger (assembled.isRead named (Netlist.shape?_of_gate? found')).1 trigger)

omit named in
/-- A gate that reads and is read is a definition. -/
theorem Assembled.definition_of_feeds {a b c : GateId} (reads : Feeds design.net.gate? a b)
    (isRead : Feeds design.net.gate? b c) : ∃ j d s, b = ⟨ins.length + j⟩ ∧ defs[j]? = some d ∧
      design.net.shape? b = some s ∧ s.inputs ≠ [] ∧ Describes names design.net design.symbols d s ∧
      d.isFlipFlop = false := by
  obtain ⟨s, here, plain, x, mem, _⟩ := Netlist.feeds_iff_shape?.mp reads
  have nonempty : s.inputs ≠ [] := List.ne_nil_of_mem mem
  rcases assembled.place_cases here with ⟨_, rfl⟩ | ⟨j, d, place, at?, describes⟩ | constant | ⟨name, output⟩
  · exact absurd rfl nonempty
  · refine ⟨j, d, s, place, at?, here, nonempty, describes, ?_⟩
    rw [Bool.eq_false_iff]
    intro flipFlop
    rw [isTrigger_of_flipFlop (isRead_of_describes describes) (describes.fn.1.mpr flipFlop)] at plain
    cases plain
  · obtain ⟨g, found, rfl⟩ := Netlist.shape?_eq_some.mp here
    rcases Shape.eq_of_isConstant (hasArity_of_reachable assembled.reachable found) constant with eq | eq
    all_goals
      rw [eq] at nonempty
      exact absurd rfl nonempty
  · obtain ⟨_, d, _, there⟩ := assembled.output _ output
    obtain ⟨g, found, shape⟩ := Netlist.shape?_eq_some.mp there
    obtain ⟨reader, readerFound, _, y, read, driver⟩ := isRead
    have drives := assembled.reachable.consistent.wired.not_isOutput_of_read readerFound read (driver ▸ found)
    rw [show g.isOutput = true by rw [shape]; rfl] at drives
    cases drives

/-- Gates that feed each other in a circle are those of definitions that do. -/
theorem Assembled.looped_of_not_acyclic (cyclic : ¬design.net.view.Acyclic) : Looped defs := by
  unfold View.Acyclic at cyclic
  rw [not_forall] at cyclic
  obtain ⟨id, loop⟩ := cyclic
  have inner := loop_within (fun _ _ _ first second => assembled.definition_of_feeds first.2.2 second.2.2)
    (not_not.mp loop)
  refine ⟨_, Relation.TransGen.lift (fun g : GateId => (ins ++ defs.map Definition.name)[g.index]?.getD "") ?_ _ _ inner⟩
  rintro a _ ⟨⟨_, _, t, _, _, thereA, nonempty, _⟩, ⟨j, d, s, rfl, at?, here, _, describes, plain⟩, _, _, feeds⟩
  obtain ⟨s', here', _, x, read, rfl⟩ := Netlist.feeds_iff_shape?.mp feeds
  obtain rfl : s = s' := Option.some.inj (here.symm.trans here')
  obtain ⟨drivers, resolve, inputs⟩ := describes.inputs plain
  rw [inputs] at read
  obtain ⟨y, mem, rfl⟩ := List.mem_map.mp read
  obtain ⟨name, operand, resolves⟩ := exists_of_forall₂ resolve mem
  have own : names[name]? = some y := by
    rcases resolves with own | ⟨_, ⟨_, constant⟩ | ⟨_, constant⟩⟩
    · exact own
    all_goals
      rw [show design.net.shape? y = some t from thereA] at constant
      cases constant
      exact absurd rfl nonempty
  show ReadBy defs ((ins ++ defs.map Definition.name)[y.index]?.getD "")
    ((ins ++ defs.map Definition.name)[ins.length + j]?.getD "")
  rw [(named name y).mp own, (named d.name ⟨ins.length + j⟩).mp (names_of_definition named at?)]
  exact ⟨d, List.mem_of_getElem? at?, rfl, plain, operand⟩

/-! ## Loops that are read -/

theorem Assembled.exists_shape_at {i : Nat} (lt : i < ins.length + defs.length) :
    ∃ s, design.net.shape? ⟨i⟩ = some s := by
  have inside : i < (ins ++ defs.map Definition.name).length := by simpa using lt
  obtain ⟨s, found, _⟩ := assembled.known named ((named _ ⟨i⟩).mpr (List.getElem?_eq_getElem inside))
  exact ⟨s, found⟩

/-- Every statement makes a gate of its own, so one gate leaves no room beside a definition. -/
theorem Assembled.alone_of_few (few : design.net.top.size ≤ 1) {d : Definition} (mem : d ∈ defs) :
    ins = [] ∧ outs = [] ∧ defs = [d] := by
  have consistent := assembled.reachable.consistent
  have some := List.length_pos_of_mem mem
  obtain ⟨s, first⟩ := assembled.exists_shape_at named (show 0 < ins.length + defs.length by omega)
  have one : ins.length + defs.length = 1 := by
    by_contra more
    obtain ⟨t, second⟩ := assembled.exists_shape_at named (show 1 < ins.length + defs.length by omega)
    cases consistent.eq_of_few few first second
  have noOutputs : design.outputs = [] := by
    rw [List.eq_nil_iff_forall_not_mem]
    intro o listed
    obtain ⟨above, _, _, there⟩ := assembled.output o listed
    have same : 0 = o.2.index := congrArg GateId.index (consistent.eq_of_few few first there)
    omega
  obtain ⟨e, only⟩ := List.length_eq_one_iff.mp (show defs.length = 1 by omega)
  rw [only, List.mem_singleton] at mem
  exact ⟨List.length_eq_zero_iff.mp (by omega), by rw [← assembled.outputs, noOutputs]; rfl, mem ▸ only⟩

/-- Where there is one gate only, a loop is all that there is. -/
theorem Assembled.selfFed_of_few (few : design.net.top.size ≤ 1) (looped : Looped defs) : SelfFed ins outs defs := by
  obtain ⟨name, loop⟩ := looped
  obtain ⟨x, _, d, mem, rfl, plain, operand⟩ := Relation.TransGen.tail'_iff.mp loop
  obtain ⟨noInputs, noOutputs, only⟩ := assembled.alone_of_few named few mem
  refine ⟨noInputs, noOutputs, d, only, plain, List.ne_nil_of_mem operand, ?_⟩
  intro used isOperand
  obtain ⟨j, at?⟩ := List.mem_iff_getElem?.mp mem
  obtain ⟨s, here, describes⟩ := assembled.filled j d at?
  obtain ⟨drivers, resolve, inputs⟩ := describes.inputs plain
  obtain ⟨g, isDriver, resolves⟩ := exists_of_forall₂ resolve.flip isOperand
  obtain ⟨t, there⟩ := assembled.known_of_resolves named resolves
  obtain rfl := assembled.reachable.consistent.eq_of_few few there here
  -- The operand stands for the gate itself, which reads something and so is no constant.
  rcases resolves with own | ⟨_, ⟨_, constant⟩ | ⟨_, constant⟩⟩
  · have place := (named used _).mp own
    rw [(named _ _).mp (names_of_definition named at?)] at place
    exact (Option.some.inj place).symm
  all_goals
    rw [here] at constant
    cases constant
    rw [List.map_eq_nil_iff.mp inputs.symm] at isDriver
    cases isDriver

end Assembled

end Bench

end LogicNet
