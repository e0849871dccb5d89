import LogicNet.Proofs.Bench.RoundTrip

/-!
# The gates a text names

A design lists its inputs, its outputs and its flip-flops under their names. The lists leave nothing out: whatever
else a text makes, it makes no other gate of these functions.

**The law** (`ports_of_read`): each list holds all gates of its function, and each of them once. Inputs and flip-flops
are declared, and a name is declared once, so their names differ.

**What it does not establish.** An output declares nothing. Each line that asks for one gets a gate of its own, and two
lines may ask for the same name.
-/

namespace LogicNet

open Std

namespace Bench

/-- All gates of a function are in the list, each once. -/
structure Lists (net : Netlist) (fn : GateFn) (named : NamedGates) : Prop where
  distinct : (named.map Prod.snd).Nodup
  mem : ∀ id, id ∈ named.map Prod.snd ↔ ∃ g, net.gate? id = some g ∧ g.fn = fn

/-- The lists of a design are complete, and of its names only those of outputs may occur twice. -/
structure Ports (d : Design) : Prop where
  inputs : Lists d.net .input d.inputs
  outputs : Lists d.net .output d.outputs
  triggers : Lists d.net .flipFlop d.triggers
  inputNames : (d.inputs.map Prod.fst).Nodup
  triggerNames : (d.triggers.map Prod.fst).Nodup

theorem lists_of_shapes {net : Netlist} {fn : GateFn} {named : NamedGates} (distinct : (named.map Prod.snd).Nodup)
    (listed : ∀ x ∈ named, ∃ s, net.shape? x.2 = some s ∧ s.fn = fn)
    (complete : ∀ {id : GateId} {s : Shape}, net.shape? id = some s → s.fn = fn → ∃ name, (name, id) ∈ named) :
    Lists net fn named := by
  refine ⟨distinct, fun id => ⟨?_, ?_⟩⟩
  · intro isListed
    obtain ⟨x, mem, rfl⟩ := List.mem_map.mp isListed
    obtain ⟨s, here, isFn⟩ := listed x mem
    obtain ⟨g, found, rfl⟩ := Netlist.shape?_eq_some.mp here
    exact ⟨g, found, isFn⟩
  · rintro ⟨g, found, isFn⟩
    obtain ⟨name, mem⟩ := complete (Netlist.shape?_of_gate? found) isFn
    exact List.mem_map.mpr ⟨_, mem, rfl⟩

/-- A name that is declared twice would have two gates. -/
theorem Names.Numbers.nodup {names : Names} {declared : List String} (h : names.Numbers declared) :
    declared.Nodup := by
  rw [List.nodup_iff_getElem?_ne_getElem?]
  intro i j lt inside same
  have here := List.getElem?_eq_getElem inside
  rw [here] at same
  have first := (h declared[j] ⟨i⟩).mpr same
  rw [(h declared[j] ⟨j⟩).mpr here] at first
  cases first
  exact absurd lt (Nat.lt_irrefl _)

section Assembled

variable {ins outs : List String} {defs : List Definition} {names : Names} {design : Design}

/-- What a definition describes is a flip-flop if it says so, and it is never a port. -/
theorem Describes.fn {net : Netlist} {symbols : SymbolTable} {d : Definition} {s : Shape}
    (h : Describes names net symbols d s) : (s.fn = .flipFlop ↔ d.isFlipFlop = true) ∧ s.fn ≠ .input ∧
      s.fn ≠ .output := by
  unfold Definition.isFlipFlop
  obtain ⟨drivers, _, ⟨named, driver, clock, _, _, rfl⟩ | ⟨fn, named, plain, _, rfl⟩ | ⟨unnamed, n, _, rfl⟩⟩ := h.cases
  · rw [named]
    exact ⟨⟨fun _ => rfl, fun _ => rfl⟩, nofun, nofun⟩
  · have known : ∀ fn ∈ namedFns, fn ≠ .input ∧ fn ≠ .output := by decide
    rw [named]
    exact ⟨⟨fun flipFlop => absurd flipFlop plain, fun flipFlop => absurd (by simpa using flipFlop) plain⟩,
      known fn (Definition.fn?_mem named)⟩
  · rw [unnamed]
    exact ⟨⟨nofun, nofun⟩, nofun, nofun⟩

theorem not_constant {s : Shape} {fn : GateFn} (isFn : s.fn = fn) (other : fn.isConstant = false) :
    s.isConstant = false := by
  rw [Shape.isConstant, isFn]
  exact other

variable (assembled : Assembled ins defs names defs outs design)
include assembled

theorem Assembled.lists_inputs : Lists design.net .input design.inputs := by
  have places := assembled.inputs
  apply lists_of_shapes
  · rw [places, snd_places]
    exact List.Nodup.map (fun _ _ same => by cases same; rfl) List.nodup_range
  · intro x mem
    rw [places, mem_places] at mem
    exact ⟨_, assembled.input x.2.index (List.getElem?_eq_some_iff.mp mem).1, rfl⟩
  · intro id s found isInput
    rcases assembled.place_cases found with ⟨lt, _⟩ | ⟨j, d, _, _, describes⟩ | constant | ⟨name, mem⟩
    · exact ⟨ins[id.index], places ▸ mem_places.mpr (List.getElem?_eq_getElem lt)⟩
    · exact absurd isInput describes.fn.2.1
    · rw [not_constant isInput rfl] at constant
      cases constant
    · obtain ⟨_, d, _, here⟩ := assembled.output _ mem
      rw [found] at here
      cases here
      cases isInput

theorem Assembled.lists_outputs : Lists design.net .output design.outputs := by
  apply lists_of_shapes assembled.distinct
  · intro x mem
    obtain ⟨_, d, _, here⟩ := assembled.output x mem
    exact ⟨_, here, rfl⟩
  · intro id s found isOutput
    rcases assembled.place_cases found with ⟨_, rfl⟩ | ⟨j, d, _, _, describes⟩ | constant | listed
    · cases isOutput
    · exact absurd isOutput describes.fn.2.2
    · rw [not_constant isOutput rfl] at constant
      cases constant
    · exact listed

variable (named : names.Numbers (ins ++ defs.map Definition.name))
include named

omit assembled in
theorem names_of_definition {j : Nat} {d : Definition} (at? : defs[j]? = some d) :
    names[d.name]? = some ⟨ins.length + j⟩ := by
  rw [named, List.getElem?_append_right (Nat.le_add_right ..), Nat.add_sub_cancel_left, List.getElem?_map, at?]
  rfl

theorem Assembled.triggerNames : (design.triggers.map Prod.fst).Nodup := by
  rw [assembled.triggers]
  have distinct := (List.nodup_append.mp named.nodup).2.1
  exact distinct.sublist (List.filter_sublist.map _)

theorem Assembled.lists_triggers : Lists design.net .flipFlop design.triggers := by
  have trigger := assembled.trigger
  apply lists_of_shapes
  · -- A gate has one name, so two triggers on one gate would be one.
    apply List.Nodup.map_on _ (List.Nodup.of_map _ (assembled.triggerNames named))
    intro x memX y memY same
    have nameX := (named x.1 x.2).mp (trigger x memX)
    rw [same, (named y.1 y.2).mp (trigger y memY)] at nameX
    exact Prod.ext (Option.some.inj nameX).symm same
  · intro x mem
    have isTrigger : x.1 ∈ design.triggers.map Prod.fst := List.mem_map_of_mem mem
    rw [assembled.triggers] at isTrigger
    obtain ⟨d, kept, name⟩ := List.mem_map.mp isTrigger
    obtain ⟨isDefinition, flipFlop⟩ := List.mem_filter.mp kept
    obtain ⟨j, at?⟩ := List.mem_iff_getElem?.mp isDefinition
    obtain ⟨s, here, describes⟩ := assembled.filled j d at?
    have own := trigger x mem
    rw [← name, names_of_definition named at?] at own
    exact ⟨s, Option.some.inj own ▸ here, describes.fn.1.mpr flipFlop⟩
  · intro id s found isFlipFlop
    rcases assembled.place_cases found with ⟨_, rfl⟩ | ⟨j, d, rfl, at?, describes⟩ | constant | ⟨name, mem⟩
    · cases isFlipFlop
    · have isTrigger : d.name ∈ design.triggers.map Prod.fst := by
        rw [assembled.triggers]
        apply List.mem_map_of_mem
        exact List.mem_filter.mpr ⟨List.mem_of_getElem? at?, describes.fn.1.mp isFlipFlop⟩
      obtain ⟨x, mem, name⟩ := List.mem_map.mp isTrigger
      have own := trigger x mem
      rw [name, names_of_definition named at?] at own
      exact ⟨x.1, Option.some.inj own ▸ mem⟩
    · rw [not_constant isFlipFlop rfl] at constant
      cases constant
    · obtain ⟨_, d, _, here⟩ := assembled.output _ mem
      rw [found] at here
      cases here
      cases isFlipFlop

end Assembled

theorem Lists.of_gates {net net' : Netlist} {fn : GateFn} {named : NamedGates} (h : Lists net fn named)
    (same : net'.gate? = net.gate?) : Lists net' fn named :=
  ⟨h.distinct, fun id => by rw [same]; exact h.mem id⟩

/-- WHAT IS READ HAS COMPLETE LISTS. -/
theorem ports_of_read {bytes : ByteArray} {d : Design} (h : read bytes = .ok d) : Ports d := by
  obtain ⟨said, spoken, made⟩ := Result.bind_eq_ok.mp h
  rw [assemble_eq] at made
  obtain ⟨⟨names, design⟩, wired, made⟩ := Result.bind_eq_ok.mp made
  obtain ⟨net, sorted, made⟩ := Result.bind_eq_ok.mp made
  cases made
  obtain ⟨named, assembled⟩ := assembled_of_wire wired
  have same := (Netlist.sort_spec assembled.reachable.consistent assembled.disturbed sorted).1
  refine ⟨assembled.lists_inputs.of_gates same, assembled.lists_outputs.of_gates same,
    (assembled.lists_triggers named).of_gates same, ?_, assembled.triggerNames named⟩
  rw [assembled.inputs, fst_places]
  exact (List.nodup_append.mp named.nodup).1

end Bench

end LogicNet
