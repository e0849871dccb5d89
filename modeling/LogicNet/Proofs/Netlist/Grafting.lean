import LogicNet.Proofs.Netlist.Feeding
import LogicNet.Proofs.Netlist.Importing

/-!
# Grafts

An import puts a netlist beside its host, and neither of them notices the other.

**The law** (`importNet_grafts`): after an import, every gate of the host has its function, its inputs, its fan-out and
its part, and the parts of the host are what they were. The gates of the other netlist are there under new identifiers
with their drivers renamed, its parts follow those of the host in their order, and a driver that it read from outside is
now a placeholder in no part. The boundary of the whole is that of the host, a port for each source and each output of
the other netlist, and a port for each placeholder.

Nothing is asked of the two netlists. They may be the same, have drivers outside of the same numbers, or be unsorted,
with orphans and with parts that have no gates.

**What it does not establish.** That the host is still sorted: an import that adds a gate disturbs the order of the
whole. The orders of the parts of the host are kept with the parts.
-/

namespace LogicNet

open Std

namespace Netlist

/-- The other netlist has been grafted on the host, by this correspondence. -/
structure Grafted (host other : Netlist) (map : GateMap) (net : Netlist) : Prop where
  /-- Gates of the host, with their fan-out. -/
  hostGates : ∀ {y : GateId} {g : Gate}, host.gate? y = some g → net.gate? y = some g
  hostHomes : ∀ {y : GateId} {g : Gate}, host.gate? y = some g → net.partOf? y = host.partOf? y
  hostParts : host.parts <+: net.parts
  keys : ∀ id, id ∈ map ↔ id ∈ other.gates ∨ id ∈ other.externalDrivers
  injective : ∀ {a b y : GateId}, map[a]? = some y → map[b]? = some y → a = b
  fresh : ∀ {id y : GateId}, map[id]? = some y → ¬host.Mentions y
  /-- There is nothing else. -/
  onto : ∀ {y : GateId} {g : Gate}, net.gate? y = some g → host.gate? y = some g ∨ ∃ id : GateId, map[id]? = some y
  gates : ∀ {id : GateId} {g : Gate}, other.gate? id = some g →
    ∃ g', net.gate? (map.image id) = some g' ∧ g'.toShape = g.toShape.rename map.image
  placeholders : ∀ id ∈ other.externalDrivers,
    ∃ g', net.gate? (map.image id) = some g' ∧ g'.toShape = ⟨.buffer, []⟩ ∧ net.partOf? (map.image id) = none
  homes : ∀ {id : GateId} {g : Gate}, other.gate? id = some g →
    net.partOf? (map.image id) = (other.partOf? id).map (host.parts.length + ·)
  parts : net.partGates = host.partGates ++ other.partGates.map (·.map map.image)
  sources : ∀ l, l ∈ net.sources ↔ l ∈ host.sources ∨
    (∃ id g, other.gate? id = some g ∧ g.isSource = true ∧ l = .port (map.image id)) ∨
      ∃ id ∈ other.externalDrivers, l = .port (map.image id)
  targets : ∀ l, l ∈ net.targets ↔ l ∈ host.targets ∨
    ∃ id g, other.gate? id = some g ∧ g.isOutput = true ∧ l = .port (map.image id)

section Graft

variable {host other net : Netlist} {map : GateMap} (h : Imported host other map net)
include h

theorem Imported.mapped {id : GateId} (mentioned : other.Mentions id) : map[id]? = some (map.image id) :=
  GateMap.image_of_mem ((h.keys id).mpr mentioned)

/-- What is new is an image. -/
theorem Imported.exists_image (hostConsistent : host.Consistent) {y : GateId} {g : Gate} (found : net.gate? y = some g)
    (new : host.nextId ≤ y.index) : ∃ id : GateId, map[id]? = some y := by
  by_contra none
  have same := h.kept y fun id mapped => none ⟨id, mapped⟩
  rw [shape?_of_gate? found] at same
  have := hostConsistent.lt_next same.symm
  omega

/-- THE CASES: a gate is one of the host, the image of a gate, or the placeholder of a driver outside. -/
theorem Imported.gate_cases (hostConsistent : host.Consistent) {y : GateId} {g : Gate} (found : net.gate? y = some g) :
    host.gate? y = some g ∨
      (∃ id g', other.gate? id = some g' ∧ map.image id = y ∧ g.toShape = g'.toShape.rename map.image) ∨
      ∃ id, other.Mentions id ∧ other.gate? id = none ∧ map.image id = y ∧ g.toShape = ⟨.buffer, []⟩ := by
  rcases Nat.lt_or_ge y.index host.nextId with old | new
  · rw [← h.beside.gates old]
    exact .inl found
  · obtain ⟨id, mapped⟩ := h.exists_image hostConsistent found new
    have mentioned := (h.keys id).mp (GateMap.mem_of_mapped mapped)
    have image := GateMap.image_eq mapped
    cases here : other.gate? id with
    | some g' =>
      have shape := h.gates here
      rw [image, shape?_of_gate? found, Option.some.injEq] at shape
      exact .inr (.inl ⟨id, g', here, image, shape⟩)
    | none =>
      have shape := h.outside mapped here
      rw [shape?_of_gate? found, Option.some.injEq] at shape
      exact .inr (.inr ⟨id, mentioned, here, image, shape⟩)

theorem Imported.host_gate (hostConsistent : host.Consistent) {y : GateId} {g : Gate} (found : host.gate? y = some g) :
    net.gate? y = some g := by
  rw [h.beside.gates (hostConsistent.wired.given found)]
  exact found

/-- The placeholder of a driver outside. -/
theorem Imported.placeholder {id : GateId} (mentioned : other.Mentions id) (external : other.gate? id = none) :
    ∃ g', net.gate? (map.image id) = some g' ∧ g'.toShape = ⟨.buffer, []⟩ :=
  shape?_eq_some.mp (h.outside (h.mapped mentioned) external)

/-- Whatever the other netlist mentions is a gate now. -/
theorem Imported.image_known {id : GateId} (mentioned : other.Mentions id) : ∃ g', net.gate? (map.image id) = some g' := by
  cases found : other.gate? id with
  | some g =>
    obtain ⟨g', image, _⟩ := shape?_eq_some.mp (h.gates found)
    exact ⟨g', image⟩
  | none =>
    obtain ⟨g', image, _⟩ := h.placeholder mentioned found
    exact ⟨g', image⟩

theorem Imported.mem_sources (hostConsistent : host.Consistent) (consistent : net.Consistent) {l : Link} :
    l ∈ net.sources ↔ l ∈ host.sources ∨
      (∃ id g, other.gate? id = some g ∧ g.isSource = true ∧ l = .port (map.image id)) ∨
        ∃ id, (other.Mentions id ∧ other.gate? id = none) ∧ l = .port (map.image id) := by
  constructor
  · intro enters
    rcases consistent.mem_sources_iff.mp enters with ⟨y, g, rfl, found, source⟩ | ⟨t, i, g, s, rfl, found, read, outside⟩
    · rcases h.gate_cases hostConsistent found with old | ⟨id, g', here, rfl, shape⟩ | ⟨id, mentioned, external, rfl, _⟩
      · exact .inl ((hostConsistent.port_mem_sources old).mpr source)
      · rw [shape, Shape.isSource_rename] at source
        exact .inr (.inl ⟨id, g', here, source, rfl⟩)
      · exact .inr (.inr ⟨id, ⟨mentioned, external⟩, rfl⟩)
    -- Only the host has drivers outside: what is new reads images.
    · rcases h.gate_cases hostConsistent found with old | ⟨id, g', here, rfl, shape⟩ | ⟨id, _, _, rfl, shape⟩
      · have below := hostConsistent.wired.drivers old s (List.mem_of_getElem? read)
        rw [h.beside.gates below] at outside
        exact .inl ((hostConsistent.edge_mem_sources old read).mpr outside)
      · rw [shape] at read
        obtain ⟨x, inside, rfl⟩ := List.mem_map.mp (List.mem_of_getElem? read)
        obtain ⟨d, known⟩ := h.image_known (.inr ⟨id, g', x, here, inside, rfl⟩)
        rw [show net.gate? (map.image x.driver) = none from outside] at known
        cases known
      · rw [shape] at read
        cases read
  · rintro (old | ⟨id, g, here, source, rfl⟩ | ⟨id, ⟨mentioned, external⟩, rfl⟩)
    · rcases hostConsistent.mem_sources_iff.mp old with ⟨y, g, rfl, found, source⟩ | ⟨t, i, g, s, rfl, found, read, outside⟩
      · exact (consistent.port_mem_sources (h.host_gate hostConsistent found)).mpr source
      · refine (consistent.edge_mem_sources (h.host_gate hostConsistent found) read).mpr ?_
        rw [h.beside.gates (hostConsistent.wired.drivers found s (List.mem_of_getElem? read))]
        exact outside
    · obtain ⟨g', found, shape⟩ := shape?_eq_some.mp (h.gates here)
      refine (consistent.port_mem_sources found).mpr ?_
      rw [shape, Shape.isSource_rename]
      exact source
    · obtain ⟨g', found, shape⟩ := h.placeholder mentioned external
      refine (consistent.port_mem_sources found).mpr ?_
      rw [shape]
      rfl

theorem Imported.mem_targets (hostConsistent : host.Consistent) (consistent : net.Consistent) {l : Link} :
    l ∈ net.targets ↔ l ∈ host.targets ∨
      ∃ id g, other.gate? id = some g ∧ g.isOutput = true ∧ l = .port (map.image id) := by
  constructor
  · intro leaves
    obtain ⟨g, found, output, port⟩ := consistent.mem_targets_iff.mp leaves
    rcases h.gate_cases hostConsistent found with old | ⟨id, g', here, image, shape⟩ | ⟨id, _, _, _, shape⟩
    · exact .inl (hostConsistent.mem_targets_iff.mpr ⟨g, old, output, port⟩)
    · rw [shape, Shape.isOutput_rename] at output
      rw [← image] at port
      exact .inr ⟨id, g', here, output, port⟩
    · rw [shape] at output
      cases output
  · rintro (old | ⟨id, g, here, output, rfl⟩)
    · obtain ⟨g, found, output, port⟩ := hostConsistent.mem_targets_iff.mp old
      exact consistent.mem_targets_iff.mpr ⟨g, h.host_gate hostConsistent found, output, port⟩
    · obtain ⟨g', found, shape⟩ := shape?_eq_some.mp (h.gates here)
      refine consistent.mem_targets_iff.mpr ⟨g', found, ?_, rfl⟩
      rw [shape, Shape.isOutput_rename]
      exact output

/-- A placeholder is in no part: the parts of the host have gates of the host, and the new parts have images of gates. -/
theorem Imported.placeholder_orphan (hostConsistent : host.Consistent) (others : other.Consistent)
    (consistent : net.Consistent) {id : GateId} (mentioned : other.Mentions id) (external : other.gate? id = none) :
    net.partOf? (map.image id) = none := by
  refine Option.eq_none_iff_forall_ne_some.mpr fun n home => ?_
  have mapped := h.mapped mentioned
  obtain ⟨ids, listed, mem⟩ := consistent.partOf?_eq_some.mp home
  rw [h.lists] at listed
  rcases List.mem_append.mp (List.mem_of_getElem? listed) with old | new
  · obtain ⟨p, part, rfl⟩ := List.mem_map.mp old
    obtain ⟨m, here⟩ := List.mem_iff_getElem?.mp part
    obtain ⟨g, known⟩ := (hostConsistent.parts m p here).accounts.known _ mem
    have below := hostConsistent.wired.given known
    have above := h.fresh mapped
    omega
  · obtain ⟨p, part, rfl⟩ := List.mem_map.mp new
    obtain ⟨m, here⟩ := List.mem_iff_getElem?.mp part
    obtain ⟨x, member, image⟩ := List.mem_map.mp mem
    obtain ⟨g, known⟩ := (others.parts m p here).accounts.known x member
    have same := h.mapped (.inl ⟨g, known⟩)
    rw [image] at same
    rw [h.injective same mapped, external] at known
    cases known

theorem Imported.grafted (hostConsistent : host.Consistent) (others : other.Consistent) (consistent : net.Consistent) :
    Grafted host other map net where
  hostGates := h.host_gate hostConsistent
  hostHomes := fun found => h.beside.homes (hostConsistent.wired.given found)
  hostParts := h.beside.parts
  keys := by
    intro id
    rw [h.keys, ← others.mem_names, names, List.mem_append, List.mem_eraseDups]
  injective := h.injective
  fresh := by
    intro id y mapped mentioned
    have above := h.fresh mapped
    rcases mentioned with ⟨g, found⟩ | ⟨t, g, s, found, read, rfl⟩
    · have below := hostConsistent.wired.given found
      omega
    · have below := hostConsistent.wired.drivers found s read
      omega
  onto := by
    intro y g found
    rcases Nat.lt_or_ge y.index host.nextId with old | new
    · rw [← h.beside.gates old]
      exact .inl found
    · exact .inr (h.exists_image hostConsistent found new)
  gates := fun found => shape?_eq_some.mp (h.gates found)
  placeholders := by
    intro id external
    obtain ⟨mentioned, unknown⟩ := others.mem_externalDrivers.mp external
    obtain ⟨g', found, shape⟩ := h.placeholder mentioned unknown
    exact ⟨g', found, shape, h.placeholder_orphan hostConsistent others consistent mentioned unknown⟩
  homes := h.homes
  parts := by rw [h.lists, imagesOf, partGates, partGates, List.map_map]; rfl
  sources := by
    intro l
    rw [h.mem_sources hostConsistent consistent]
    simp only [others.mem_externalDrivers]
  targets := fun l => h.mem_targets hostConsistent consistent

end Graft

/-- AN IMPORT IS A GRAFT. It returns as long as there are numbers for all that the other netlist mentions, and whenever
it returns, the other netlist is grafted on the host. -/
theorem importNet_grafts {host other : Netlist} (hostReachable : host.Reachable) (reachable : other.Reachable) :
    (host.nextId + other.names.length ≤ GateId.largest → ∃ map net, host.importNet other = .ok (map, net)) ∧
      ∀ map net, host.importNet other = .ok (map, net) → Grafted host other map net := by
  have hostConsistent := hostReachable.consistent
  have consistent := reachable.consistent
  constructor
  · intro room
    obtain ⟨map, net, imported, _⟩ := exists_importNet hostConsistent consistent room
    exact ⟨map, net, imported⟩
  · intro map net imported
    have made : net.Reachable := .importNet hostReachable reachable imported
    exact (imported_importNet hostConsistent consistent imported).grafted hostConsistent consistent made.consistent

/-- A parity of two drivers outside, a flip-flop behind it, and an input that nothing reads. -/
def looseGates : Netlist :=
  made [.nary .xor [⟨0⟩, ⟨1⟩], ⟨.flipFlop, [.plain ⟨2⟩, ⟨.rising, ⟨1⟩⟩]⟩, .nary .input [], .nary .output [⟨3⟩]]

/-- The parity in the first of two parts, nothing in the second, and the other gates in none. -/
def looseRun : Result Netlist := looseGates.addPart.2.addPart.2.moveGate ⟨2⟩ (some 0)

/-- It can be grafted on itself. The two drivers outside become gates once and stay outside once. -/
theorem looseRun_grafted : ∃ net map grafted, looseRun = .ok net ∧ net.hasOrphans = true ∧ net.hasEmptyParts = true ∧
    net.importNet net = .ok (map, grafted) ∧ map.size = 6 ∧ grafted.parts.length = 4 ∧
    grafted.externalDrivers = [⟨0⟩, ⟨1⟩, ⟨1⟩] ∧ Grafted net net map grafted := by
  obtain ⟨net, run, facts⟩ : ∃ net, looseRun = .ok net ∧ (net.hasOrphans && net.hasEmptyParts &&
      (net.importNet net).toOption.any fun x => x.1.size == 6 && x.2.parts.length == 4 &&
        x.2.externalDrivers == [⟨0⟩, ⟨1⟩, ⟨1⟩]) = true := Result.exists_ok_of_any (by decide +kernel)
  simp only [Bool.and_eq_true] at facts
  obtain ⟨⟨orphans, empty⟩, imports⟩ := facts
  obtain ⟨⟨map, grafted⟩, imported, facts⟩ := Result.exists_ok_of_any imports
  simp only [Bool.and_eq_true, beq_iff_eq] at facts
  obtain ⟨⟨six, four⟩, external⟩ := facts
  have reachable : net.Reachable := .moveGate _ _ (.addPart (.addPart (reachable_made _ : looseGates.Reachable))) run
  exact ⟨net, map, grafted, run, orphans, empty, imported, six, four, external,
    (importNet_grafts reachable reachable).2 map grafted imported⟩

end Netlist

end LogicNet
