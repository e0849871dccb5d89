import LogicNet.Proofs.Netlist.Success

/-!
# Building beside a host

Gates are added BESIDE a netlist, their host, when they read only each other and are put into parts of their own. Every
edit looks at more than the gate it is about: it records links in the fan-out of drivers and settles the boundary of
each part it can reach. None of this gets to the host, because no link leads there.

**The law** (`Beside.build`, `Beside.setGate`, `Beside.addPart`, `Beside.moveGate`): an edit of what is beside the host
leaves the host as it is, to the last entry of a fan-out list, and what is new stays beside it.

Numbers tell the two apart. The host has given all numbers below its next one, and whatever is new has a number that
it has not given.
-/

namespace LogicNet

open Std

/-! ## Links that are not recorded -/

theorem filter_source_of_ne {links : List Link} {y : GateId} (away : ∀ l ∈ links, l.source ≠ y) :
    links.filter (·.source = y) = [] :=
  List.filter_eq_nil_iff.mpr fun l mem => by simpa using away l mem

theorem connected_of_ne {gate? : GateId → Option Gate} {links : List Link} {y : GateId}
    (away : ∀ l ∈ links, l.source ≠ y) : connected gate? links y = gate? y := by
  rw [connected, relisted, filter_source_of_ne away]
  simp

theorem disconnected_of_ne {gate? : GateId → Option Gate} {links : List Link} {y : GateId}
    (away : ∀ l ∈ links, l.source ≠ y) : disconnected gate? links y = gate? y := by
  rw [disconnected, relisted, filter_source_of_ne away]
  simp [dropLinks]

namespace Netlist

/-- The host is there as it was. What is new has a number of its own, reads only what is new, and is in no part of the
host. -/
structure Beside (host net : Netlist) : Prop where
  next : host.nextId ≤ net.nextId
  gates : ∀ {y : GateId}, y.index < host.nextId → net.gate? y = host.gate? y
  homes : ∀ {y : GateId}, y.index < host.nextId → net.partOf? y = host.partOf? y
  parts : host.parts <+: net.parts
  newHomes : ∀ {y : GateId} {n : Nat}, host.nextId ≤ y.index → net.partOf? y = some n → host.parts.length ≤ n
  newDrivers : ∀ {y : GateId} {s : Shape}, host.nextId ≤ y.index → net.shape? y = some s →
    ∀ x ∈ s.inputs, host.nextId ≤ x.driver.index

/-- Nothing is new yet. -/
theorem Consistent.beside {host : Netlist} (h : host.Consistent) : Beside host host where
  next := Nat.le_refl _
  gates := fun _ => rfl
  homes := fun _ => rfl
  parts := List.prefix_refl _
  newHomes := by
    intro y n new home
    obtain ⟨g, found⟩ := h.known_of_home home
    have := h.wired.given found
    omega
  newDrivers := by
    intro y s new known
    have := h.lt_next known
    omega

/-- Both ends of the link are new. -/
def NewLink (host : Netlist) (l : Link) : Prop := host.nextId ≤ l.source.index ∧ host.nextId ≤ l.target.index

section Refresh

variable {host net : Netlist}

/-- Parts that the gate and its links do not reach are not refreshed. -/
theorem getElem?_refresh {id : GateId} {extra : List Link} {left : Option Nat} {n : Nat} (stays : left ≠ some n)
    (away : net.partOf? id ≠ some n)
    (ends : ∀ l ∈ extra ++ net.linksOf id, net.partOf? l.source ≠ some n ∧ net.partOf? l.target ≠ some n) :
    (net.refresh id extra left).parts[n]? = net.parts[n]? := by
  have untouched : n ∉ left.toList ++ net.touched id (extra ++ net.linksOf id) := by
    rw [List.mem_append, Option.mem_toList, not_or]
    refine ⟨stays, fun touched => ?_⟩
    obtain ⟨x, near, home⟩ := List.mem_filterMap.mp touched
    rcases List.mem_cons.mp near with rfl | near
    · exact away home
    · obtain ⟨l, mem, isEnd⟩ := List.mem_flatMap.mp near
      rcases List.mem_pair.mp isEnd with rfl | rfl
      · exact (ends l mem).1 home
      · exact (ends l mem).2 home
  rw [refresh, List.getElem?_mapIdx]
  simp [untouched]

variable (b : Beside host net) (hostConsistent : host.Consistent)
include b

/-- What has a new number is in no part of the host. -/
theorem Beside.not_home {y : GateId} (new : host.nextId ≤ y.index) {n : Nat} (inside : n < host.parts.length) :
    net.partOf? y ≠ some n := fun home => Nat.not_le.mpr inside (b.newHomes new home)

include hostConsistent

/-- A gate that reads something new is new. -/
theorem Beside.target_new {l : Link} (edge : IsEdge net.gate? l) (new : host.nextId ≤ l.source.index) :
    host.nextId ≤ l.target.index := by
  refine Nat.not_lt.mp fun old => ?_
  obtain ⟨g, found, link⟩ := edge
  rw [b.gates old] at found
  have := hostConsistent.wired.source_lt ⟨g, found, link⟩
  omega

/-- The links of a new gate are new. -/
theorem Beside.links_new (wired : Wired net.gate? net.nextId) {id : GateId} (new : host.nextId ≤ id.index) :
    ∀ l ∈ net.linksOf id, host.NewLink l := by
  intro l mem
  cases found : net.gate? id with
  | none =>
    have found : net.table[id]? = none := found
    simp [linksOf, found] at mem
  | some g =>
    rw [linksOf_eq found, List.mem_append] at mem
    rcases mem with input | reader
    · have target := Shape.target_of_mem_inputLinks input
      obtain ⟨x, read, driver⟩ := source_of_mem_inputLinks input
      rw [NewLink, target, wired.keyed found, ← driver]
      exact ⟨b.newDrivers new (shape?_of_gate? found) x read, new⟩
    · obtain ⟨source, edge⟩ := (wired.fanout found l).mp reader
      rw [← source] at new
      exact ⟨new, b.target_new hostConsistent edge new⟩

/-- Refreshing after an edit of a new gate does not reach the host. -/
theorem Beside.refreshed (wired : Wired net.gate? net.nextId) {id : GateId} (new : host.nextId ≤ id.index)
    {extra : List Link} (links : ∀ l ∈ extra, host.NewLink l) {left : Option Nat}
    (away : ∀ n, left = some n → host.parts.length ≤ n) : Beside host (net.refresh id extra left) := by
  refine ⟨b.next, b.gates, b.homes, ?_, b.newHomes, b.newDrivers⟩
  refine List.prefix_iff_getElem?.mpr fun n inside => ?_
  rw [getElem?_refresh (fun gone => Nat.not_le.mpr inside (away n gone)) (b.not_home new inside)]
  · exact List.prefix_iff_getElem?.mp b.parts n inside
  · intro l mem
    have isNew : host.NewLink l := by
      rcases List.mem_append.mp mem with before | now
      · exact links l before
      · exact b.links_new hostConsistent wired new l now
    exact ⟨b.not_home isNew.1 inside, b.not_home isNew.2 inside⟩

end Refresh

theorem Beside.register {host net : Netlist} (b : Beside host net) (g : Gate) : Beside host (net.register g) := by
  unfold Netlist.register
  split
  · exact ⟨b.next, b.gates, b.homes, b.parts, b.newHomes, b.newDrivers⟩
  · exact b

/-! ## Edits -/

section Edits

variable {host net net' : Netlist} (b : Beside host net) (hostConsistent : host.Consistent) (h : net.Consistent)
include b hostConsistent h

/-- A new gate that reads only what is new. -/
theorem Beside.build {shape : Shape} {id : GateId} (drivers : ∀ s ∈ shape.inputs, host.nextId ≤ s.driver.index)
    (built : net.build shape = .ok (id, net')) : Beside host net' := by
  have reshapes := (reshapes_build built).2
  obtain ⟨mid, building, rfl⟩ := build_spec built
  have new : host.nextId ≤ id.index := Nat.le_trans b.next building.fresh
  have links : ∀ l ∈ shape.inputLinks id, host.nextId ≤ l.source.index := by
    intro l mem
    obtain ⟨x, read, driver⟩ := source_of_mem_inputLinks mem
    rw [← driver]
    exact drivers x read
  have beside : Beside host mid := by
    refine ⟨?_, ?_, ?_, ?_, ?_, ?_⟩
    · rw [building.next]
      exact Nat.le_succ_of_le new
    · intro y old
      rw [building.gates, connected_of_ne, Function.update_of_ne, b.gates old]
      · rintro rfl
        omega
      · rintro l mem rfl
        have := links l mem
        omega
    · rw [partOf?_congr building.home]
      exact b.homes
    · rw [building.parts]
      exact b.parts
    · rw [partOf?_congr building.home]
      exact b.newHomes
    · intro y s newY known x read
      rw [← shape?_congr (gate?_settled mid id [] none _)] at known
      rcases reshapes.before known with ⟨_, rfl⟩ | ⟨_, before⟩
      · exact drivers x read
      · exact b.newDrivers newY before x read
  exact (beside.refreshed hostConsistent (building.wired h) new (by simp) (by simp)).register _

/-- A new gate is given another shape, which reads only what is new. -/
theorem Beside.setGate {shape : Shape} {id : GateId} (new : host.nextId ≤ id.index)
    (drivers : ∀ s ∈ shape.inputs, host.nextId ≤ s.driver.index) (set : net.setGate id shape = .ok net') :
    Beside host net' := by
  have reshapes := reshapes_setGate h set
  obtain ⟨old, g, mid, rfl, changing, rfl⟩ := setGate_spec set
  obtain rfl := changing.keyed h
  have before : ∀ l ∈ old.inputLinks, host.NewLink l := by
    intro l mem
    refine b.links_new hostConsistent h.wired new l ?_
    rw [linksOf_eq changing.found]
    exact List.mem_append_left _ mem
  have now : ∀ l ∈ g.inputLinks, host.nextId ≤ l.source.index := by
    intro l mem
    obtain ⟨x, read, driver⟩ := source_of_mem_inputLinks mem
    rw [← driver]
    exact drivers x read
  have beside : Beside host mid := by
    refine ⟨Nat.le_trans b.next changing.more, ?_, ?_, ?_, ?_, ?_⟩
    · intro y isOld
      rw [changing.gates, connected_of_ne, Function.update_of_ne, disconnected_of_ne, b.gates isOld]
      · rintro l mem rfl
        have := (before l mem).1
        omega
      · rintro rfl
        omega
      · rintro l mem rfl
        have := now l mem
        omega
    · rw [partOf?_congr changing.home]
      exact b.homes
    · refine List.prefix_iff_getElem?.mpr fun n inside => ?_
      have away : ¬net.inPart n g.id = true := fun home => b.not_home new inside (inPart_iff.mp home)
      rw [changing.parts, List.prefix_iff_getElem?.mp b.parts n inside, Option.map_some, if_neg away]
    · rw [partOf?_congr changing.home]
      exact b.newHomes
    · intro y s newY known x read
      rw [← shape?_congr (gate?_settled mid g.id old.inputLinks none g)] at known
      rcases reshapes.before known with ⟨_, rfl⟩ | ⟨_, unchanged⟩
      · exact drivers x read
      · exact b.newDrivers newY unchanged x read
  exact (beside.refreshed hostConsistent (changing.wired h) new before (by simp)).register g

omit hostConsistent h in
theorem Beside.addPart : Beside host net.addPart.2 :=
  ⟨b.next, b.gates, b.homes, b.parts.trans (List.prefix_append _ _), b.newHomes, b.newDrivers⟩

/-- A new gate is moved to a part that the host does not have. -/
theorem Beside.moveGate {id : GateId} (new : host.nextId ≤ id.index) {n : Nat} (away : host.parts.length ≤ n)
    (moved : net.moveGate id (some n) = .ok net') : Beside host net' := by
  obtain ⟨g, found, _, ⟨_, rfl⟩ | ⟨elsewhere, rfl⟩⟩ := moveGate_spec moved
  · exact b
  have beside : Beside host (net.rehome id g (some n)) := by
    refine ⟨?_, ?_, ?_, ?_, ?_, ?_⟩
    · rw [nextId_rehome]
      exact b.next
    · rw [gate?_rehome]
      exact b.gates
    · intro y old
      rw [partOf?_rehome, if_neg, b.homes old]
      rintro rfl
      omega
    · refine List.prefix_iff_getElem?.mpr fun m inside => ?_
      have other : ¬net.inPart m id = true := fun home => b.not_home new inside (inPart_iff.mp home)
      have later : some n ≠ some m := fun same => Nat.not_le.mpr inside (Option.some.inj same ▸ away)
      rw [getElem?_rehome elsewhere, List.prefix_iff_getElem?.mp b.parts m inside, Option.map_some, if_neg other,
        if_neg later]
    · intro y m newY home
      rw [partOf?_rehome] at home
      split at home
      · cases home
        exact away
      · exact b.newHomes newY home
    · intro y s newY shape
      rw [shape?, gate?_rehome] at shape
      exact b.newDrivers newY shape
  have wired : Wired (net.rehome id g (some n)).gate? (net.rehome id g (some n)).nextId := by
    rw [gate?_rehome, nextId_rehome]
    exact h.wired
  exact beside.refreshed hostConsistent wired new (by simp) fun m home => b.newHomes new home

end Edits

end Netlist

end LogicNet
