import LogicNet.Proofs.Netlist.Success

/-!
# Operations

The operations on a netlist as data, and what the two compound ones come down to.

An import and a copy are loops of edits. `Builds` names the edits that they are made of: a placeholder is added, a
placeholder gets a function, a part is added, a gate is moved. So no gate that has a function is ever changed on the
way, and what each of the four edits keeps is kept by the whole loop.

**The law** (`builds_importNet`, `builds_copy`): an import builds on its host, and a copy is what was built on nothing
and then sorted. What carries the loops is `Pending`: the gates that have no function yet have placeholders of their
own, so that giving one of them its function leaves the others blank.
-/

namespace LogicNet

open Std

namespace Netlist

/-! ## Single operations -/

/-- What can be done to a netlist. -/
inductive Operation
  | addPlaceholder
  | addGate (shape : Shape)
  | setGate (id : GateId) (shape : Shape)
  | removeGate (id : GateId)
  | addPart
  | moveGate (id : GateId) (dest : Option Nat)
  | mergeParts (left right : Nat)
  | groupOrphans
  | flatten
  | removeEmptyParts
  | importNet (other : Netlist)
  | copy
  | clear
  | sort

/-- The netlist after an operation. What the operation returns beside it is dropped. -/
def perform (net : Netlist) : Operation → Result Netlist
  | .addPlaceholder => do
    let (_, net) ← net.addPlaceholder
    return net
  | .addGate shape => do
    let (_, net) ← net.addGate shape
    return net
  | .setGate id shape => net.setGate id shape
  | .removeGate id => net.removeGate id
  | .addPart => .ok net.addPart.2
  | .moveGate id dest => net.moveGate id dest
  | .mergeParts left right => net.mergeParts left right
  | .groupOrphans => do
    let (_, net) ← net.groupOrphans
    return net
  | .flatten => .ok net.flatten
  | .removeEmptyParts => .ok net.removeEmptyParts
  | .importNet other => do
    let (_, net) ← net.importNet other
    return net
  | .copy => do
    let (_, net) ← net.copy
    return net
  | .clear => .ok net.clear
  | .sort => net.sort

/-- A netlist that is imported was made by operations too. -/
def Operation.Admissible : Operation → Prop
  | .importNet other => other.Reachable
  | _ => True

theorem Reachable.perform {net net' : Netlist} (h : net.Reachable) {op : Operation} (admissible : op.Admissible)
    (performed : net.perform op = .ok net') : net'.Reachable := by
  cases op with
  | addPlaceholder =>
    obtain ⟨_, added, performed⟩ := Result.bind_eq_ok.mp performed
    cases performed
    exact .addPlaceholder h added
  | addGate shape =>
    obtain ⟨_, added, performed⟩ := Result.bind_eq_ok.mp performed
    cases performed
    exact .addGate shape h added
  | setGate id shape => exact .setGate id shape h performed
  | removeGate id => exact .removeGate id h performed
  | addPart =>
    cases performed
    exact .addPart h
  | moveGate id dest => exact .moveGate id dest h performed
  | mergeParts left right => exact .mergeParts left right h performed
  | groupOrphans =>
    obtain ⟨_, grouped, performed⟩ := Result.bind_eq_ok.mp performed
    cases performed
    exact .groupOrphans h grouped
  | flatten =>
    cases performed
    exact .flatten h
  | removeEmptyParts =>
    cases performed
    exact .removeEmptyParts h
  | importNet other =>
    obtain ⟨_, imported, performed⟩ := Result.bind_eq_ok.mp performed
    cases performed
    exact .importNet h admissible imported
  | copy =>
    obtain ⟨_, copied, performed⟩ := Result.bind_eq_ok.mp performed
    cases performed
    exact .copy h copied
  | clear =>
    cases performed
    exact .clear h
  | sort => exact .sort h performed

theorem findOrBuild_cases {net net' : Netlist} {shape : Shape} {id : GateId}
    (given : net.findOrBuild shape = .ok (id, net')) :
    net.shared[shape]? = some id ∧ net' = net ∨ net.build shape = .ok (id, net') := by
  unfold findOrBuild at given
  split at given
  · next entry =>
    cases given
    exact .inl ⟨entry, rfl⟩
  · exact .inr given

/-- What `addGate` does: it looks for the shape, or for the inverter of a gate of the complementary shape. -/
theorem addGate_cases {net net' : Netlist} (consistent : net.Consistent) {shape : Shape} {id : GateId}
    (added : net.addGate shape = .ok (id, net')) :
    net.findOrBuild shape = .ok (id, net') ∨ ∃ base c, shape.complement = some c ∧ net.shape? base = some c ∧
      net.findOrBuild (.nary .not [base]) = .ok (id, net') := by
  unfold addGate at added
  unfold findOrBuild
  split at added
  · split at added
    · next entry =>
      rw [entry]
      exact .inl added
    · next base _ complement =>
      obtain ⟨c, isComplement, known⟩ := Option.bind_eq_some_iff.mp complement
      exact .inr ⟨base, c, isComplement, (consistent.shared c base known).2, added⟩
    · next unknown _ =>
      rw [unknown]
      exact .inl added
  · next unshareable =>
    cases entry : net.shared[shape]? with
    | none => exact .inl added
    | some y => exact absurd (consistent.shared shape y entry).1 unshareable

/-- At most one gate is built. -/
theorem addGate_eq_or_build {net net' : Netlist} (consistent : net.Consistent) {shape : Shape} {id : GateId}
    (added : net.addGate shape = .ok (id, net')) : net' = net ∨ ∃ s, net.build s = .ok (id, net') := by
  have given : ∃ s, net.findOrBuild s = .ok (id, net') := by
    rcases addGate_cases consistent added with given | ⟨_, _, _, _, given⟩
    · exact ⟨_, given⟩
    · exact ⟨_, given⟩
  obtain ⟨s, given⟩ := given
  rcases findOrBuild_cases given with ⟨_, same⟩ | built
  · exact .inl same
  · exact .inr ⟨s, built⟩

/-! ## Edits of a loop -/

/-- Made from the first netlist by edits that change no gate which has a function. -/
inductive Builds (net : Netlist) : Netlist → Prop
  | refl : Builds net net
  | place {mid net' id} : Builds net mid → mid.addPlaceholder = .ok (id, net') → Builds net net'
  | fill {mid net'} (id : GateId) (shape : Shape) :
      Builds net mid → mid.shape? id = some ⟨.buffer, []⟩ → mid.setGate id shape = .ok net' → Builds net net'
  | addPart {mid} : Builds net mid → Builds net mid.addPart.2
  | moveGate {mid net'} (id : GateId) (dest : Option Nat) :
      Builds net mid → mid.moveGate id dest = .ok net' → Builds net net'

theorem Builds.consistent {net net' : Netlist} (h : net.Builds net') (consistent : net.Consistent) :
    net'.Consistent := by
  induction h with
  | refl => exact consistent
  | place _ added ih => exact ih.addPlaceholder added
  | fill _ _ _ _ set ih => exact ih.setGate set
  | addPart _ ih => exact ih.addPart
  | moveGate _ _ _ moved ih => exact ih.moveGate moved

/-- The gates that wait for their functions have placeholders of their own. -/
def Pending (ids : List GateId) (map : GateMap) (net : Netlist) : Prop :=
  ∀ a ∈ ids, ∃ y, map[a]? = some y ∧ net.shape? y = some ⟨.buffer, []⟩ ∧ ∀ b ∈ ids, map[b]? = some y → b = a

theorem Pending.mono {ids ids' : List GateId} {map : GateMap} {net : Netlist} (h : Pending ids map net)
    (fewer : ids' ⊆ ids) : Pending ids' map net := by
  intro a mem
  obtain ⟨y, mapped, blank, only⟩ := h a (fewer mem)
  exact ⟨y, mapped, blank, fun b mem => only b (fewer mem)⟩

/-- One more gate gets a placeholder. -/
theorem Pending.place {ids : List GateId} {map : GateMap} {net net' : Netlist} (h : Pending ids map net)
    (consistent : net.Consistent) {id image : GateId} (new : id ∉ ids)
    (added : net.addPlaceholder = .ok (image, net')) : Pending (id :: ids) (map.insert id image) net' := by
  obtain ⟨_, reshapes⟩ := reshapes_build added
  have self : (map.insert id image)[id]? = some image := TreeMap.getElem?_insert_self
  have other : ∀ a ∈ ids, (map.insert id image)[a]? = map[a]? := by
    intro a mem
    rw [TreeMap.getElem?_insert, if_neg]
    intro same
    exact new (LawfulEqCmp.eq_of_compare same ▸ mem)
  have apart : ∀ a ∈ ids, map[a]? ≠ some image := by
    intro a mem mapped
    obtain ⟨y, mapped', blank, _⟩ := h a mem
    obtain rfl : y = image := Option.some.inj (mapped'.symm.trans mapped)
    rw [consistent.absent_of_build added] at blank
    cases blank
  intro a mem
  rcases List.mem_cons.mp mem with rfl | mem
  · refine ⟨image, self, reshapes.self, fun b memB mapped => ?_⟩
    rcases List.mem_cons.mp memB with same | memB
    · exact same
    · rw [other b memB] at mapped
      exact absurd mapped (apart b memB)
  · obtain ⟨y, mapped, blank, only⟩ := h a mem
    have away : y ≠ image := by
      rintro rfl
      exact apart a mem mapped
    refine ⟨y, (other a mem).trans mapped, (reshapes.other away).trans blank, fun b memB mapped' => ?_⟩
    rcases List.mem_cons.mp memB with rfl | memB
    · rw [self, Option.some.injEq] at mapped'
      exact absurd mapped'.symm away
    · rw [other b memB] at mapped'
      exact only b memB mapped'

/-- One gate waits no longer. -/
theorem Pending.fill {ids : List GateId} {map : GateMap} {net net' : Netlist} {id image : GateId}
    (h : Pending (id :: ids) map net) (consistent : net.Consistent) (new : id ∉ ids) (mapped : map[id]? = some image)
    {shape : Shape} (set : net.setGate image shape = .ok net') :
    net.shape? image = some ⟨.buffer, []⟩ ∧ Pending ids map net' := by
  have reshapes := reshapes_setGate consistent set
  obtain ⟨y, mapped', blank, _⟩ := h id List.mem_cons_self
  obtain rfl : y = image := Option.some.inj (mapped'.symm.trans mapped)
  refine ⟨blank, fun a mem => ?_⟩
  obtain ⟨z, mappedA, blankA, only⟩ := h a (List.mem_cons_of_mem id mem)
  have away : z ≠ y := by
    rintro rfl
    exact new (only id List.mem_cons_self mapped ▸ mem)
  exact ⟨z, mappedA, (reshapes.other away).trans blankA, fun b memB => only b (List.mem_cons_of_mem id memB)⟩

/-! ## Importing -/

section Loops

variable {host net net' : Netlist} {map map' : GateMap} {ids : List GateId} (consistent : host.Consistent)
include consistent

theorem builds_addImages (nodup : ids.Nodup) (added : host.addImages ids = .ok (map, net)) :
    host.Builds net ∧ Pending ids map net := by
  refine Result.foldlM_done (fun done (s : GateMap × Netlist) => host.Builds s.2 ∧ Pending done s.1 s.2) added
    ⟨.refl, by simp [Pending]⟩ ?_
  intro done id rest s s' split before step
  obtain ⟨builds, pending⟩ := before
  obtain ⟨⟨image, net'⟩, placed, step⟩ := Result.bind_eq_ok.mp step
  cases step
  have new : id ∉ done := by
    rw [split] at nodup
    exact fun mem => List.disjoint_of_nodup_append nodup mem List.mem_cons_self
  refine ⟨.place builds placed, (pending.place (builds.consistent consistent) new placed).mono fun x mem => ?_⟩
  rw [List.mem_cons, or_comm]
  simpa using mem

/-- A driver without an image is no gate that waits, so it gets a placeholder and nothing else changes. -/
theorem builds_importInputs {inputs read : List Signal} (builds : host.Builds net) (pending : Pending ids map net)
    (imported : net.importInputs map inputs = .ok (read, map', net')) : host.Builds net' ∧ Pending ids map' net' := by
  induction inputs generalizing net map read with
  | nil =>
    cases imported
    exact ⟨builds, pending⟩
  | cons s inputs ih =>
    simp only [importInputs] at imported
    split at imported
    · obtain ⟨_, driver, imported⟩ := Result.bind_eq_ok.mp imported
      cases driver
      obtain ⟨_, rest, imported⟩ := Result.bind_eq_ok.mp imported
      cases imported
      exact ih builds pending rest
    · next unmapped =>
      obtain ⟨⟨d, mid⟩, placed, imported⟩ := Result.bind_eq_ok.mp imported
      obtain ⟨_, driver, imported⟩ := Result.bind_eq_ok.mp imported
      cases driver
      obtain ⟨_, rest, imported⟩ := Result.bind_eq_ok.mp imported
      cases imported
      have new : s.driver ∉ ids := by
        intro mem
        obtain ⟨y, mapped, _⟩ := pending s.driver mem
        rw [unmapped] at mapped
        cases mapped
      have placing := pending.place (builds.consistent consistent) new placed
      exact ih (.place builds placed) (placing.mono (List.subset_cons_self _ _)) rest

theorem builds_importGates {other : Netlist} (builds : host.Builds net) (pending : Pending ids map net)
    (nodup : ids.Nodup)
    (imported : ids.foldlM (fun (s : GateMap × Netlist) id => other.importGate s.1 s.2 id) (map, net) =
      .ok (map', net')) : host.Builds net' := by
  induction ids generalizing map net with
  | nil =>
    cases imported
    exact builds
  | cons id ids ih =>
    obtain ⟨new, nodup⟩ := List.nodup_cons.mp nodup
    obtain ⟨⟨map₁, net₁⟩, first, imported⟩ := Result.bind_eq_ok.mp imported
    obtain ⟨gate, _, first⟩ := Result.bind_eq_ok.mp first
    obtain ⟨⟨inputs, map₂, mid⟩, read, first⟩ := Result.bind_eq_ok.mp first
    obtain ⟨image, mapped, first⟩ := Result.bind_eq_ok.mp first
    obtain ⟨net₂, set, first⟩ := Result.bind_eq_ok.mp first
    cases first
    obtain ⟨builds, pending⟩ := builds_importInputs consistent builds pending read
    obtain ⟨blank, pending⟩ :=
      pending.fill (builds.consistent consistent) new (Result.getOrBreach_eq_ok.mp mapped) set
    exact ih (.fill image _ builds blank set) pending nodup imported

theorem builds_copyGates {other : Netlist} (builds : host.Builds net) (pending : Pending ids map net)
    (nodup : ids.Nodup) (copied : ids.foldlM (other.copyGate map) net = .ok net') : host.Builds net' := by
  induction ids generalizing net with
  | nil =>
    cases copied
    exact builds
  | cons id ids ih =>
    obtain ⟨new, nodup⟩ := List.nodup_cons.mp nodup
    obtain ⟨mid, first, copied⟩ := Result.bind_eq_ok.mp copied
    obtain ⟨gate, _, first⟩ := Result.bind_eq_ok.mp first
    obtain ⟨image, mapped, set⟩ := Result.bind_eq_ok.mp first
    obtain ⟨blank, pending⟩ :=
      pending.fill (builds.consistent consistent) new (Result.getOrBreach_eq_ok.mp mapped) set
    exact ih (.fill image _ builds blank set) pending nodup copied

omit consistent in
theorem builds_importParts {other : Netlist} (builds : host.Builds net)
    (imported : net.importParts other map = .ok net') : host.Builds net' := by
  refine Result.foldlM_induction host.Builds other.parts imported builds ?_
  intro net p net' _ before step
  refine Result.foldlM_induction host.Builds p.gates step (.addPart before) ?_
  intro net id net' _ before step
  obtain ⟨image, _, moved⟩ := Result.bind_eq_ok.mp step
  exact .moveGate image _ before moved

/-- An import builds on its host. -/
theorem builds_importNet {other : Netlist} (imports : other.Consistent)
    (imported : host.importNet other = .ok (map, net)) : host.Builds net := by
  obtain ⟨⟨map₁, net₁⟩, images, imported⟩ := Result.bind_eq_ok.mp imported
  obtain ⟨⟨map₂, net₂⟩, gates, imported⟩ := Result.bind_eq_ok.mp imported
  obtain ⟨net₃, parts, imported⟩ := Result.bind_eq_ok.mp imported
  cases imported
  have nodup : other.gates.Nodup := imports.top.accounts.nodup
  obtain ⟨builds, pending⟩ := builds_addImages consistent nodup images
  exact builds_importParts (builds_importGates consistent builds pending nodup gates) parts

end Loops

/-- A copy is built on nothing, and then it is sorted. -/
theorem builds_copy {net image : Netlist} {map : GateMap} (h : net.Consistent) (copied : net.copy = .ok (map, image)) :
    ∃ first mid, Builds { nextId := first } mid ∧ mid.sort = .ok image := by
  obtain ⟨_, _, copied⟩ := Result.bind_eq_ok.mp copied
  obtain ⟨first, _, copied⟩ := Result.bind_eq_ok.mp copied
  obtain ⟨⟨map₁, image₁⟩, images, copied⟩ := Result.bind_eq_ok.mp copied
  obtain ⟨image₂, gates, copied⟩ := Result.bind_eq_ok.mp copied
  obtain ⟨image₃, parts, copied⟩ := Result.bind_eq_ok.mp copied
  obtain ⟨image₄, sorted, copied⟩ := Result.bind_eq_ok.mp copied
  cases copied
  have nodup : net.gates.Nodup := h.top.accounts.nodup
  have unused := consistent_unused first
  obtain ⟨builds, pending⟩ := builds_addImages unused nodup images
  exact ⟨first, image₃, builds_importParts (builds_copyGates unused builds pending nodup gates) parts, sorted⟩

end Netlist

end LogicNet
