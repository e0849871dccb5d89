import LogicNet.Netlist.Consistency
import LogicNet.Netlist.Import
import LogicNet.Proofs.Netlist.Sorting

/-!
# Reachable netlists

A netlist is REACHABLE when it is made from the empty one by operations that returned. Importing and
copying are made of the others, so they bring no case of their own: what every single edit keeps
holds after a loop of edits.

**The law** (`Reachable.consistent`): every reachable netlist is consistent, whatever edits made it
and in whatever order. `Consistent.isConsistent` ties the invariant to the test that can be run.
-/

namespace LogicNet

open Std

namespace Netlist

/-! ## Importing and copying -/

theorem Consistent.addPlaceholder {net net' : Netlist} (h : net.Consistent) {id : GateId}
    (added : net.addPlaceholder = .ok (id, net')) : net'.Consistent := h.build added

theorem Consistent.addImages {net net' : Netlist} (h : net.Consistent) {ids : List GateId} {map : GateMap}
    (added : net.addImages ids = .ok (map, net')) : net'.Consistent := by
  refine Result.foldlM_induction (fun s : GateMap × Netlist => s.2.Consistent) ids added h ?_
  rintro ⟨map, net⟩ id s _ before step
  obtain ⟨⟨image, net'⟩, built, step⟩ := Result.bind_eq_ok.mp step
  cases step
  exact before.addPlaceholder built

theorem Consistent.importInputs {inputs : List Signal} {net net' : Netlist} (h : net.Consistent)
    {map map' : GateMap} {read : List Signal} (imported : net.importInputs map inputs = .ok (read, map', net')) :
    net'.Consistent := by
  induction inputs generalizing net map read with
  | nil =>
    cases imported
    exact h
  | cons s inputs ih =>
    simp only [Netlist.importInputs] at imported
    split at imported
    · obtain ⟨_, driver, imported⟩ := Result.bind_eq_ok.mp imported
      cases driver
      obtain ⟨_, rest, imported⟩ := Result.bind_eq_ok.mp imported
      cases imported
      exact ih h rest
    · obtain ⟨⟨d, mid⟩, built, imported⟩ := Result.bind_eq_ok.mp imported
      obtain ⟨_, driver, imported⟩ := Result.bind_eq_ok.mp imported
      cases driver
      obtain ⟨_, rest, imported⟩ := Result.bind_eq_ok.mp imported
      cases imported
      exact ih (h.addPlaceholder built) rest

theorem Consistent.importGate {other net net' : Netlist} (h : net.Consistent) {map map' : GateMap} {id : GateId}
    (imported : other.importGate map net id = .ok (map', net')) : net'.Consistent := by
  obtain ⟨gate, _, imported⟩ := Result.bind_eq_ok.mp imported
  obtain ⟨⟨inputs, map, mid⟩, read, imported⟩ := Result.bind_eq_ok.mp imported
  obtain ⟨image, _, imported⟩ := Result.bind_eq_ok.mp imported
  obtain ⟨net, set, imported⟩ := Result.bind_eq_ok.mp imported
  cases imported
  exact (h.importInputs read).setGate set

theorem Consistent.importParts {other net net' : Netlist} (h : net.Consistent) {map : GateMap}
    (imported : net.importParts other map = .ok net') : net'.Consistent := by
  refine Result.foldlM_induction Consistent other.parts imported h ?_
  intro net p net' _ before step
  refine Result.foldlM_induction Consistent p.gates step before.addPart ?_
  intro net id net' _ before step
  obtain ⟨image, _, step⟩ := Result.bind_eq_ok.mp step
  exact before.moveGate step

theorem Consistent.importNet {other net net' : Netlist} (h : net.Consistent) {map : GateMap}
    (imported : net.importNet other = .ok (map, net')) : net'.Consistent := by
  obtain ⟨⟨map₁, net₁⟩, images, imported⟩ := Result.bind_eq_ok.mp imported
  obtain ⟨⟨map₂, net₂⟩, gates, imported⟩ := Result.bind_eq_ok.mp imported
  obtain ⟨net₃, parts, imported⟩ := Result.bind_eq_ok.mp imported
  cases imported
  refine Consistent.importParts ?_ parts
  refine Result.foldlM_induction (fun s : GateMap × Netlist => s.2.Consistent) other.gates gates
    (h.addImages images) ?_
  rintro ⟨map, net⟩ id ⟨map', net'⟩ _ before step
  exact before.importGate step

/-- A copy is consistent, whatever it is a copy of. -/
theorem consistent_copy {net image : Netlist} {map : GateMap} (copied : net.copy = .ok (map, image)) :
    image.Consistent := by
  obtain ⟨_, _, copied⟩ := Result.bind_eq_ok.mp copied
  obtain ⟨nextId, _, copied⟩ := Result.bind_eq_ok.mp copied
  obtain ⟨⟨map, image₁⟩, images, copied⟩ := Result.bind_eq_ok.mp copied
  obtain ⟨image₂, gates, copied⟩ := Result.bind_eq_ok.mp copied
  obtain ⟨image₃, parts, copied⟩ := Result.bind_eq_ok.mp copied
  obtain ⟨image₄, sorted, copied⟩ := Result.bind_eq_ok.mp copied
  cases copied
  refine Consistent.sort (Consistent.importParts ?_ parts) sorted
  refine Result.foldlM_induction Consistent net.gates gates ((consistent_unused nextId).addImages images) ?_
  intro image id image' _ before step
  obtain ⟨gate, _, step⟩ := Result.bind_eq_ok.mp step
  obtain ⟨target, _, step⟩ := Result.bind_eq_ok.mp step
  exact before.setGate step

/-! ## Runs -/

/-- Made from the empty netlist by operations that returned. -/
inductive Reachable : Netlist → Prop
  | empty : Reachable .empty
  | addPlaceholder {net net' id} : Reachable net → net.addPlaceholder = .ok (id, net') → Reachable net'
  | addGate {net net' id} (shape : Shape) :
      Reachable net → net.addGate shape = .ok (id, net') → Reachable net'
  | setGate {net net'} (id : GateId) (shape : Shape) :
      Reachable net → net.setGate id shape = .ok net' → Reachable net'
  | removeGate {net net'} (id : GateId) : Reachable net → net.removeGate id = .ok net' → Reachable net'
  | addPart {net} : Reachable net → Reachable net.addPart.2
  | moveGate {net net'} (id : GateId) (dest : Option Nat) :
      Reachable net → net.moveGate id dest = .ok net' → Reachable net'
  | mergeParts {net net'} (left right : Nat) :
      Reachable net → net.mergeParts left right = .ok net' → Reachable net'
  | groupOrphans {net net' n} : Reachable net → net.groupOrphans = .ok (n, net') → Reachable net'
  | flatten {net} : Reachable net → Reachable net.flatten
  | removeEmptyParts {net} : Reachable net → Reachable net.removeEmptyParts
  | importNet {net net' other map} :
      Reachable net → Reachable other → net.importNet other = .ok (map, net') → Reachable net'
  | copy {net image map} : Reachable net → net.copy = .ok (map, image) → Reachable image
  | clear {net} : Reachable net → Reachable net.clear
  | sort {net net'} : Reachable net → net.sort = .ok net' → Reachable net'

theorem Reachable.consistent {net : Netlist} (h : net.Reachable) : net.Consistent := by
  induction h with
  | empty => exact consistent_unused 0
  | addPlaceholder _ added ih => exact ih.addPlaceholder added
  | addGate _ _ added ih => exact ih.addGate added
  | setGate _ _ _ set ih => exact ih.setGate set
  | removeGate _ _ removed ih => exact ih.removeGate removed
  | addPart _ ih => exact ih.addPart
  | moveGate _ _ _ moved ih => exact ih.moveGate moved
  | mergeParts _ _ _ merged ih => exact ih.mergeParts merged
  | groupOrphans _ grouped ih => exact ih.groupOrphans grouped
  | flatten _ ih => exact ih.flatten
  | removeEmptyParts _ ih => exact ih.removeEmptyParts
  | importNet _ _ imported ih _ => exact ih.importNet imported
  | copy _ copied _ => exact consistent_copy copied
  | clear _ _ => exact Consistent.clear _
  | sort _ sorted ih => exact ih.sort sorted

/-- What every added gate keeps is kept by adding several. -/
theorem addAll_induction {P : Netlist → Prop}
    (kept : ∀ {net net' : Netlist} {shape : Shape} {id : GateId}, P net → net.addGate shape = .ok (id, net') → P net')
    {shapes : List Shape} {net net' : Netlist} {ids : List GateId} (h : P net)
    (added : addAll Netlist.addGate net shapes = .ok (ids, net')) : P net' := by
  induction shapes generalizing net ids with
  | nil =>
    cases added
    exact h
  | cons shape shapes ih =>
    obtain ⟨⟨id, mid⟩, first, added⟩ := Result.bind_eq_ok.mp added
    obtain ⟨⟨rest, last⟩, others, added⟩ := Result.bind_eq_ok.mp added
    cases added
    exact ih (kept h first) others

/-- The netlist made by adding gates of these shapes one after the other, if they can all be added. -/
def made (shapes : List Shape) : Netlist := ((addAll addGate .empty shapes).toOption.map Prod.snd).getD .empty

theorem made_induction {P : Netlist → Prop} (empty : P .empty)
    (kept : ∀ {net net' : Netlist} {shape : Shape} {id : GateId}, P net → net.addGate shape = .ok (id, net') → P net')
    (shapes : List Shape) : P (made shapes) := by
  unfold made
  cases added : addAll addGate .empty shapes with
  | error e => exact empty
  | ok result => exact addAll_induction kept empty added

theorem reachable_made (shapes : List Shape) : (made shapes).Reachable :=
  made_induction .empty (fun before added => .addGate _ before added) shapes

/-! ## The test that can be run -/

theorem Consistent.size_gates {net : Netlist} (h : net.Consistent) : net.top.size = net.size := by
  have perm : net.gates.Perm net.table.keys := by
    refine (List.perm_ext_iff_of_nodup h.top.accounts.nodup (nodup_keys net.table)).mpr fun x => ?_
    rw [← h.top.members x, TreeMap.mem_keys, ← TreeMap.contains_iff_mem]
    rfl
  rw [Part.size, size, ← TreeMap.length_keys]
  exact perm.length_eq

theorem sameBoundary_of_bounds {gate? : GateId → Option Gate} {member : GateId → Bool} {p q : Part}
    (hp : Bounds gate? member p) (hq : Bounds gate? member q) : sameBoundary p q = true := by
  have same : ∀ {s t : LinkSet}, (∀ l, l ∈ s ↔ l ∈ t) → s.toList = t.toList :=
    fun mem => (TreeSet.Equiv.of_forall_mem_iff mem).toList_eq
  simp only [sameBoundary, Bool.and_eq_true, beq_iff_eq]
  exact ⟨same fun l => (hp.sources l).trans (hq.sources l).symm,
    same fun l => (hp.targets l).trans (hq.targets l).symm⟩

/-- A consistent netlist passes the test. -/
theorem Consistent.isConsistent {net : Netlist} (h : net.Consistent) : net.isConsistent = true := by
  have rebuilt := h.top.rebuilt h.wired
  simp only [Netlist.isConsistent, Bool.and_eq_true, beq_iff_eq]
  refine ⟨⟨⟨⟨⟨h.size_gates, ?gates⟩, sameBoundary_of_bounds rebuilt.bounds h.top.bounds⟩, ?connects⟩, ?parts⟩,
    ?homes⟩
  case gates =>
    rw [List.all_eq_true]
    rintro ⟨id, g⟩ mem
    have found : net.gate? id = some g := (TreeMap.mem_toList_iff_getElem?_eq_some).mp mem
    simp only [gateIsConsistent, Bool.and_eq_true, beq_iff_eq, List.all_eq_true]
    refine ⟨⟨⟨⟨h.wired.keyed found, ?_⟩, h.wired.valid found⟩, ?_⟩, ?_⟩
    · exact h.top.accounts.indexed.contains_iff.mpr ((h.top.members id).mp (contains_iff.mpr ⟨g, found⟩))
    · intro l mem
      cases driver : net.gate? l.source with
      | none => rfl
      | some d =>
        have edge : IsEdge net.gate? l := by
          rw [Gate.inputLinks, h.wired.keyed found] at mem
          exact (isEdge_iff_mem found (Shape.target_of_mem_inputLinks mem)).mpr mem
        simpa using (h.wired.fanout driver l).mpr ⟨rfl, edge⟩
    · exact fun l mem => hasEdge_iff.mpr ((h.wired.fanout found l).mp mem).2
  case connects => rw [rebuilt.accounts.connects, h.top.accounts.connects, Part.rebuild_gates]
  case parts =>
    rw [List.all_eq_true]
    rintro ⟨p, n⟩ mem
    have found : net.parts[n]? = some p := List.mem_zipIdx_iff_getElem?.mp mem
    have part := h.parts n p found
    simp only [Bool.and_eq_true, List.all_eq_true, beq_iff_eq]
    refine ⟨⟨?_, sameBoundary_of_bounds (part.rebuilt h.wired).bounds part.bounds⟩,
      fun id mem => (part.members id).mpr mem⟩
    rw [Bool.eq_iff_iff, TreeSet.contains_iff_mem, h.tallied.emptied n, found, Option.map_some, Option.some.injEq,
      Part.isEmpty, List.isEmpty_iff]
  case homes => rw [h.tallied.housed, h.home_size, List.sum_eq_foldl, List.foldl_map]

/-! ## The law, spelled out -/

/-- Everything a netlist keeps beside its gate table is what the table says. -/
structure Faithful (net : Netlist) : Prop where
  /-- The list of all gates names each gate of the table once. -/
  listed : net.gates.Nodup ∧ ∀ id, id ∈ net.gates ↔ ∃ g, net.gate? id = some g
  valid : ∀ id g, net.gate? id = some g → g.id = id ∧ g.isValid = true
  /-- The fan-out of a gate names each input that it drives once. -/
  fanout : ∀ d g, net.gate? d = some g → g.fanout.Nodup ∧
    ∀ l, l ∈ g.fanout ↔ ∃ (t : GateId) (i : Nat) (reader : Gate) (x : Signal), l = .edge d t i ∧
      net.gate? t = some reader ∧ reader.inputs[i]? = some x ∧ x.driver = d
  top : Covers net.gate? net.contains net.top
  parts : ∀ (n : Nat) (p : Part), net.parts[n]? = some p → Covers net.gate? (net.inPart n) p
  /-- A gate is at home in a part exactly if the part lists it. -/
  homes : ∀ (id : GateId) (n : Nat),
    net.partOf? id = some n ↔ ∃ p, net.parts[n]? = some p ∧ id ∈ p.gates
  /-- The count of the gates in parts is how many have a home, and what the parts hold together. -/
  housed : net.housed = net.home.size ∧ net.home.size = (net.parts.map Part.size).sum
  /-- The set of empty parts names each part that lists no gate, and nothing else. -/
  emptied : ∀ n : Nat, n ∈ net.emptyParts ↔ ∃ p, net.parts[n]? = some p ∧ p.gates = []
  orphans : net.hasOrphans = true ↔ ∃ id, net.contains id = true ∧ net.partOf? id = none
  hollow : net.hasEmptyParts = true ↔ ∃ p ∈ net.parts, p.gates = []
  shared : ∀ (s : Shape) (id : GateId), net.shared[s]? = some id →
    s.isShareable = true ∧ ∃ g, net.gate? id = some g ∧ g.toShape = s
  tested : net.isConsistent = true

/-- THE REPRESENTATION INVARIANT holds after every run. -/
theorem Reachable.faithful {net : Netlist} (h : net.Reachable) : net.Faithful := by
  have consistent := h.consistent
  have wired := consistent.wired
  constructor
  case listed =>
    refine ⟨consistent.top.accounts.nodup, fun id => ?_⟩
    rw [← contains_iff]
    exact (consistent.top.members id).symm
  case valid => exact fun id g found => ⟨wired.keyed found, wired.valid found⟩
  case fanout =>
    intro d g found
    refine ⟨wired.nodup found, fun l => ?_⟩
    rw [wired.fanout found l]
    constructor
    · rintro ⟨rfl, reader, here, mem⟩
      obtain ⟨i, x, read, eq⟩ := Shape.mem_inputLinks.mp mem
      have driver : x.driver = l.source := by rw [eq]; rfl
      exact ⟨l.target, i, reader, x, by rw [← driver]; exact eq, here, read, driver⟩
    · rintro ⟨t, i, reader, x, rfl, here, read, rfl⟩
      exact ⟨rfl, reader, here, Shape.mem_inputLinks.mpr ⟨i, x, read, rfl⟩⟩
  case top => exact consistent.top
  case parts => exact consistent.parts
  case homes =>
    intro id n
    constructor
    · intro home
      have found := List.getElem?_eq_getElem (consistent.homes id n home)
      exact ⟨_, found, ((consistent.parts n _ found).members id).mp (inPart_iff.mpr home)⟩
    · rintro ⟨p, found, mem⟩
      exact inPart_iff.mp (((consistent.parts n p found).members id).mpr mem)
  case housed => exact ⟨consistent.tallied.housed, consistent.home_size⟩
  case emptied =>
    intro n
    rw [consistent.tallied.emptied n, Option.map_eq_some_iff]
  case orphans => exact consistent.hasOrphans_iff
  case hollow => simpa [Part.isEmpty] using consistent.tallied.hasEmptyParts_iff
  case shared =>
    intro s id found
    obtain ⟨shareable, shape⟩ := consistent.shared s id found
    exact ⟨shareable, Option.map_eq_some_iff.mp shape⟩
  case tested => exact consistent.isConsistent

/-- A run with a part on the way of a signal, a gate that is made to read itself, and a driver that is
removed under its reader. -/
def sampleRun : Result Netlist := do
  let (a, net) ← Netlist.empty.addInput
  let (b, net) ← net.addInput
  let (c, net) ← net.addNary .and [a, b]
  let (_, net) ← net.addOutput c
  let (n, net) := net.addPart
  let net ← net.moveGate c (some n)
  let net ← net.setGate c ⟨.flipFlop, [.plain c, ⟨.rising, b⟩]⟩
  net.removeGate b

theorem sampleRun_faithful : ∃ net, sampleRun = .ok net ∧ net.Reachable ∧ net.Faithful := by
  obtain ⟨net, run⟩ : ∃ net, sampleRun = .ok net := Result.exists_ok (by decide +kernel)
  refine ⟨net, run, ?_⟩
  obtain ⟨⟨a, net₁⟩, addA, run⟩ := Result.bind_eq_ok.mp run
  obtain ⟨⟨b, net₂⟩, addB, run⟩ := Result.bind_eq_ok.mp run
  obtain ⟨⟨c, net₃⟩, addC, run⟩ := Result.bind_eq_ok.mp run
  obtain ⟨⟨d, net₄⟩, addD, run⟩ := Result.bind_eq_ok.mp run
  obtain ⟨net₅, move, run⟩ := Result.bind_eq_ok.mp run
  obtain ⟨net₆, set, remove⟩ := Result.bind_eq_ok.mp run
  have inputs : net₂.Reachable := .addGate _ (.addGate _ .empty addA) addB
  have built : net₄.Reachable := .addGate (.nary .output [c]) (.addGate (.nary .and [a, b]) inputs addC) addD
  have reachable : net.Reachable := .removeGate _ (.setGate _ _ (.moveGate _ _ built.addPart move) set) remove
  exact ⟨reachable, reachable.faithful⟩

end Netlist

end LogicNet
