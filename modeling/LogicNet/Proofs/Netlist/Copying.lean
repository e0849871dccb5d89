import LogicNet.Proofs.Netlist.Renaming
import LogicNet.Proofs.Valuation

/-!
# Copies

A copy is built by the same edits as every netlist: a placeholder for each gate, then the function of each gate,
then the parts, and at last it is sorted. Each stage is described by what it has done so far (`Placed`, `Filled`,
`Divided`), and one edit adds one gate to it.

**The law** (`copies_of_copy`): the copy is the image of the netlist under the correspondence that comes with it,
divided in the same way, and it has no loops, unless it is a single gate. Drivers outside keep their identifiers,
which no gate of the copy has, because the numbers of the copy start above them.
-/

namespace LogicNet

open Std

namespace Netlist

/-! ## What one edit does -/

/-- The shape of a gate. -/
def shape? (net : Netlist) (id : GateId) : Option Shape := (net.gate? id).map Gate.toShape

theorem known_iff_shape? {net : Netlist} {id : GateId} : (∃ g, net.gate? id = some g) ↔ net.shape? id ≠ none := by
  rw [shape?, ne_eq, Option.map_eq_none_iff, ← ne_eq, Option.ne_none_iff_exists']

/-- The order is not relied on, unless there is nothing to order. -/
def Disturbed (net : Netlist) : Prop := net.top.sorted = true → net.top.size ≤ 1

/-- One gate has this shape now. All other gates, the parts and the homes are as before. -/
structure Reshapes (net net' : Netlist) (id : GateId) (shape : Shape) : Prop where
  shapes : net'.shape? = Function.update net.shape? id (some shape)
  home : net'.home = net.home
  length : net'.parts.length = net.parts.length
  more : net.nextId ≤ net'.nextId
  disturbed : net'.Disturbed

/-- A gate is known that was known, or that has a shape now. -/
theorem Reshapes.known_iff {net net' : Netlist} {id : GateId} {shape : Shape} (h : Reshapes net net' id shape)
    {y : GateId} : (∃ g, net'.gate? y = some g) ↔ y = id ∨ ∃ g, net.gate? y = some g := by
  rw [known_iff_shape?, known_iff_shape?, h.shapes, Function.update_apply]
  by_cases same : y = id <;> simp [same]

theorem gate?_settled (net : Netlist) (id : GateId) (extra : List Link) (left : Option Nat) (g : Gate) :
    ((net.refresh id extra left).register g).gate? = net.gate? := by
  unfold register
  split <;> rfl

theorem gates_settled (net : Netlist) (id : GateId) (extra : List Link) (left : Option Nat) (g : Gate) :
    ((net.refresh id extra left).register g).gates = net.gates := by
  have same : Part.SameGates net.top (net.refresh id extra left).top := settle_sameGates ..
  unfold register
  split <;> exact same.gates

theorem Disturbed.refresh {net : Netlist} (h : net.Disturbed) (id : GateId) (extra : List Link) (left : Option Nat) :
    (net.refresh id extra left).Disturbed := by
  have same : Part.SameGates net.top (net.refresh id extra left).top := settle_sameGates ..
  unfold Disturbed Part.size
  rw [same.sorted, same.gates]
  exact h

theorem Disturbed.settled {net : Netlist} (h : net.Disturbed) (id : GateId) (extra : List Link) (left : Option Nat)
    (g : Gate) : ((net.refresh id extra left).register g).Disturbed := by
  unfold register
  split <;> exact h.refresh id extra left

theorem disturbed_of_top {net : Netlist} {p : Part} (top : net.top = p.disturb) : net.Disturbed := by
  unfold Disturbed
  rw [top]
  exact of_decide_eq_true

theorem parts_settled (net : Netlist) (id : GateId) (extra : List Link) (left : Option Nat) (g : Gate) :
    ((net.refresh id extra left).register g).parts.length = net.parts.length := by
  unfold register
  split <;> simp [refresh]

theorem home_settled (net : Netlist) (id : GateId) (extra : List Link) (left : Option Nat) (g : Gate) :
    ((net.refresh id extra left).register g).home = net.home := by
  unfold register
  split <;> rfl

theorem next_settled (net : Netlist) (id : GateId) (extra : List Link) (left : Option Nat) (g : Gate) :
    ((net.refresh id extra left).register g).nextId = net.nextId := by
  unfold register
  split <;> rfl

/-- A gate that is changed by itself and settled has its shape, and the others have theirs. -/
theorem shapes_settled {net mid : Netlist} {g : Gate} (others : ∀ x ≠ g.id, SameShape mid.gate? net.gate? x)
    (holds : Holds mid.gate? g) (id : GateId) (extra : List Link) (left : Option Nat) :
    ((mid.refresh id extra left).register g).shape? = Function.update net.shape? g.id (some g.toShape) := by
  funext x
  rw [shape?, gate?_settled]
  by_cases here : x = g.id
  · rw [here, Function.update_self]
    exact holds
  · rw [Function.update_of_ne here]
    exact others x here

theorem reshapes_build {net net' : Netlist} {shape : Shape} {id : GateId} (built : net.build shape = .ok (id, net')) :
    net.nextId ≤ id.index ∧ Reshapes net net' id shape := by
  obtain ⟨mid, b, rfl⟩ := build_spec built
  refine ⟨b.fresh, shapes_settled b.shapes b.holds id [] none, ?_, ?_, ?_, ?_⟩
  · rw [home_settled, b.home]
  · rw [parts_settled, b.parts]
  · rw [next_settled, b.next]
    exact Nat.le_succ_of_le b.fresh
  · exact Disturbed.settled (disturbed_of_top b.top) id [] none _

theorem reshapes_setGate {net net' : Netlist} (h : net.Consistent) {shape : Shape} {id : GateId}
    (set : net.setGate id shape = .ok net') : Reshapes net net' id shape := by
  obtain ⟨old, g, mid, rfl, c, rfl⟩ := setGate_spec set
  obtain rfl := c.keyed h
  refine ⟨shapes_settled c.shapes (c.holds h) g.id old.inputLinks none, ?_, ?_, ?_, ?_⟩
  · rw [home_settled, c.home]
  · rw [parts_settled, c.length]
  · rw [next_settled]
    exact c.more
  · exact Disturbed.settled (disturbed_of_top c.top) g.id old.inputLinks none g

/-- One gate is in this part now. All other homes, the gates and the number of parts are as before. -/
structure Moves (net net' : Netlist) (id : GateId) (dest : Option Nat) : Prop where
  gates : net'.gate? = net.gate?
  homes : net'.partOf? = Function.update net.partOf? id dest
  length : net'.parts.length = net.parts.length
  disturbed : net.Disturbed → net'.Disturbed

theorem moves_moveGate {net net' : Netlist} (h : net.Consistent) {id : GateId} {dest : Option Nat}
    (moved : net.moveGate id dest = .ok net') : Moves net net' id dest := by
  obtain ⟨g, found, _, ⟨stays, rfl⟩ | ⟨_, rfl⟩⟩ := moveGate_spec moved
  · refine ⟨rfl, ?_, rfl, fun disturbed => disturbed⟩
    rw [← stays, Function.update_eq_self]
  · refine ⟨gate?_rehome net id g dest, ?_, by simp [refresh], fun _ => ?_⟩
    · funext x
      rw [Function.update_apply]
      exact partOf?_rehome net id g dest x
    · have disturbed : (net.rehome id g dest).Disturbed := disturbed_of_top (top_rehome net id g dest)
      exact disturbed.refresh id [] (net.partOf? id)

theorem next_moveGate {net net' : Netlist} (h : net.Consistent) {id : GateId} {dest : Option Nat}
    (moved : net.moveGate id dest = .ok net') : net'.nextId = net.nextId := by
  obtain ⟨g, found, _, ⟨_, rfl⟩ | ⟨_, rfl⟩⟩ := moveGate_spec moved
  · rfl
  · exact nextId_rehome net id g dest

/-! ## Sorting -/

/-- Sorting changes orders only. What was sorted has no loops, unless it is a single gate. -/
theorem sort_spec {net net' : Netlist} (h : net.Consistent) (disturbed : net.Disturbed)
    (sorted : net.sort = .ok net') : net'.gate? = net.gate? ∧ net'.home = net.home ∧
      net'.parts.length = net.parts.length ∧ (net'.top.size ≤ 1 ∨ net'.view.Acyclic) := by
  rcases sort_cases sorted with ⟨marked, rfl⟩ | ⟨_, order, orders, finds, rfl⟩
  · refine ⟨rfl, rfl, rfl, .inl ?_⟩
    rcases (Bool.or_eq_true _ _).mp marked with flag | few
    · exact disturbed flag
    · exact of_decide_eq_true few
  · have takes := finds.takes h
    refine ⟨rfl, rfl, by simp [Netlist.arrange, takes.length], .inr ?_⟩
    exact View.acyclic_of_ordered (fun _ mem => mem) takes.ordered fun id mem =>
      takes.irrefl id (takes.perm.mem_iff.mp mem)

/-! ## Placeholders -/

/-- A netlist whose gates are the images of some gates, numbered from `first` on, and not divided. -/
structure Placed (first : Nat) (ids : List GateId) (map : GateMap) (image : Netlist) : Prop where
  consistent : image.Consistent
  keys : ∀ id, id ∈ map ↔ id ∈ ids
  values : ∀ id', (∃ id : GateId, map[id]? = some id') ↔ ∃ g, image.gate? id' = some g
  injective : ∀ {a b id' : GateId}, map[a]? = some id' → map[b]? = some id' → a = b
  above : ∀ {id id' : GateId}, map[id]? = some id' → first ≤ id'.index
  room : first ≤ image.nextId
  orphans : ∀ id, image.partOf? id = none
  undivided : image.parts.length = 0
  disturbed : image.Disturbed

theorem placed_nothing (first : Nat) : Placed first [] {} { nextId := first } where
  consistent := consistent_unused first
  keys := by simp
  values := by simp [gate?]
  injective := by simp
  above := by simp
  room := Nat.le_refl first
  orphans := by simp [partOf?]
  undivided := rfl
  disturbed := nofun

theorem Placed.add {first : Nat} {ids : List GateId} {map : GateMap} {image image' : Netlist}
    (h : Placed first ids map image) {id id' : GateId} (new : id ∉ ids)
    (added : image.addPlaceholder = .ok (id', image')) : Placed first (ids ++ [id]) (map.insert id id') image' := by
  obtain ⟨fresh, reshapes⟩ := reshapes_build added
  have unmapped : map[id]? = none := TreeMap.getElem?_eq_none fun mem => new ((h.keys id).mp mem)
  have absent : ∀ a : GateId, map[a]? ≠ some id' := by
    intro a mapped
    obtain ⟨g, known⟩ := (h.values id').mp ⟨a, mapped⟩
    have := h.consistent.wired.given known
    omega
  have mapped : ∀ {a y : GateId}, (map.insert id id')[a]? = some y ↔ (a = id ∧ y = id') ∨ map[a]? = some y := by
    intro a y
    rw [TreeMap.getElem?_insert]
    split
    · next same =>
      obtain rfl := LawfulEqCmp.eq_of_compare same
      simp [unmapped, eq_comm]
    · next other =>
      have : a ≠ id := fun same => other (by rw [same]; exact ReflCmp.compare_self)
      simp [this]
  constructor
  case consistent => exact h.consistent.addPlaceholder added
  case keys =>
    intro a
    rw [TreeMap.mem_insert, LawfulEqCmp.compare_eq_iff_eq, h.keys, List.mem_append, List.mem_singleton, eq_comm, or_comm]
  case values =>
    intro y
    rw [reshapes.known_iff, ← h.values]
    constructor
    · intro value
      obtain ⟨a, value⟩ := value
      rcases mapped.mp value with ⟨_, same⟩ | before
      · exact .inl same
      · exact .inr ⟨a, before⟩
    · intro value
      rcases value with same | ⟨a, before⟩
      · exact ⟨id, mapped.mpr (.inl ⟨rfl, same⟩)⟩
      · exact ⟨a, mapped.mpr (.inr before)⟩
  case injective =>
    intro a b y atA atB
    rcases mapped.mp atA with ⟨newA, isNew⟩ | oldA
    · rcases mapped.mp atB with ⟨newB, _⟩ | oldB
      · rw [newA, newB]
      · rw [isNew] at oldB
        exact absurd oldB (absent b)
    · rcases mapped.mp atB with ⟨_, isNew⟩ | oldB
      · rw [isNew] at oldA
        exact absurd oldA (absent a)
      · exact h.injective oldA oldB
  case above =>
    intro a y value
    rcases mapped.mp value with ⟨_, rfl⟩ | before
    · exact Nat.le_trans h.room fresh
    · exact h.above before
  case room => exact Nat.le_trans h.room reshapes.more
  case orphans =>
    intro y
    rw [partOf?_congr reshapes.home]
    exact h.orphans y
  case undivided => rw [reshapes.length, h.undivided]
  case disturbed => exact reshapes.disturbed

theorem placed_addImages {first : Nat} {ids : List GateId} {map : GateMap} {image : Netlist} (nodup : ids.Nodup)
    (added : addImages { nextId := first } ids = .ok (map, image)) : Placed first ids map image := by
  refine Result.foldlM_done (fun done (s : GateMap × Netlist) => Placed first done s.1 s.2) added
    (placed_nothing first) ?_
  intro done id rest s s' split before step
  obtain ⟨⟨id', image'⟩, placeholder, step⟩ := Result.bind_eq_ok.mp step
  cases step
  refine before.add (fun mem => ?_) placeholder
  rw [split] at nodup
  exact List.disjoint_of_nodup_append nodup mem List.mem_cons_self

/-! ## Functions -/

/-- Some of the placeholders have the functions of their gates. -/
structure Filled (net : Netlist) (map : GateMap) (first : Nat) (done : List GateId) (image : Netlist) : Prop
    extends Placed first net.gates map image where
  filled : ∀ id ∈ done, ∀ g, net.gate? id = some g → image.shape? (map.image id) = some (g.toShape.rename map.image)

theorem Filled.add {net : Netlist} {map : GateMap} {first : Nat} {done : List GateId} {image image' : Netlist}
    (h : Filled net map first done image) (inside : ∀ x ∈ done, x ∈ net.gates) {id : GateId} (copied : net.copyGate map image id = .ok image') :
    Filled net map first (done ++ [id]) image' := by
  obtain ⟨g, found, copied⟩ := Result.bind_eq_ok.mp copied
  obtain ⟨id', mapped, set⟩ := Result.bind_eq_ok.mp copied
  have mapped := Result.getOrBreach_eq_ok.mp mapped
  have reshapes := reshapes_setGate h.consistent set
  have known : ∀ y, (∃ g, image'.gate? y = some g) ↔ ∃ g, image.gate? y = some g := by
    intro y
    refine reshapes.known_iff.trans (or_iff_right_of_imp fun same => ?_)
    rw [same]
    exact (h.values id').mp ⟨id, mapped⟩
  refine ⟨⟨h.consistent.setGate set, h.keys, fun y => (h.values y).trans (known y).symm, h.injective, h.above,
    Nat.le_trans h.room reshapes.more, fun y => ?_, reshapes.length.trans h.undivided, reshapes.disturbed⟩, ?_⟩
  · rw [partOf?_congr reshapes.home]
    exact h.orphans y
  · intro x mem gx foundX
    rw [reshapes.shapes]
    by_cases same : x = id
    · obtain rfl : g = gx := Option.some.inj ((gate_eq_ok.mp found).symm.trans (by rw [← same]; exact foundX))
      rw [same, GateMap.image_eq mapped, Function.update_self]
      rfl
    · have before : x ∈ done := by
        rcases List.mem_append.mp mem with before | last
        · exact before
        · exact absurd (List.mem_singleton.mp last) same
      rw [Function.update_of_ne]
      · exact h.filled x before gx foundX
      · intro image
        obtain ⟨y, mappedX⟩ := Option.isSome_iff_exists.mp
          (TreeMap.mem_iff_isSome_getElem?.mp ((h.keys x).mpr (inside x before)))
        rw [GateMap.image_eq mappedX] at image
        rw [image] at mappedX
        exact same (h.injective mappedX mapped)

/-! ## Parts -/

/-- The gates of each part, as they stand. -/
def partGates (net : Netlist) : List (List GateId) := net.parts.map Part.gates

theorem Consistent.partOf?_eq_some {net : Netlist} (h : net.Consistent) {id : GateId} {n : Nat} :
    net.partOf? id = some n ↔ ∃ ids, net.partGates[n]? = some ids ∧ id ∈ ids := by
  rw [partGates, List.getElem?_map]
  constructor
  · intro home
    have found := List.getElem?_eq_getElem (h.homes id n home)
    exact ⟨_, by rw [found]; rfl, ((h.parts n _ found).members id).mp (inPart_iff.mpr home)⟩
  · intro inside
    obtain ⟨_, listed, mem⟩ := inside
    obtain ⟨p, found, rfl⟩ := Option.map_eq_some_iff.mp listed
    exact inPart_iff.mp (((h.parts n p found).members id).mpr mem)

theorem partGates_refresh (net : Netlist) (id : GateId) (extra : List Link) (left : Option Nat) :
    (net.refresh id extra left).partGates = net.partGates := by
  refine List.ext_getElem? fun n => ?_
  rw [partGates, partGates, List.getElem?_map, List.getElem?_map, refresh_gates]

/-- A gate that was in no part comes last in the part it is moved to. -/
theorem partGates_moveGate {net net' : Netlist} (h : net.Consistent) {id : GateId} (orphan : net.partOf? id = none)
    {n : Nat} (moved : net.moveGate id (some n) = .ok net') : net'.partGates = net.partGates.modify n (· ++ [id]) := by
  obtain ⟨g, found, _, ⟨stays, _⟩ | ⟨elsewhere, rfl⟩⟩ := moveGate_spec moved
  · rw [orphan] at stays
    cases stays
  obtain rfl := h.wired.keyed found
  rw [partGates_refresh]
  refine List.ext_getElem? fun m => ?_
  have away : ¬net.inPart m g.id = true := by simp [inPart_iff, orphan]
  simp only [partGates, List.getElem?_map, List.getElem?_modify, getElem?_rehome elsewhere, Option.map_map]
  cases net.parts[m]? with
  | none => rfl
  | some p =>
    simp only [Option.map_some, Function.comp_apply, if_neg away, Option.some.injEq, Option.map_eq_map]
    split
    · rfl
    · rfl


/-- The netlist was divided further. It has more parts, and they consist of these gates. -/
structure Divided (net : Netlist) (lists : List (List GateId)) (net' : Netlist) : Prop where
  consistent : net'.Consistent
  gates : net'.gate? = net.gate?
  next : net'.nextId = net.nextId
  lists : net'.partGates = net.partGates ++ lists
  disturbed : net.Disturbed → net'.Disturbed

section

variable {net net' net'' other : Netlist} {lists : List (List GateId)} {map : GateMap}

theorem Divided.length (h : Divided net lists net') : net'.parts.length = net.parts.length + lists.length := by
  simpa [partGates] using congrArg List.length h.lists

theorem Divided.addPart (h : Divided net lists net') : Divided net (lists ++ [[]]) net'.addPart.2 where
  consistent := h.consistent.addPart
  gates := h.gates
  next := h.next
  lists := by
    rw [← List.append_assoc, ← h.lists]
    simp [partGates, Netlist.addPart]
  disturbed := h.disturbed

/-- A gate is where it was or in one of the new parts. -/
theorem Divided.home_cases (h : Divided net lists net') (consistent : net.Consistent) {id : GateId} {n : Nat}
    (home : net'.partOf? id = some n) :
    net.partOf? id = some n ∨ ∃ k ids, n = net.parts.length + k ∧ lists[k]? = some ids ∧ id ∈ ids := by
  obtain ⟨ids, listed, mem⟩ := h.consistent.partOf?_eq_some.mp home
  rw [h.lists] at listed
  rcases Nat.lt_or_ge n net.partGates.length with before | after
  · rw [List.getElem?_append_left before] at listed
    exact .inl (consistent.partOf?_eq_some.mpr ⟨ids, listed, mem⟩)
  · rw [List.getElem?_append_right after] at listed
    have start : net.partGates.length = net.parts.length := List.length_map _
    exact .inr ⟨n - net.partGates.length, ids, by omega, listed, mem⟩

/-- A gate of no part joins the last part. -/
theorem Divided.move (consistent : net.Consistent) {ids : List GateId} (h : Divided net (lists ++ [ids]) net')
    {id : GateId} (orphan : net.partOf? id = none) (new : ∀ ids' ∈ lists ++ [ids], id ∉ ids')
    (moved : net'.moveGate id (some (net.parts.length + lists.length)) = .ok net'') :
    Divided net (lists ++ [ids ++ [id]]) net'' := by
  have orphan' : net'.partOf? id = none := by
    refine Option.eq_none_iff_forall_ne_some.mpr fun n home => ?_
    rcases h.home_cases consistent home with before | ⟨_, ids', _, listed, mem⟩
    · rw [orphan] at before
      cases before
    · exact new ids' (List.mem_of_getElem? listed) mem
  have moves := moves_moveGate h.consistent moved
  refine ⟨h.consistent.moveGate moved, moves.gates.trans h.gates, (next_moveGate h.consistent moved).trans h.next, ?_,
    fun disturbed => moves.disturbed (h.disturbed disturbed)⟩
  have last : net.parts.length + lists.length = (net.partGates ++ lists).length := by simp [partGates]
  rw [partGates_moveGate h.consistent orphan' moved, h.lists, last, ← List.append_assoc, ← List.append_assoc]
  generalize net.partGates ++ lists = before
  simp [List.modify_eq_take_drop]

/-- The images of the gates of some parts, part by part. -/
def imagesOf (map : GateMap) (parts : List Part) : List (List GateId) := parts.map fun p => p.gates.map map.image

/-- A gate whose turn comes has not been moved: it is in one part only, and there once. -/
theorem not_mem_imagesOf (consistent : other.Consistent)
    (injective : ∀ {a b : GateId} {g g' : Gate}, other.gate? a = some g → other.gate? b = some g' →
      map.image a = map.image b → a = b)
    {done rest : List Part} {p : Part} (split : other.parts = done ++ p :: rest) {moved others : List GateId} {id : GateId}
    (inside : p.gates = moved ++ id :: others) :
    ∀ ids ∈ imagesOf map done ++ [moved.map map.image], map.image id ∉ ids := by
  have here : other.parts[done.length]? = some p := by simp [split]
  have covers := consistent.parts _ p here
  have mem : id ∈ p.gates := by
    rw [inside]
    exact List.mem_append_right moved List.mem_cons_self
  obtain ⟨g, known⟩ := covers.accounts.known id mem
  intro ids listed image
  rcases List.mem_append.mp listed with earlier | same
  · obtain ⟨q, before, rfl⟩ := List.mem_map.mp earlier
    obtain ⟨x, member, equal⟩ := List.mem_map.mp image
    obtain ⟨n, found⟩ := List.mem_iff_getElem?.mp before
    obtain ⟨lt, _⟩ := List.getElem?_eq_some_iff.mp found
    have there : other.parts[n]? = some q := by rw [split, List.getElem?_append_left lt, found]
    have coversQ := consistent.parts n q there
    obtain ⟨gx, knownX⟩ := coversQ.accounts.known x member
    rw [injective knownX known equal] at member
    have home := inPart_iff.mp ((coversQ.members id).mpr member)
    rw [inPart_iff.mp ((covers.members id).mpr mem), Option.some.injEq] at home
    omega
  · rw [List.mem_singleton.mp same] at image
    obtain ⟨x, member, equal⟩ := List.mem_map.mp image
    have nodup := covers.accounts.nodup
    obtain ⟨gx, knownX⟩ := covers.accounts.known x (by rw [inside]; exact List.mem_append_left _ member)
    rw [injective knownX known equal] at member
    rw [inside] at nodup
    exact List.disjoint_of_nodup_append nodup member List.mem_cons_self

/-- Importing the parts of another netlist appends them, with the images of their gates. -/
theorem divided_importParts (consistent : net.Consistent) (others : other.Consistent)
    (injective : ∀ {a b : GateId} {g g' : Gate}, other.gate? a = some g → other.gate? b = some g' →
      map.image a = map.image b → a = b)
    (orphans : ∀ {id : GateId} {g : Gate}, other.gate? id = some g → net.partOf? (map.image id) = none)
    (imported : net.importParts other map = .ok net') : Divided net (imagesOf map other.parts) net' := by
  refine Result.foldlM_done (fun done s => Divided net (imagesOf map done) s) imported
    ⟨consistent, rfl, rfl, (List.append_nil _).symm, fun disturbed => disturbed⟩ ?_
  intro done p rest s s' split divided step
  have here : other.parts[done.length]? = some p := by simp [split]
  have last : s.parts.length = net.parts.length + (imagesOf map done).length := divided.length
  rw [imagesOf, List.map_append, ← imagesOf, List.map_cons, List.map_nil]
  refine Result.foldlM_done (fun moved s => Divided net (imagesOf map done ++ [moved.map map.image]) s) step
    divided.addPart ?_
  intro moved id more s s' inside dividing step
  obtain ⟨id', mapped, move⟩ := Result.bind_eq_ok.mp step
  have image := GateMap.image_eq (Result.getOrBreach_eq_ok.mp mapped)
  rw [← image, last] at move
  obtain ⟨g, known⟩ := (others.parts _ p here).accounts.known id (by
    rw [inside]
    exact List.mem_append_right moved List.mem_cons_self)
  rw [List.map_append]
  exact dividing.move consistent (orphans known) (not_mem_imagesOf others injective split inside) move

/-- The image of a gate is in the part that the part of the gate has become. -/
theorem Divided.home_image (h : Divided net (imagesOf map other.parts) net') (consistent : net.Consistent)
    (others : other.Consistent)
    (injective : ∀ {a b : GateId} {g g' : Gate}, other.gate? a = some g → other.gate? b = some g' →
      map.image a = map.image b → a = b)
    {id : GateId} {g : Gate} (found : other.gate? id = some g) (orphan : net.partOf? (map.image id) = none) :
    net'.partOf? (map.image id) = (other.partOf? id).map (net.parts.length + ·) := by
  cases home : other.partOf? id with
  | some k =>
    have here := List.getElem?_eq_getElem (others.homes id k home)
    have mem := ((others.parts k _ here).members id).mp (inPart_iff.mpr home)
    refine h.consistent.partOf?_eq_some.mpr ⟨_, ?_, List.mem_map_of_mem mem⟩
    have start : net.partGates.length = net.parts.length := List.length_map _
    rw [h.lists, List.getElem?_append_right (by rw [start]; exact Nat.le_add_right _ _), start, Nat.add_sub_cancel_left,
      imagesOf, List.getElem?_map, here]
    rfl
  | none =>
    refine Option.eq_none_iff_forall_ne_some.mpr fun n home' => ?_
    rcases h.home_cases consistent home' with before | ⟨k, _, _, listed, mem⟩
    · rw [orphan] at before
      cases before
    · rw [imagesOf, List.getElem?_map] at listed
      obtain ⟨p, here, rfl⟩ := Option.map_eq_some_iff.mp listed
      obtain ⟨x, member, equal⟩ := List.mem_map.mp mem
      have covers := others.parts _ p here
      obtain ⟨gx, known⟩ := covers.accounts.known x member
      rw [injective known found equal] at member
      rw [inPart_iff.mp ((covers.members id).mpr member)] at home
      cases home

end

/-! ## The whole copy -/

/-- The second netlist is a copy of the first, by this correspondence of gates. -/
structure Copies (net : Netlist) (map : GateMap) (image : Netlist) : Prop where
  pairs : map.Pairs net image
  isImage : IsImage map.image net image
  length : image.parts.length = net.parts.length
  homes : ∀ {id : GateId} {g : Gate}, net.gate? id = some g → image.partOf? (map.image id) = net.partOf? id
  loopless : image.top.size ≤ 1 ∨ image.view.Acyclic

/-- A driver that is no gate is below the numbers that a copy begins with. -/
theorem external_lt {net : Netlist} (h : net.Consistent) {first : Nat}
    (reserved : reserve 0 (net.externalDrivers.map Signal.plain) = .ok first) {id : GateId} (mentioned : net.Mentions id)
    (external : net.gate? id = none) : id.index < first := by
  rcases mentioned with ⟨g, known⟩ | ⟨t, g, s, found, read, rfl⟩
  · rw [external] at known
    cases known
  · obtain ⟨i, edge⟩ := exists_edge_of_read found read
    have outside : net.contains s.driver = false := by rw [contains_eq_isSome, external]; rfl
    have crosses : (net.contains t && !net.contains s.driver) = true := by
      rw [outside, contains_iff.mpr ⟨g, found⟩]
      rfl
    have enters : Link.edge s.driver t i ∈ net.sources := (h.top.bounds.sources _).mpr (.inr ⟨edge, crosses⟩)
    have listed : Link.edge s.driver t i ∈ net.sources.toList.filter fun l => !net.contains l.source := by
      refine List.mem_filter.mpr ⟨TreeSet.mem_toList.mpr enters, ?_⟩
      show (!net.contains s.driver) = true
      rw [outside]
      rfl
    exact (reserve_spec reserved).2 (.plain s.driver) (List.mem_map_of_mem (List.mem_map_of_mem listed))

/-- A COPY IS THE SAME NETLIST under other identifiers, divided in the same way and free of loops. -/
theorem copies_of_copy {net image : Netlist} {map : GateMap} (h : net.Consistent)
    (copied : net.copy = .ok (map, image)) : net.Copies map image := by
  obtain ⟨_, _, copied⟩ := Result.bind_eq_ok.mp copied
  obtain ⟨first, reserved, copied⟩ := Result.bind_eq_ok.mp copied
  obtain ⟨⟨map', blank⟩, images, copied⟩ := Result.bind_eq_ok.mp copied
  obtain ⟨built, gates, copied⟩ := Result.bind_eq_ok.mp copied
  obtain ⟨divided, parts, copied⟩ := Result.bind_eq_ok.mp copied
  obtain ⟨arranged, sorted, copied⟩ := Result.bind_eq_ok.mp copied
  cases copied
  have placed := placed_addImages h.top.accounts.nodup images
  have filled : Filled net map first net.gates built := by
    refine Result.foldlM_done (fun done s => Filled net map first done s) gates ⟨placed, by simp⟩ ?_
    intro done id rest s s' split before step
    refine before.add (fun x mem => ?_) step
    rw [split]
    exact List.mem_append_left _ mem
  have keys : ∀ id, id ∈ map ↔ ∃ g, net.gate? id = some g := fun id => (filled.keys id).trans h.mem_view_gates
  have pairs : map.Pairs net built := ⟨keys, filled.values, filled.injective⟩
  have divided := divided_importParts filled.consistent h pairs.image_inj (fun _ => filled.orphans _) parts
  obtain ⟨sameGates, sameHomes, sameLength, loopless⟩ :=
    sort_spec divided.consistent (divided.disturbed filled.disturbed) sorted
  have table : image.gate? = built.gate? := sameGates.trans divided.gates
  have copies : map.Pairs net image := ⟨keys, fun y => by rw [table]; exact filled.values y, filled.injective⟩
  refine ⟨copies, ⟨?shapes, ?onto, ?injective⟩, ?length, ?homes, loopless⟩
  case shapes =>
    intro id g found
    rw [table]
    exact Option.map_eq_some_iff.mp (filled.filled id (h.mem_view_gates.mpr ⟨g, found⟩) g found)
  case onto =>
    intro id' g' found
    obtain ⟨id, mapped⟩ := (copies.values id').mpr ⟨g', found⟩
    obtain ⟨g, here⟩ := (keys id).mp (TreeMap.mem_iff_isSome_getElem?.mpr (by rw [mapped]; rfl))
    exact ⟨id, g, here, GateMap.image_eq mapped⟩
  case injective =>
    have itself : ∀ {id}, net.gate? id = none → map.image id = id := by
      intro id external
      refine GateMap.image_of_not_mem fun mem => ?_
      obtain ⟨g, found⟩ := (keys id).mp mem
      rw [external] at found
      cases found
    -- The image of a gate is above all drivers outside, and these stand for themselves.
    have apart : ∀ {a b g}, net.gate? a = some g → net.Mentions b → net.gate? b = none →
        map.image a ≠ map.image b := by
      intro a b g known mentioned external same
      have low := external_lt h reserved mentioned external
      have high := filled.above (pairs.getElem? known)
      rw [same, itself external] at high
      omega
    intro a b mentionedA mentionedB same
    cases foundA : net.gate? a with
    | none =>
      cases foundB : net.gate? b with
      | none =>
        rw [itself foundA, itself foundB] at same
        exact same
      | some gb => exact absurd same.symm (apart foundB mentionedA foundA)
    | some ga =>
      cases foundB : net.gate? b with
      | none => exact absurd same (apart foundA mentionedB foundB)
      | some gb => exact copies.image_inj foundA foundB same
  case length => rw [sameLength, divided.length, filled.undivided, Nat.zero_add, imagesOf, List.length_map]
  case homes =>
    intro id g found
    rw [partOf?_congr sameHomes, divided.home_image filled.consistent h pairs.image_inj found (filled.orphans _),
      filled.undivided]
    simp

end Netlist

end LogicNet
