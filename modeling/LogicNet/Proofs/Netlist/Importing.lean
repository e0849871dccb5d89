import LogicNet.Proofs.Netlist.Beside

/-!
# Imports

An import adds the gates of another netlist to a HOST, under numbers that the host has not used. It goes through
placeholders: one for each gate first, one more for each driver outside when it is first read, and a gate takes the
place of its placeholder when its turn comes. `Importing` says how far this has come.

Each step has two lemmas. One says what the step has done if it returned (`Importing.place`, `Importing.fill`), the
other that it returns as long as there are numbers. The loops follow from them in the same two ways.

**The law** (`imported_importNet`, `exists_importNet`): as long as there are numbers for everything that the other
netlist mentions (`names`), an import returns. Whenever it returns, the host is as it was, each gate of the other netlist
has an image with renamed drivers, and each of its drivers outside has a placeholder of its own (`Imported`).
-/

namespace LogicNet

open Std

namespace Netlist

/-! ## Names -/

/-- The identifiers that a netlist mentions: its gates, and drivers outside. -/
def names (net : Netlist) : List GateId := net.gates ++ net.externalDrivers.eraseDups

section Names

variable {net : Netlist} (h : net.Consistent)
include h

theorem Consistent.mem_externalDrivers {id : GateId} :
    id ∈ net.externalDrivers ↔ net.Mentions id ∧ net.gate? id = none := by
  simp only [externalDrivers, List.mem_map, List.mem_filter, TreeSet.mem_toList, Bool.not_eq_true',
    contains_eq_isSome, Option.isSome_eq_false_iff, Option.isNone_iff_eq_none]
  constructor
  · rintro ⟨l, ⟨enters, outside⟩, rfl⟩
    exact ⟨(mentions_of_onBoundary ((h.top.bounds.sources l).mp enters)).1, outside⟩
  · rintro ⟨known | ⟨t, g, s, found, read, rfl⟩, outside⟩
    · rw [outside] at known
      obtain ⟨g, known⟩ := known
      cases known
    · obtain ⟨i, edge⟩ := exists_edge_of_read found read
      refine ⟨_, ⟨(h.top.bounds.sources _).mpr (.inr ⟨edge, ?_⟩), outside⟩, rfl⟩
      show (net.contains t && !net.contains s.driver) = true
      rw [contains_eq_isSome, contains_eq_isSome, found, outside]
      rfl

theorem Consistent.mem_gates {id : GateId} : id ∈ net.gates ↔ ∃ g, net.gate? id = some g := h.mem_view_gates

theorem Consistent.mem_names {id : GateId} : id ∈ net.names ↔ net.Mentions id := by
  rw [names, List.mem_append, List.mem_eraseDups, h.mem_externalDrivers, h.mem_gates]
  constructor
  · rintro (known | ⟨mentioned, _⟩)
    · exact .inl known
    · exact mentioned
  · intro mentioned
    cases found : net.gate? id with
    | none => exact .inr ⟨mentioned, rfl⟩
    | some g => exact .inl ⟨g, rfl⟩

theorem Consistent.nodup_names : net.names.Nodup := by
  refine h.top.accounts.nodup.append (nodup_eraseDups _) fun id inside outside => ?_
  obtain ⟨g, found⟩ := h.mem_gates.mp inside
  rw [(h.mem_externalDrivers.mp (List.mem_eraseDups.mp outside)).2] at found
  cases found

end Names

end Netlist

/-! ## Correspondences that grow -/

theorem GateMap.mem_of_mapped {map : GateMap} {id y : GateId} (mapped : map[id]? = some y) : id ∈ map := by
  rw [TreeMap.mem_iff_isSome_getElem?, mapped]
  rfl

theorem GateMap.image_of_mem {map : GateMap} {id : GateId} (mem : id ∈ map) : map[id]? = some (map.image id) := by
  obtain ⟨y, mapped⟩ := Option.isSome_iff_exists.mp (TreeMap.mem_iff_isSome_getElem?.mp mem)
  rw [GateMap.image_eq mapped, mapped]

theorem GateMap.getElem?_insert_new {map : GateMap} {id y : GateId} (new : id ∉ map) {a b : GateId} :
    (map.insert id y)[a]? = some b ↔ a = id ∧ b = y ∨ map[a]? = some b := by
  rw [TreeMap.getElem?_insert]
  split
  · next same =>
    obtain rfl := LawfulEqCmp.eq_of_compare same
    rw [TreeMap.getElem?_eq_none new]
    simp [eq_comm]
  · next other =>
    have : a ≠ id := fun same => other (by rw [same]; exact ReflCmp.compare_self)
    simp [this]

/-- The images that there were are still the same. -/
def GateMap.Grows (map map' : GateMap) : Prop := ∀ id y : GateId, map[id]? = some y → map'[id]? = some y

theorem GateMap.Grows.mem {map map' : GateMap} (h : map.Grows map') {id : GateId} (mem : id ∈ map) : id ∈ map' :=
  GateMap.mem_of_mapped (h id _ (GateMap.image_of_mem mem))

theorem GateMap.Grows.image_eq {map map' : GateMap} (h : map.Grows map') {id : GateId} (mem : id ∈ map) :
    map'.image id = map.image id := GateMap.image_eq (h id _ (GateMap.image_of_mem mem))

theorem GateMap.grows_insert {map : GateMap} {id y : GateId} (new : id ∉ map) : map.Grows (map.insert id y) :=
  fun _ _ mapped => (GateMap.getElem?_insert_new new).mpr (.inr mapped)

/-- Renaming looks at the drivers only. -/
theorem Shape.rename_congr {s : Shape} {f f' : GateId → GateId} (same : ∀ x ∈ s.inputs, f x.driver = f' x.driver) :
    s.rename f = s.rename f' := by
  rw [rename, rename, List.map_congr_left fun x mem => by rw [same x mem]]

namespace Netlist

/-! ## Placeholders -/

/-- Some of what the other netlist mentions has an image, and the gates `done` have their functions. -/
structure Importing (host other : Netlist) (done : List GateId) (map : GateMap) (net : Netlist) : Prop where
  consistent : net.Consistent
  beside : Beside host net
  keys : ∀ id ∈ map, other.Mentions id
  injective : ∀ {a b y : GateId}, map[a]? = some y → map[b]? = some y → a = b
  fresh : ∀ {id y : GateId}, map[id]? = some y → host.nextId ≤ y.index
  kept : ∀ y, (∀ id : GateId, map[id]? ≠ some y) → net.shape? y = host.shape? y
  placed : ∀ {id y : GateId}, map[id]? = some y → id ∉ done → net.shape? y = some ⟨.buffer, []⟩
  gates : ∀ id ∈ done, ∃ g, other.gate? id = some g ∧ id ∈ map ∧ ∀ s ∈ g.inputs, s.driver ∈ map
  filled : ∀ id ∈ done, ∀ g, other.gate? id = some g → net.shape? (map.image id) = some (g.toShape.rename map.image)
  next : net.nextId = host.nextId + map.size
  undivided : net.parts.length = host.parts.length

theorem importing_nothing {host : Netlist} (h : host.Consistent) (other : Netlist) :
    Importing host other [] {} host where
  consistent := h
  beside := h.beside
  keys := by simp
  injective := by simp
  fresh := by simp
  kept := fun _ _ => rfl
  placed := by simp
  gates := by simp
  filled := by simp
  next := by simp
  undivided := rfl

section Import

variable {host other net : Netlist} {done : List GateId} {map : GateMap}

/-- What has an image has a shape, and it is an output only if the image is that of an output. -/
theorem Importing.shape_of_mapped (h : Importing host other done map net) {id y : GateId} (mapped : map[id]? = some y) :
    ∃ s, net.shape? y = some s ∧ (s.isOutput = true → ∃ g, other.gate? id = some g ∧ g.isOutput = true) := by
  by_cases filled : id ∈ done
  · obtain ⟨g, found, _⟩ := h.gates id filled
    have shape := h.filled id filled g found
    rw [GateMap.image_eq mapped] at shape
    exact ⟨_, shape, fun output => ⟨g, found, output⟩⟩
  · refine ⟨_, h.placed mapped filled, fun output => ?_⟩
    cases output

theorem Importing.lt_of_mapped (h : Importing host other done map net) {id y : GateId} (mapped : map[id]? = some y) :
    y.index < net.nextId := by
  obtain ⟨s, shape, _⟩ := h.shape_of_mapped mapped
  exact h.consistent.lt_next shape

/-- One more placeholder. -/
theorem Importing.place (h : Importing host other done map net) (hostConsistent : host.Consistent) {id y : GateId}
    (new : id ∉ map) (mentioned : other.Mentions id) {net' : Netlist} (added : net.addPlaceholder = .ok (y, net')) :
    Importing host other done (map.insert id y) net' := by
  obtain ⟨number, next⟩ := next_build added (by simp)
  obtain ⟨_, reshapes⟩ := reshapes_build added
  have absent : ∀ a : GateId, map[a]? ≠ some y := by
    intro a mapped
    have := h.lt_of_mapped mapped
    rw [number] at this
    exact Nat.lt_irrefl _ this
  have mapped {a b : GateId} : (map.insert id y)[a]? = some b ↔ a = id ∧ b = y ∨ map[a]? = some b :=
    GateMap.getElem?_insert_new new
  have same {a b : GateId} (old : map[a]? = some b) : net'.shape? b = net.shape? b := by
    refine reshapes.other ?_
    rintro rfl
    exact absent a old
  constructor
  case consistent => exact h.consistent.addPlaceholder added
  case beside => exact h.beside.build hostConsistent h.consistent (by simp) added
  case keys =>
    intro a mem
    rcases TreeMap.mem_insert.mp mem with isNew | old
    · rw [← LawfulEqCmp.eq_of_compare isNew]
      exact mentioned
    · exact h.keys a old
  case injective =>
    intro a b z atA atB
    rcases mapped.mp atA with ⟨rfl, rfl⟩ | oldA
    · rcases mapped.mp atB with ⟨rfl, _⟩ | oldB
      · rfl
      · exact absurd oldB (absent b)
    · rcases mapped.mp atB with ⟨rfl, rfl⟩ | oldB
      · exact absurd oldA (absent a)
      · exact h.injective oldA oldB
  case fresh =>
    intro a z value
    rcases mapped.mp value with ⟨_, rfl⟩ | old
    · rw [number]
      exact h.beside.next
    · exact h.fresh old
  case kept =>
    intro z away
    have other : z ≠ y := by
      rintro rfl
      exact away id (mapped.mpr (.inl ⟨rfl, rfl⟩))
    rw [reshapes.other other]
    exact h.kept z fun a old => away a (mapped.mpr (.inr old))
  case placed =>
    intro a z value unfilled
    rcases mapped.mp value with ⟨_, rfl⟩ | old
    · exact reshapes.self
    · rw [same old]
      exact h.placed old unfilled
  case gates =>
    intro a filled
    obtain ⟨g, found, mem, read⟩ := h.gates a filled
    exact ⟨g, found, (GateMap.grows_insert new).mem mem, fun s inside => (GateMap.grows_insert new).mem (read s inside)⟩
  case filled =>
    intro a filled g found
    obtain ⟨g', found', mem, read⟩ := h.gates a filled
    obtain rfl : g = g' := Option.some.inj (found.symm.trans found')
    rw [(GateMap.grows_insert new).image_eq mem, same (GateMap.image_of_mem mem), h.filled a filled g found,
      Shape.rename_congr fun s inside => (GateMap.grows_insert new).image_eq (read s inside)]
  case next =>
    rw [next, h.next, TreeMap.size_insert, if_neg (by rw [TreeMap.contains_iff_mem]; exact new), Nat.add_assoc]
  case undivided => rw [reshapes.length, h.undivided]

/-- What has an image is mentioned, so there is one for every name at most. -/
theorem Importing.size_lt (h : Importing host other done map net) (consistent : other.Consistent) {id : GateId}
    (new : id ∉ map) (mentioned : other.Mentions id) : map.size < other.names.length := by
  have nodup : (id :: map.keys).Nodup := List.nodup_cons.mpr ⟨fun mem => new (TreeMap.mem_keys.mp mem), nodup_keys map⟩
  have inside : id :: map.keys ⊆ other.names := by
    intro x mem
    rcases List.mem_cons.mp mem with rfl | mem
    · exact consistent.mem_names.mpr mentioned
    · exact consistent.mem_names.mpr (h.keys x (TreeMap.mem_keys.mp mem))
  have length := (List.Nodup.subperm nodup inside).length_le
  rw [List.length_cons, TreeMap.length_keys] at length
  exact length

theorem Importing.exists_placeholder (h : Importing host other done map net) (consistent : other.Consistent)
    (room : host.nextId + other.names.length ≤ GateId.largest) {id : GateId} (new : id ∉ map)
    (mentioned : other.Mentions id) : ∃ y net', net.addPlaceholder = .ok (y, net') := by
  have small : net.nextId < GateId.largest := by
    have next := h.next
    have free := h.size_lt consistent new mentioned
    omega
  obtain ⟨net', added, _⟩ := @exists_build net ⟨.buffer, []⟩ rfl (by simp) small
  exact ⟨_, net', added⟩

variable (hostConsistent : host.Consistent) (consistent : other.Consistent)
include hostConsistent consistent

/-- The gates whose turn has come have placeholders. -/
theorem Importing.addImage {ids rest : List GateId} {id : GateId} (split : other.gates = ids ++ id :: rest)
    (h : Importing host other [] map net) (keys : ∀ x, x ∈ map ↔ x ∈ ids) :
    id ∉ map ∧ other.Mentions id ∧ ∀ y net', net.addPlaceholder = .ok (y, net') →
      Importing host other [] (map.insert id y) net' ∧ ∀ x, x ∈ map.insert id y ↔ x ∈ ids ++ [id] := by
  have new : id ∉ map := by
    intro mem
    have nodup := consistent.top.accounts.nodup
    rw [show other.top.gates = ids ++ id :: rest from split] at nodup
    exact List.disjoint_of_nodup_append nodup ((keys id).mp mem) List.mem_cons_self
  have mentioned : other.Mentions id := by
    refine .inl (consistent.mem_gates.mp ?_)
    rw [split]
    exact List.mem_append_right ids List.mem_cons_self
  refine ⟨new, mentioned, fun y net' added => ⟨h.place hostConsistent new mentioned added, fun x => ?_⟩⟩
  rw [TreeMap.mem_insert, LawfulEqCmp.compare_eq_iff_eq, keys, List.mem_append, List.mem_singleton, eq_comm, or_comm]

theorem importing_addImages {net : Netlist} (added : host.addImages other.gates = .ok (map, net)) :
    Importing host other [] map net ∧ ∀ id, id ∈ map ↔ id ∈ other.gates := by
  refine Result.foldlM_done (fun ids (s : GateMap × Netlist) =>
    Importing host other [] s.1 s.2 ∧ ∀ id, id ∈ s.1 ↔ id ∈ ids) added ⟨importing_nothing hostConsistent other, by simp⟩ ?_
  intro ids id rest s s' split here step
  obtain ⟨⟨y, net'⟩, placed, step⟩ := Result.bind_eq_ok.mp step
  cases step
  exact (Importing.addImage hostConsistent consistent split here.1 here.2).2.2 y net' placed

theorem exists_addImages (room : host.nextId + other.names.length ≤ GateId.largest) :
    ∃ s, host.addImages other.gates = .ok s ∧ Importing host other [] s.1 s.2 ∧ ∀ id, id ∈ s.1 ↔ id ∈ other.gates := by
  refine Result.exists_foldlM_done (fun ids (s : GateMap × Netlist) =>
    Importing host other [] s.1 s.2 ∧ ∀ id, id ∈ s.1 ↔ id ∈ ids) ⟨importing_nothing hostConsistent other, by simp⟩ ?_
  intro ids id rest s split here
  obtain ⟨new, mentioned, more⟩ := Importing.addImage hostConsistent consistent split here.1 here.2
  obtain ⟨y, net', placed⟩ := here.1.exists_placeholder consistent room new mentioned
  exact ⟨_, Result.bind_eq_ok.mpr ⟨_, placed, rfl⟩, more y net' placed⟩

/-! ## Functions -/

omit hostConsistent consistent in
/-- THE CASES of one more input: its driver has an image, or it gets a placeholder. -/
theorem importInputs_cons {s : Signal} {inputs read : List Signal} {map' : GateMap} {net' : Netlist} :
    net.importInputs map (s :: inputs) = .ok (read, map', net') ↔ ∃ d map₁ net₁ more,
      (map[s.driver]? = some d ∧ map₁ = map ∧ net₁ = net ∨
        s.driver ∉ map ∧ net.addPlaceholder = .ok (d, net₁) ∧ map₁ = map.insert s.driver d) ∧
      net₁.importInputs map₁ inputs = .ok (more, map', net') ∧ read = s.withDriver d :: more := by
  rw [importInputs]
  cases known : map[s.driver]? with
  | some d =>
    have mem := GateMap.mem_of_mapped known
    constructor
    · intro imported
      obtain ⟨_, driver, imported⟩ := Result.bind_eq_ok.mp imported
      cases driver
      obtain ⟨⟨more, _, _⟩, rest, imported⟩ := Result.bind_eq_ok.mp imported
      cases imported
      exact ⟨d, map, net, more, .inl ⟨rfl, rfl, rfl⟩, rest, rfl⟩
    · rintro ⟨_, _, _, more, ⟨same, rfl, rfl⟩ | ⟨new, _⟩, rest, rfl⟩
      · cases same
        exact Result.bind_eq_ok.mpr ⟨_, rfl, Result.bind_eq_ok.mpr ⟨_, rest, rfl⟩⟩
      · exact absurd mem new
  | none =>
    have new : s.driver ∉ map := by
      intro mem
      rw [GateMap.image_of_mem mem] at known
      cases known
    constructor
    · intro imported
      obtain ⟨⟨d, net₁⟩, added, imported⟩ := Result.bind_eq_ok.mp imported
      obtain ⟨_, driver, imported⟩ := Result.bind_eq_ok.mp imported
      cases driver
      obtain ⟨⟨more, _, _⟩, rest, imported⟩ := Result.bind_eq_ok.mp imported
      cases imported
      exact ⟨d, _, net₁, more, .inr ⟨new, added, rfl⟩, rest, rfl⟩
    · rintro ⟨d, _, net₁, more, ⟨same, _⟩ | ⟨_, added, rfl⟩, rest, rfl⟩
      · cases same
      · refine Result.bind_eq_ok.mpr ⟨_, added, Result.bind_eq_ok.mpr ⟨_, rfl, ?_⟩⟩
        exact Result.bind_eq_ok.mpr ⟨_, rest, rfl⟩

omit consistent in
/-- All drivers of a gate have images. -/
theorem Importing.inputs (h : Importing host other done map net) {inputs read : List Signal}
    (mentioned : ∀ s ∈ inputs, other.Mentions s.driver) {map' : GateMap} {net' : Netlist}
    (imported : net.importInputs map inputs = .ok (read, map', net')) :
    read = (inputs.map fun s => s.withDriver (map'.image s.driver)) ∧ Importing host other done map' net' ∧
      map.Grows map' ∧ ∀ s ∈ inputs, s.driver ∈ map' := by
  induction inputs generalizing map net read with
  | nil =>
    cases imported
    exact ⟨rfl, h, fun _ _ mapped => mapped, by simp⟩
  | cons s inputs ih =>
    obtain ⟨first, later⟩ := List.forall_mem_cons.mp mentioned
    obtain ⟨d, map₁, net₁, more, driver, rest, rfl⟩ := importInputs_cons.mp imported
    have step : Importing host other done map₁ net₁ ∧ map.Grows map₁ ∧ map₁[s.driver]? = some d := by
      rcases driver with ⟨known, rfl, rfl⟩ | ⟨new, added, rfl⟩
      · exact ⟨h, fun _ _ mapped => mapped, known⟩
      · exact ⟨h.place hostConsistent new first added, GateMap.grows_insert new,
          (GateMap.getElem?_insert_new new).mpr (.inl ⟨rfl, rfl⟩)⟩
    obtain ⟨importing, grows, mapped⟩ := step
    obtain ⟨same, filled, grows', drivers⟩ := ih importing later rest
    refine ⟨?_, filled, fun id y old => grows' id y (grows id y old), ?_⟩
    · rw [same, List.map_cons, GateMap.image_eq (grows' _ _ mapped)]
    · exact List.forall_mem_cons.mpr ⟨GateMap.mem_of_mapped (grows' _ _ mapped), drivers⟩

theorem Importing.exists_inputs (h : Importing host other done map net)
    (room : host.nextId + other.names.length ≤ GateId.largest) {inputs : List Signal}
    (mentioned : ∀ s ∈ inputs, other.Mentions s.driver) :
    ∃ read map' net', net.importInputs map inputs = .ok (read, map', net') := by
  induction inputs generalizing map net with
  | nil => exact ⟨_, _, _, rfl⟩
  | cons s inputs ih =>
    obtain ⟨first, later⟩ := List.forall_mem_cons.mp mentioned
    by_cases known : s.driver ∈ map
    · obtain ⟨more, map', net', rest⟩ := ih h later
      exact ⟨_, map', net', importInputs_cons.mpr
        ⟨_, map, net, more, .inl ⟨GateMap.image_of_mem known, rfl, rfl⟩, rest, rfl⟩⟩
    · obtain ⟨d, net₁, added⟩ := h.exists_placeholder consistent room known first
      obtain ⟨more, map', net', rest⟩ := ih (h.place hostConsistent known first added) later
      exact ⟨_, map', net', importInputs_cons.mpr ⟨d, _, net₁, more, .inr ⟨known, added, rfl⟩, rest, rfl⟩⟩

/-- Nothing reads the image of an output. -/
theorem Importing.unread (h : Importing host other done map net) {id y : GateId} (mapped : map[id]? = some y) {g : Gate}
    (found : other.gate? id = some g) (output : g.isOutput = true) {l : Link} (edge : IsEdge net.gate? l) :
    l.source ≠ y := by
  rintro rfl
  obtain ⟨reader, here, link⟩ := edge
  obtain ⟨s, read, driver⟩ := source_of_mem_inputLinks link
  by_cases image : ∃ t : GateId, map[t]? = some l.target
  · obtain ⟨t, target⟩ := image
    by_cases filled : t ∈ done
    · obtain ⟨gt, found', _, drivers⟩ := h.gates t filled
      have shape := h.filled t filled gt found'
      rw [GateMap.image_eq target, shape?_of_gate? here, Option.some.injEq] at shape
      rw [shape] at read
      obtain ⟨x, inside, rfl⟩ := List.mem_map.mp read
      have image := GateMap.image_of_mem (drivers x inside)
      rw [show map.image x.driver = l.source from driver] at image
      have same : x.driver = id := h.injective image mapped
      have plain := consistent.wired.not_isOutput_of_read found' inside (same ▸ found)
      rw [output] at plain
      cases plain
    · have shape := h.placed target filled
      rw [shape?_of_gate? here, Option.some.injEq] at shape
      rw [shape] at read
      cases read
  · have shape := h.kept l.target fun t target => image ⟨t, target⟩
    rw [shape?_of_gate? here] at shape
    obtain ⟨old, before, same⟩ := shape?_eq_some.mp shape.symm
    rw [← same] at read
    have below := hostConsistent.wired.drivers before s read
    have above := h.fresh mapped
    rw [driver] at below
    exact absurd below (Nat.not_lt.mpr above)

section Function

variable (h : Importing host other done map net) {id : GateId} {g : Gate} (found : other.gate? id = some g)
  (mapped : map[id]? = some (map.image id)) (new : id ∉ done)
include h found mapped new

/-- A placeholder can be given the function of its gate, once all drivers have images. -/
theorem Importing.exists_setGate (drivers : ∀ s ∈ g.inputs, s.driver ∈ map) :
    ∃ net', net.setGate (map.image id) (g.toShape.rename map.image) = .ok net' := by
  obtain ⟨old, here, _⟩ := shape?_eq_some.mp (h.placed mapped new)
  suffices returns : ∃ net', net.setGate (map.image id) (g.toShape.rename map.image) = .ok net' ∧
      net'.nextId = net.nextId by
    obtain ⟨net', set, _⟩ := returns
    exact ⟨net', set⟩
  refine Netlist.exists_setGate h.consistent here ?_ ?_ ?_
  · have arity := (Bool.and_eq_true_iff.mp (consistent.wired.valid found)).1
    rw [Shape.hasArity, Shape.arity] at arity ⊢
    rw [Shape.rename, List.length_map]
    exact arity
  · intro s renamed
    obtain ⟨x, inside, rfl⟩ := List.mem_map.mp renamed
    have image := GateMap.image_of_mem (drivers x inside)
    refine ⟨h.lt_of_mapped image, fun d driver => ?_⟩
    obtain ⟨s, shape, output⟩ := h.shape_of_mapped image
    rw [show net.shape? (map.image x.driver) = _ from shape?_of_gate? driver, Option.some.injEq] at shape
    refine Bool.eq_false_iff.mpr fun isOutput => ?_
    obtain ⟨gd, source, isOutput⟩ := output (shape ▸ isOutput)
    rw [consistent.wired.not_isOutput_of_read found inside source] at isOutput
    cases isOutput
  · intro output
    refine ⟨fun l edge => h.unread hostConsistent consistent mapped found output edge, fun s renamed self => ?_⟩
    obtain ⟨x, inside, rfl⟩ := List.mem_map.mp renamed
    have image := GateMap.image_of_mem (drivers x inside)
    rw [show map.image x.driver = map.image id from self] at image
    have same : x.driver = id := h.injective image mapped
    have plain := consistent.wired.not_isOutput_of_read found inside (same ▸ found)
    rw [Shape.isOutput_rename, plain] at output
    cases output

omit consistent new in
/-- With its function, one more gate is done. -/
theorem Importing.fill (drivers : ∀ s ∈ g.inputs, s.driver ∈ map) {net' : Netlist}
    (set : net.setGate (map.image id) (g.toShape.rename map.image) = .ok net') :
    Importing host other (done ++ [id]) map net' := by
  have reshapes := reshapes_setGate h.consistent set
  have images : ∀ s ∈ (g.toShape.rename map.image).inputs, ∃ x : GateId, map[x]? = some s.driver := by
    intro s renamed
    obtain ⟨x, inside, rfl⟩ := List.mem_map.mp renamed
    exact ⟨x.driver, GateMap.image_of_mem (drivers x inside)⟩
  have next : net'.nextId = net.nextId := by
    refine next_setGate set fun s renamed => ?_
    obtain ⟨x, image⟩ := images s renamed
    exact h.lt_of_mapped image
  have others {a y : GateId} (value : map[a]? = some y) (other : a ≠ id) : net'.shape? y = net.shape? y := by
    rw [reshapes.shapes, Function.update_of_ne]
    rintro rfl
    exact other (h.injective value mapped)
  constructor
  case consistent => exact h.consistent.setGate set
  case beside =>
    refine h.beside.setGate hostConsistent h.consistent (h.fresh mapped) (fun s renamed => ?_) set
    obtain ⟨x, image⟩ := images s renamed
    exact h.fresh image
  case keys => exact h.keys
  case injective => exact h.injective
  case fresh => exact h.fresh
  case kept =>
    intro y away
    have other : y ≠ map.image id := by
      rintro rfl
      exact away id mapped
    rw [reshapes.shapes, Function.update_of_ne other]
    exact h.kept y away
  case placed =>
    intro a y value unfilled
    rw [List.mem_append, List.mem_singleton, not_or] at unfilled
    rw [others value unfilled.2]
    exact h.placed value unfilled.1
  case gates =>
    intro a filled
    rcases List.mem_append.mp filled with before | now
    · exact h.gates a before
    · rw [List.mem_singleton.mp now]
      exact ⟨g, found, GateMap.mem_of_mapped mapped, drivers⟩
  case filled =>
    intro a filled ga found'
    by_cases same : a = id
    · subst same
      obtain rfl : g = ga := Option.some.inj (found.symm.trans found')
      rw [reshapes.shapes, Function.update_self]
    · rw [List.mem_append, List.mem_singleton, or_iff_left same] at filled
      obtain ⟨_, _, inside, _⟩ := h.gates a filled
      rw [others (GateMap.image_of_mem inside) same]
      exact h.filled a filled ga found'
  case next => rw [next, h.next]
  case undivided => rw [reshapes.length, h.undivided]

end Function

omit consistent in
/-- One more gate has taken the place of its placeholder. -/
theorem Importing.gate (h : Importing host other done map net) {id : GateId} (mem : id ∈ map) {map' : GateMap}
    {net' : Netlist} (imported : other.importGate map net id = .ok (map', net')) :
    Importing host other (done ++ [id]) map' net' ∧ map.Grows map' := by
  obtain ⟨g, found, imported⟩ := Result.bind_eq_ok.mp imported
  have found := gate_eq_ok.mp found
  obtain ⟨⟨read, map₁, mid⟩, inputs, imported⟩ := Result.bind_eq_ok.mp imported
  obtain ⟨y, mapped, imported⟩ := Result.bind_eq_ok.mp imported
  obtain ⟨net₁, set, imported⟩ := Result.bind_eq_ok.mp imported
  cases imported
  obtain ⟨rfl, importing, grows, drivers⟩ := h.inputs hostConsistent
    (fun s (inside : s ∈ g.inputs) => .inr ⟨id, g, s, found, inside, rfl⟩) inputs
  have mapped := Result.getOrBreach_eq_ok.mp mapped
  rw [← GateMap.image_eq mapped] at set
  exact ⟨importing.fill hostConsistent found (GateMap.image_of_mem (grows.mem mem)) drivers set, grows⟩

theorem Importing.exists_gate (h : Importing host other done map net)
    (room : host.nextId + other.names.length ≤ GateId.largest) {id : GateId} {g : Gate}
    (found : other.gate? id = some g) (mem : id ∈ map) (new : id ∉ done) :
    ∃ s, other.importGate map net id = .ok s := by
  have mentioned : ∀ s ∈ g.inputs, other.Mentions s.driver := fun s inside => .inr ⟨id, g, s, found, inside, rfl⟩
  obtain ⟨read, map', mid, inputs⟩ := h.exists_inputs hostConsistent consistent room mentioned
  obtain ⟨rfl, importing, grows, drivers⟩ := h.inputs hostConsistent mentioned inputs
  have mapped : map'[id]? = some (map'.image id) := GateMap.image_of_mem (grows.mem mem)
  obtain ⟨net', set⟩ := importing.exists_setGate hostConsistent consistent found mapped new drivers
  refine ⟨(map', net'), Result.bind_eq_ok.mpr ⟨g, gate_eq_ok.mpr found, Result.bind_eq_ok.mpr ⟨_, inputs, ?_⟩⟩⟩
  exact Result.bind_eq_ok.mpr ⟨_, Result.getOrBreach_eq_ok.mpr mapped, Result.bind_eq_ok.mpr ⟨net', set, rfl⟩⟩

omit consistent in
/-- After its gates, everything that the other netlist mentions has its image. -/
theorem importing_importGates (h : Importing host other [] map net) (images : ∀ id ∈ other.gates, id ∈ map)
    {s : GateMap × Netlist}
    (imported : other.gates.foldlM (fun (s : GateMap × Netlist) id => other.importGate s.1 s.2 id) (map, net) = .ok s) :
    Importing host other other.gates s.1 s.2 := by
  refine (Result.foldlM_done (fun done (s : GateMap × Netlist) =>
    Importing host other done s.1 s.2 ∧ ∀ id ∈ other.gates, id ∈ s.1) imported ⟨h, images⟩ ?_).1
  intro done id rest s s' split here step
  have inside : id ∈ other.gates := by
    rw [split]
    exact List.mem_append_right done List.mem_cons_self
  obtain ⟨more, grows⟩ := here.1.gate hostConsistent (here.2 id inside) step
  exact ⟨more, fun x mem => grows.mem (here.2 x mem)⟩

theorem exists_importGates (room : host.nextId + other.names.length ≤ GateId.largest)
    (h : Importing host other [] map net) (images : ∀ id ∈ other.gates, id ∈ map) :
    ∃ s, other.gates.foldlM (fun (s : GateMap × Netlist) id => other.importGate s.1 s.2 id) (map, net) = .ok s := by
  suffices all : ∃ s,
      other.gates.foldlM (fun (s : GateMap × Netlist) id => other.importGate s.1 s.2 id) (map, net) = .ok s ∧
      Importing host other other.gates s.1 s.2 ∧ ∀ id ∈ other.gates, id ∈ s.1 by
    obtain ⟨s, imported, _⟩ := all
    exact ⟨s, imported⟩
  refine Result.exists_foldlM_done (fun done (s : GateMap × Netlist) =>
    Importing host other done s.1 s.2 ∧ ∀ id ∈ other.gates, id ∈ s.1) ⟨h, images⟩ ?_
  intro done id rest s split here
  have inside : id ∈ other.gates := by
    rw [split]
    exact List.mem_append_right done List.mem_cons_self
  obtain ⟨g, found⟩ := consistent.mem_gates.mp inside
  have new : id ∉ done := by
    intro mem
    have nodup := consistent.top.accounts.nodup
    rw [show other.top.gates = done ++ id :: rest from split] at nodup
    exact List.disjoint_of_nodup_append nodup mem List.mem_cons_self
  obtain ⟨s', imported⟩ := here.1.exists_gate hostConsistent consistent room found (here.2 id inside) new
  obtain ⟨more, grows⟩ := here.1.gate hostConsistent (here.2 id inside) imported
  exact ⟨s', imported, more, fun x mem => grows.mem (here.2 x mem)⟩

end Import

/-! ## Parts -/

section Parts

variable {host other net net' : Netlist} {map : GateMap}

/-- Parts are imported by moving the images that there are. -/
theorem exists_importParts (consistent : other.Consistent) (h : net.Consistent)
    (images : ∀ {id : GateId} {g : Gate}, other.gate? id = some g → ∃ y g', map[id]? = some y ∧ net.gate? y = some g') :
    ∃ net', net.importParts other map = .ok net' := by
  suffices all : ∃ net', net.importParts other map = .ok net' ∧ net'.Consistent ∧ net'.gate? = net.gate? by
    obtain ⟨net', imported, _⟩ := all
    exact ⟨net', imported⟩
  refine Result.exists_foldlM_done (fun _ (s : Netlist) => s.Consistent ∧ s.gate? = net.gate?) ⟨h, rfl⟩ ?_
  intro done p rest s split here
  obtain ⟨now, gates⟩ := here
  have found : other.parts[done.length]? = some p := by simp [split]
  -- While the gates of the part are moved into it, the new part stays the last one.
  have moving : ∃ s', p.gates.foldlM (fun net id => do
        let image ← Result.getOrBreach map[id]? .missingKey
        net.moveGate image (some s.parts.length)) s.addPart.2 = .ok s' ∧
      s'.Consistent ∧ s'.gate? = net.gate? ∧ s.parts.length < s'.parts.length := by
    refine Result.exists_foldlM_done (fun _ (s' : Netlist) => s'.Consistent ∧ s'.gate? = net.gate? ∧
      s.parts.length < s'.parts.length) ⟨now.addPart, gates, ?_⟩ ?_
    · simp [addPart]
    intro moved id others s' inside here
    obtain ⟨now, gates, last⟩ := here
    obtain ⟨g, known⟩ := (consistent.parts _ p found).accounts.known id (by rw [inside]; simp)
    obtain ⟨y, g', mapped, image⟩ := images known
    rw [← gates] at image
    obtain ⟨s'', move⟩ := exists_moveGate image last
    have moves := moves_moveGate now move
    exact ⟨s'', Result.bind_eq_ok.mpr ⟨y, Result.getOrBreach_eq_ok.mpr mapped, move⟩, now.moveGate move,
      moves.gates.trans gates, moves.length ▸ last⟩
  obtain ⟨s', moved, now, gates, _⟩ := moving
  exact ⟨s', moved, now, gates⟩

/-- The new parts are beside the host, and so are the gates in them. -/
theorem Beside.importParts (b : Beside host net) (hostConsistent : host.Consistent) (h : net.Consistent)
    (fresh : ∀ {id y : GateId}, map[id]? = some y → host.nextId ≤ y.index)
    (imported : net.importParts other map = .ok net') : Beside host net' := by
  refine (Result.foldlM_induction (fun s => s.Consistent ∧ Beside host s) other.parts imported ⟨h, b⟩ ?_).2
  intro s p s' _ here step
  have last : host.parts.length ≤ s.parts.length := here.2.parts.length_le
  refine Result.foldlM_induction (fun s => s.Consistent ∧ Beside host s) p.gates step
    ⟨here.1.addPart, here.2.addPart⟩ ?_
  intro s id s' _ here step
  obtain ⟨y, mapped, moved⟩ := Result.bind_eq_ok.mp step
  refine ⟨here.1.moveGate moved, ?_⟩
  exact here.2.moveGate hostConsistent here.1 (fresh (Result.getOrBreach_eq_ok.mp mapped)) last moved

end Parts

/-! ## The whole import -/

/-- The host with the other netlist in it, by this correspondence. -/
structure Imported (host other : Netlist) (map : GateMap) (net : Netlist) : Prop where
  keys : ∀ id, id ∈ map ↔ other.Mentions id
  injective : ∀ {a b y : GateId}, map[a]? = some y → map[b]? = some y → a = b
  fresh : ∀ {id y : GateId}, map[id]? = some y → host.nextId ≤ y.index
  kept : ∀ y, (∀ id : GateId, map[id]? ≠ some y) → net.shape? y = host.shape? y
  gates : ∀ {id : GateId} {g : Gate}, other.gate? id = some g →
    net.shape? (map.image id) = some (g.toShape.rename map.image)
  outside : ∀ {id y : GateId}, map[id]? = some y → other.gate? id = none → net.shape? y = some ⟨.buffer, []⟩
  next : net.nextId = host.nextId + other.names.length
  beside : Beside host net
  lists : net.partGates = host.partGates ++ imagesOf map other.parts
  homes : ∀ {id : GateId} {g : Gate}, other.gate? id = some g →
    net.partOf? (map.image id) = (other.partOf? id).map (host.parts.length + ·)

section Whole

variable {host other net : Netlist} {map : GateMap}

/-- With all gates done, everything that is mentioned has an image. -/
theorem Importing.mem_map (h : Importing host other other.gates map net) (consistent : other.Consistent) (id : GateId) :
    id ∈ map ↔ other.Mentions id := by
  refine ⟨h.keys id, fun mentioned => ?_⟩
  rcases mentioned with ⟨g, found⟩ | ⟨t, g, s, found, read, rfl⟩
  · obtain ⟨_, _, mem, _⟩ := h.gates id (consistent.mem_gates.mpr ⟨g, found⟩)
    exact mem
  · obtain ⟨g', found', _, drivers⟩ := h.gates t (consistent.mem_gates.mpr ⟨g, found⟩)
    obtain rfl : g = g' := Option.some.inj (found.symm.trans found')
    exact drivers s read

theorem Importing.size_map (h : Importing host other other.gates map net) (consistent : other.Consistent) :
    map.size = other.names.length := by
  have perm : map.keys.Perm other.names := by
    refine (List.perm_ext_iff_of_nodup (nodup_keys map) consistent.nodup_names).mpr fun id => ?_
    rw [TreeMap.mem_keys, h.mem_map consistent, consistent.mem_names]
  rw [← TreeMap.length_keys, perm.length_eq]

theorem Importing.image_inj (h : Importing host other other.gates map net) (consistent : other.Consistent)
    {a b : GateId} {g g' : Gate} (foundA : other.gate? a = some g) (foundB : other.gate? b = some g')
    (same : map.image a = map.image b) : a = b := by
  have atA := GateMap.image_of_mem ((h.mem_map consistent a).mpr (.inl ⟨g, foundA⟩))
  have atB := GateMap.image_of_mem ((h.mem_map consistent b).mpr (.inl ⟨g', foundB⟩))
  rw [same] at atA
  exact h.injective atA atB

/-- Until parts are imported, there are none for what is new. -/
theorem Importing.orphan {done : List GateId} (h : Importing host other done map net) {id y : GateId}
    (mapped : map[id]? = some y) : net.partOf? y = none := by
  refine Option.eq_none_iff_forall_ne_some.mpr fun n home => ?_
  have above := h.beside.newHomes (h.fresh mapped) home
  have below := h.consistent.homes y n home
  rw [h.undivided] at below
  omega

/-- AN IMPORT THAT RETURNED has left the host as it was, and nothing is lost or mixed up. -/
theorem imported_importNet (hostConsistent : host.Consistent) (consistent : other.Consistent)
    (imported : host.importNet other = .ok (map, net)) : Imported host other map net := by
  obtain ⟨⟨blanks, placed⟩, added, imported⟩ := Result.bind_eq_ok.mp imported
  obtain ⟨⟨map', filled⟩, gates, imported⟩ := Result.bind_eq_ok.mp imported
  obtain ⟨net', parts, imported⟩ := Result.bind_eq_ok.mp imported
  cases imported
  obtain ⟨start, images⟩ := importing_addImages hostConsistent consistent added
  have importing := importing_importGates hostConsistent start (fun id mem => (images id).mpr mem) gates
  have mapped {id : GateId} {g : Gate} (found : other.gate? id = some g) : map[id]? = some (map.image id) :=
    GateMap.image_of_mem ((importing.mem_map consistent id).mpr (.inl ⟨g, found⟩))
  have divided := divided_importParts importing.consistent consistent (importing.image_inj consistent)
    (fun found => importing.orphan (mapped found)) parts
  have shapes : net.shape? = filled.shape? := shape?_congr divided.gates
  refine ⟨importing.mem_map consistent, importing.injective, importing.fresh, ?_, ?_, ?_, ?_, ?_, ?_, ?_⟩
  · rw [shapes]
    exact importing.kept
  · intro id g found
    rw [shapes]
    exact importing.filled id (consistent.mem_gates.mpr ⟨g, found⟩) g found
  · intro id y mapped absent
    rw [shapes]
    refine importing.placed mapped fun mem => ?_
    obtain ⟨g, found⟩ := consistent.mem_gates.mp mem
    rw [absent] at found
    cases found
  · rw [divided.next, importing.next, importing.size_map consistent]
  · exact importing.beside.importParts hostConsistent importing.consistent importing.fresh parts
  · have same : host.parts = filled.parts := importing.beside.parts.eq_of_length importing.undivided.symm
    rw [divided.lists, partGates, ← same, ← partGates]
  · intro id g found
    rw [divided.home_image importing.consistent consistent (importing.image_inj consistent) found
      (importing.orphan (mapped found)), importing.undivided]

/-- AN IMPORT RETURNS as long as there are numbers. -/
theorem exists_importNet (hostConsistent : host.Consistent) (consistent : other.Consistent)
    (room : host.nextId + other.names.length ≤ GateId.largest) :
    ∃ map net, host.importNet other = .ok (map, net) ∧ Imported host other map net := by
  obtain ⟨⟨blanks, placed⟩, added, start, images⟩ := exists_addImages hostConsistent consistent room
  have all : ∀ id ∈ other.gates, id ∈ blanks := fun id mem => (images id).mpr mem
  obtain ⟨⟨map, filled⟩, gates⟩ := exists_importGates hostConsistent consistent room start all
  have importing := importing_importGates hostConsistent start all gates
  obtain ⟨net, parts⟩ := @exists_importParts other filled map consistent importing.consistent (by
    intro id g found
    have mapped := GateMap.image_of_mem ((importing.mem_map consistent id).mpr (.inl ⟨g, found⟩))
    obtain ⟨s, known, _⟩ := importing.shape_of_mapped mapped
    obtain ⟨g', here, _⟩ := shape?_eq_some.mp known
    exact ⟨_, g', mapped, here⟩)
  have imported : host.importNet other = .ok (map, net) := by
    refine Result.bind_eq_ok.mpr ⟨_, added, Result.bind_eq_ok.mpr ⟨_, gates, ?_⟩⟩
    exact Result.bind_eq_ok.mpr ⟨net, parts, rfl⟩
  exact ⟨map, net, imported, imported_importNet hostConsistent consistent imported⟩

/-- Whatever the other netlist mentions has an image, with a number below the next one. -/
theorem Imported.image_lt (h : Imported host other map net) (consistent : net.Consistent) {id : GateId} (mem : id ∈ map) :
    (map.image id).index < net.nextId := by
  have known : ∃ s, net.shape? (map.image id) = some s := by
    cases found : other.gate? id with
    | none => exact ⟨_, h.outside (GateMap.image_of_mem mem) found⟩
    | some g => exact ⟨_, h.gates found⟩
  obtain ⟨s, known⟩ := known
  exact consistent.lt_next known

end Whole

end Netlist

end LogicNet
