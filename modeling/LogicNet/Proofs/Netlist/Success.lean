import LogicNet.Proofs.Netlist.Copying

/-!
# Edits that return

An edit of a consistent netlist stops for three reasons only: the numbers have run out, the function does not take
that many inputs, or something would read an output. Where none of them applies the edit returns, and what it has
done to the table of shapes is one entry. `CanDrive` says that a number can be read without either of the last two.

Removing and moving gates and dropping parts never stop, and sorting stops only at a loop.
-/

namespace LogicNet

open Std

namespace Netlist

/-! ## Drivers -/

/-- The number is in use, and if it is that of a gate, the gate is not an output. -/
def CanDrive (net : Netlist) (id : GateId) : Prop :=
  id.index < net.nextId ∧ ∀ g, net.gate? id = some g → g.isOutput = false

theorem Consistent.canDrive_of_read {net : Netlist} (h : net.Consistent) {id : GateId} {g : Gate}
    (found : net.gate? id = some g) {s : Signal} (read : s ∈ g.inputs) : net.CanDrive s.driver :=
  ⟨h.wired.drivers found s read, fun _ driver => h.wired.not_isOutput_of_read found read driver⟩

theorem Consistent.driver_ne_output {net : Netlist} (h : net.Consistent) {id : GateId} {d : Gate}
    (found : net.gate? id = some d) (output : d.isOutput = true) {t : GateId} {g : Gate} (reader : net.gate? t = some g)
    {s : Signal} (read : s ∈ g.inputs) : s.driver ≠ id := by
  rintro rfl
  rw [h.wired.not_isOutput_of_read reader read found] at output
  cases output

/-- The shape of a gate is known where its gate is. -/
theorem shape?_eq_some {net : Netlist} {id : GateId} {shape : Shape} :
    net.shape? id = some shape ↔ ∃ g, net.gate? id = some g ∧ g.toShape = shape := Option.map_eq_some_iff

theorem shape?_of_gate? {net : Netlist} {id : GateId} {g : Gate} (found : net.gate? id = some g) :
    net.shape? id = some g.toShape := shape?_eq_some.mpr ⟨g, found, rfl⟩

theorem shape?_congr {net net' : Netlist} (same : net'.gate? = net.gate?) : net'.shape? = net.shape? := by
  funext id
  unfold shape?
  rw [same]

section Reshaped

variable {net net' : Netlist} {id : GateId} {shape : Shape} (h : Reshapes net net' id shape)
include h

theorem Reshapes.self : net'.shape? id = some shape := by rw [h.shapes, Function.update_self]

theorem Reshapes.other {x : GateId} (other : x ≠ id) : net'.shape? x = net.shape? x := by
  rw [h.shapes, Function.update_of_ne other]

theorem Reshapes.before {x : GateId} {s : Shape} (now : net'.shape? x = some s) :
    x = id ∧ s = shape ∨ x ≠ id ∧ net.shape? x = some s := by
  by_cases same : x = id
  · rw [same, h.self] at now
    exact .inl ⟨same, (Option.some.inj now).symm⟩
  · rw [h.other same] at now
    exact .inr ⟨same, now⟩

theorem Reshapes.flat (flat : net.parts = []) : net'.parts = [] := by
  rw [← List.length_eq_zero_iff, h.length, flat]
  rfl

end Reshaped

/-- The next identifier has not been given. -/
theorem Consistent.lt_next {net : Netlist} (h : net.Consistent) {id : GateId} {s : Shape}
    (known : net.shape? id = some s) : id.index < net.nextId := by
  obtain ⟨g, found, _⟩ := shape?_eq_some.mp known
  exact h.wired.given found

/-- A gate that is built was not there. -/
theorem Consistent.absent_of_build {net net' : Netlist} (h : net.Consistent) {shape : Shape} {id : GateId}
    (built : net.build shape = .ok (id, net')) : net.shape? id = none := by
  cases known : net.shape? id with
  | none => rfl
  | some s =>
    have below := h.lt_next known
    have fresh := (reshapes_build built).1
    omega

theorem Consistent.canDrive_of_shape? {net : Netlist} (h : net.Consistent) {id : GateId} {shape : Shape}
    (found : net.shape? id = some shape) (plain : shape.isOutput = false) : net.CanDrive id := by
  obtain ⟨g, here, rfl⟩ := shape?_eq_some.mp found
  refine ⟨h.wired.given here, fun g' here' => ?_⟩
  obtain rfl : g = g' := Option.some.inj (here.symm.trans here')
  exact plain

/-- Drivers below the next number reserve nothing. -/
theorem reserve_of_lt {next : Nat} {inputs : List Signal} (below : ∀ s ∈ inputs, s.driver.index < next) :
    reserve next inputs = .ok next := by
  induction inputs with
  | nil => rfl
  | cons s inputs ih =>
    obtain ⟨first, rest⟩ := List.forall_mem_cons.mp below
    rw [reserve, List.foldlM_cons, if_neg (Nat.not_le.mpr first)]
    exact ih rest

/-- Links can be recorded if none of them comes from an output. -/
theorem exists_connect {net : Netlist} {links : List Link}
    (plain : ∀ l ∈ links, ∀ d, net.gate? l.source = some d → d.isOutput = false) :
    ∃ net', net.connect links = .ok net' := by
  induction links generalizing net with
  | nil => exact ⟨net, rfl⟩
  | cons l links ih =>
    obtain ⟨first, rest⟩ := List.forall_mem_cons.mp plain
    rw [connect, List.foldlM_cons]
    cases found : net.table[l.source]? with
    | none => exact ih rest
    | some d =>
      have isPlain := first d found
      simp only [isPlain, Bool.false_eq_true, if_false]
      apply ih
      intro k mem e driver
      rw [gate?_insert rfl] at driver
      by_cases same : k.source = l.source
      · rw [same, Function.update_self] at driver
        cases driver
        exact isPlain
      · rw [Function.update_of_ne same] at driver
        exact rest k mem e driver

/-! ## Building and changing -/

theorem source_of_mem_inputLinks {s : Shape} {id : GateId} {l : Link} (mem : l ∈ s.inputLinks id) :
    ∃ x ∈ s.inputs, x.driver = l.source := by
  obtain ⟨i, x, found, rfl⟩ := Shape.mem_inputLinks.mp mem
  exact ⟨x, List.mem_of_getElem? found, rfl⟩

/-- A gate is built under the next number. -/
theorem exists_build {net : Netlist} {shape : Shape} (arity : shape.hasArity = true)
    (drivers : ∀ s ∈ shape.inputs, net.CanDrive s.driver) (room : net.nextId < GateId.largest) :
    ∃ net', net.build shape = .ok (⟨net.nextId⟩, net') ∧ net'.nextId = net.nextId + 1 := by
  let gate : Gate := { shape with id := ⟨net.nextId⟩ }
  have valid : gate.isValid = true := Bool.and_eq_true_iff.mpr ⟨arity, Bool.or_true _⟩
  let grown : Netlist :=
    { net with nextId := net.nextId + 1, top := net.top.insert gate, table := net.table.insert gate.id gate }
  obtain ⟨mid, connected⟩ : ∃ mid, grown.connect gate.inputLinks = .ok mid := by
    refine exists_connect fun l mem d driver => ?_
    obtain ⟨s, read, source⟩ := source_of_mem_inputLinks mem
    obtain ⟨below, plain⟩ := drivers s read
    have other : l.source ≠ gate.id := by
      intro same
      rw [source, same] at below
      exact Nat.lt_irrefl _ below
    rw [show grown.gate? = Function.update net.gate? gate.id (some gate) from gate?_insert rfl,
      Function.update_of_ne other, ← source] at driver
    exact plain d driver
  have built : net.build shape = .ok (gate.id, (mid.refresh gate.id [] none).register gate) := by
    refine Result.bind_eq_ok.mpr ⟨net.nextId, reserve_of_lt fun s read => (drivers s read).1, ?_⟩
    refine Result.bind_eq_ok.mpr ⟨net.nextId + 1, if_pos room, ?_⟩
    refine Result.bind_eq_ok.mpr ⟨(), Result.require_eq_ok.mpr valid, ?_⟩
    exact Result.bind_eq_ok.mpr ⟨mid, connected, rfl⟩
  refine ⟨_, built, ?_⟩
  rw [next_settled, (connect_spec connected).2.1.next]

/-- A gate that could be read is built, unless the numbers have run out. -/
theorem of_build_eq_error {net : Netlist} {shape : Shape} {f : Fault} (arity : shape.hasArity = true)
    (drivers : ∀ s ∈ shape.inputs, net.CanDrive s.driver) (failed : net.build shape = .error f) :
    f = .breach .overflow ∧ GateId.largest ≤ net.nextId := by
  by_cases room : net.nextId < GateId.largest
  · obtain ⟨_, built, _⟩ := exists_build arity drivers room
    rw [built] at failed
    cases failed
  · rw [build, reserve_of_lt fun s read => (drivers s read).1, Result.ok_bind, following, if_neg room,
      Result.error_bind] at failed
    cases failed
    exact ⟨rfl, Nat.le_of_not_lt room⟩

/-- A gate that reads what there is gets the next number. -/
theorem next_build {net net' : Netlist} {id : GateId} {shape : Shape} (built : net.build shape = .ok (id, net'))
    (below : ∀ s ∈ shape.inputs, s.driver.index < net.nextId) :
    id = ⟨net.nextId⟩ ∧ net'.nextId = net.nextId + 1 := by
  obtain ⟨mid, b, rfl⟩ := build_spec built
  obtain ⟨number, reserved, rest⟩ := Result.bind_eq_ok.mp built
  rw [reserve_of_lt below] at reserved
  cases reserved
  obtain ⟨_, _, rest⟩ := Result.bind_eq_ok.mp rest
  obtain ⟨_, _, rest⟩ := Result.bind_eq_ok.mp rest
  obtain ⟨_, _, rest⟩ := Result.bind_eq_ok.mp rest
  have same : id = ⟨net.nextId⟩ := (congrArg Prod.fst (Except.ok.inj rest)).symm
  subst same
  exact ⟨rfl, (next_settled ..).trans b.next⟩

/-- A changed gate keeps its number, so no number is given out. -/
theorem next_setGate {net net' : Netlist} {id : GateId} {shape : Shape} (set : net.setGate id shape = .ok net')
    (below : ∀ s ∈ shape.inputs, s.driver.index < net.nextId) : net'.nextId = net.nextId := by
  obtain ⟨old, _, set⟩ := Result.bind_eq_ok.mp set
  obtain ⟨nextId, reserved, set⟩ := Result.bind_eq_ok.mp set
  obtain ⟨kept, _, set⟩ := Result.bind_eq_ok.mp set
  obtain ⟨_, _, set⟩ := Result.bind_eq_ok.mp set
  obtain ⟨mid, connected, set⟩ := Result.bind_eq_ok.mp set
  cases set
  rw [reserve_of_lt below] at reserved
  cases reserved
  rw [next_settled]
  show mid.nextId = net.nextId
  rw [(connect_spec connected).2.1.next]
  show (disconnect _ _).nextId = _
  rw [(disconnect_spec _ _).2.next, unregister_eq]

/-- A gate can be given another shape, and if it is to be an output, nothing reads it. -/
theorem exists_setGate {net : Netlist} (h : net.Consistent) {id : GateId} {old : Gate}
    (found : net.gate? id = some old) {shape : Shape} (arity : shape.hasArity = true)
    (drivers : ∀ s ∈ shape.inputs, net.CanDrive s.driver)
    (output : shape.isOutput = true → (∀ l, IsEdge net.gate? l → l.source ≠ id) ∧ ∀ s ∈ shape.inputs, s.driver ≠ id) :
    ∃ net', net.setGate id shape = .ok net' ∧ net'.nextId = net.nextId := by
  let forgotten := net.unregister old
  let opened := (forgotten.disconnect old.inputLinks).modifyHome id (·.unclassify old)
  have table : opened.gate? = disconnected net.gate? old.inputLinks := by
    show (forgotten.disconnect old.inputLinks).gate? = _
    rw [(disconnect_spec forgotten old.inputLinks).1]
    show disconnected (net.unregister old).gate? old.inputLinks = _
    rw [unregister_eq]
    rfl
  have kept : opened.gate? id =
      some { old with fanout := dropLinks (old.inputLinks.filter (·.source = id)) old.fanout } := by
    rw [table, disconnected, relisted, found]
    rfl
  let gate : Gate :=
    { shape with id := old.id, fanout := dropLinks (old.inputLinks.filter (·.source = id)) old.fanout }
  have valid : gate.isValid = true := by
    refine Bool.and_eq_true_iff.mpr ⟨arity, ?_⟩
    cases isOutput : shape.isOutput with
    | false => simp [gate]
    | true =>
      have unread : old.fanout = [] := by
        refine List.eq_nil_iff_forall_not_mem.mpr fun l mem => ?_
        obtain ⟨source, edge⟩ := (h.wired.fanout found l).mp mem
        exact (output isOutput).1 l edge source
      have empty : gate.fanout = [] := by
        refine List.eq_nil_iff_forall_not_mem.mpr fun l mem => ?_
        have := ((mem_dropLinks (h.wired.nodup found)).mp mem).1
        rw [unread] at this
        cases this
      rw [empty]
      exact Bool.or_true _
  let changed : Netlist := { opened with table := opened.table.insert id gate }
  obtain ⟨mid, connected⟩ : ∃ mid, changed.connect gate.inputLinks = .ok mid := by
    refine exists_connect fun l mem d driver => ?_
    obtain ⟨s, read, source⟩ := source_of_mem_inputLinks mem
    have changes : changed.gate? = Function.update opened.gate? id (some gate) := gate?_insert rfl
    rw [changes, table, ← source] at driver
    by_cases self : s.driver = id
    · rw [self, Function.update_self] at driver
      cases driver
      refine Bool.eq_false_iff.mpr fun isOutput => ?_
      exact (output isOutput).2 s read self
    · rw [Function.update_of_ne self] at driver
      obtain ⟨d', before, rfl⟩ := Option.map_eq_some_iff.mp driver
      exact (drivers s read).2 d' before
  have below : ∀ s ∈ shape.inputs, s.driver.index < net.nextId := fun s read => (drivers s read).1
  have set : net.setGate id shape = .ok
      (((mid.modifyHome id fun p => (p.classify gate).disturb).refresh id old.inputLinks none).register gate) := by
    refine Result.bind_eq_ok.mpr ⟨old, gate_eq_ok.mpr found, ?_⟩
    refine Result.bind_eq_ok.mpr ⟨net.nextId, reserve_of_lt below, ?_⟩
    refine Result.bind_eq_ok.mpr ⟨_, gate_eq_ok.mpr kept, ?_⟩
    refine Result.bind_eq_ok.mpr ⟨(), Result.require_eq_ok.mpr valid, ?_⟩
    exact Result.bind_eq_ok.mpr ⟨mid, connected, rfl⟩
  exact ⟨_, set, next_setGate set below⟩

/-- Gates are added one after the other, if each step returns from where the steps before it lead. -/
theorem exists_addAll {α : Type} {step : Netlist → α → Result (GateId × Netlist)}
    (P : List α → List GateId → Netlist → Prop) {net : Netlist} {xs : List α} (start : P [] [] net)
    (each : ∀ done x rest ids net, xs = done ++ x :: rest → P done ids net →
      ∃ id net', step net x = .ok (id, net') ∧ P (done ++ [x]) (ids ++ [id]) net') :
    ∃ ids net', addAll step net xs = .ok (ids, net') ∧ P xs ids net' := by
  suffices general : ∀ rest done ids net, xs = done ++ rest → P done ids net →
      ∃ more net', addAll step net rest = .ok (more, net') ∧ P xs (ids ++ more) net' from
    general xs [] [] net rfl start
  intro rest
  induction rest with
  | nil =>
    intro done ids net split here
    rw [List.append_nil] at split
    refine ⟨[], net, rfl, ?_⟩
    rw [split, List.append_nil]
    exact here
  | cons x rest ih =>
    intro done ids net split here
    obtain ⟨id, mid, first, later⟩ := each done x rest ids net split here
    obtain ⟨more, net', others, all⟩ := ih (done ++ [x]) (ids ++ [id]) mid (by rw [split, List.append_assoc]; rfl) later
    refine ⟨id :: more, net', ?_, ?_⟩
    · exact Result.bind_eq_ok.mpr ⟨_, first, Result.bind_eq_ok.mpr ⟨_, others, rfl⟩⟩
    · rw [List.append_assoc] at all
      exact all

/-! ## Removing and moving -/

theorem exists_removeGate {net : Netlist} {id : GateId} {g : Gate} (found : net.gate? id = some g) :
    ∃ net', net.removeGate id = .ok net' := by
  unfold removeGate
  rw [gate_eq_ok.mpr found, Result.ok_bind]
  split
  · exact ⟨_, rfl⟩
  · exact ⟨_, rfl⟩

/-- The gate is gone, and nothing else. -/
structure Removes (net net' : Netlist) (id : GateId) : Prop where
  shapes : net'.shape? = Function.update net.shape? id none
  parts : net'.parts.length ≤ net.parts.length
  next : net'.nextId = net.nextId

theorem removes_removeGate {net net' : Netlist} (h : net.Consistent) {id : GateId}
    (removed : net.removeGate id = .ok net') : Removes net net' id := by
  obtain ⟨old, found, ⟨last, rfl⟩ | ⟨_, mid, r, rfl⟩⟩ := removeGate_spec removed
  · refine ⟨?_, Nat.zero_le _, rfl⟩
    -- The only gate is removed with everything else, and there was nothing else.
    rw [← h.size_gates] at last
    obtain ⟨only, gates⟩ := List.length_eq_one_iff.mp last
    have single : ∀ {x g}, net.gate? x = some g → x = only := by
      intro x g here
      have mem := h.mem_view_gates.mpr ⟨g, here⟩
      rw [view, gates] at mem
      exact List.mem_singleton.mp mem
    funext x
    rw [Function.update_apply]
    split
    · rfl
    · next other =>
      cases here : net.gate? x with
      | none => rw [shape?, shape?, here]; rfl
      | some g => exact absurd ((single here).trans (single found).symm) other
  · refine ⟨?_, ?_, r.next⟩
    · funext x
      show (mid.gate? x).map Gate.toShape = _
      rw [Function.update_apply]
      split
      · next same => rw [same, r.absent]; rfl
      · next other => exact r.shapes x other
    · rw [refresh, List.length_mapIdx, r.length]

/-- Gates can be removed one after the other. -/
theorem exists_removeAll {net : Netlist} (h : net.Reachable) {ids : List GateId} (nodup : ids.Nodup)
    (known : ∀ id ∈ ids, ∃ g, net.gate? id = some g) :
    ∃ net', ids.foldlM removeGate net = .ok net' ∧ net'.Reachable ∧ net'.parts.length ≤ net.parts.length ∧
      net'.nextId = net.nextId ∧ ∀ x, net'.shape? x = if x ∈ ids then none else net.shape? x := by
  refine Result.exists_foldlM_done (fun done (s : Netlist) => s.Reachable ∧ s.parts.length ≤ net.parts.length ∧
    s.nextId = net.nextId ∧ ∀ x, s.shape? x = if x ∈ done then none else net.shape? x)
    ⟨h, Nat.le_refl _, rfl, fun x => by simp⟩ ?_
  intro done id rest s split here
  obtain ⟨reachable, parts, next, shapes⟩ := here
  have left : id ∉ done := by
    intro mem
    rw [split] at nodup
    exact List.disjoint_of_nodup_append nodup mem List.mem_cons_self
  obtain ⟨g, found⟩ := known id (by rw [split]; simp)
  have still : s.shape? id = some g.toShape := by rw [shapes, if_neg left, shape?_of_gate? found]
  obtain ⟨g', found', _⟩ := shape?_eq_some.mp still
  obtain ⟨s', removed⟩ := exists_removeGate found'
  have removes := removes_removeGate reachable.consistent removed
  refine ⟨s', removed, .removeGate id reachable removed, removes.parts.trans parts, removes.next.trans next,
    fun x => ?_⟩
  rw [removes.shapes, Function.update_apply, shapes]
  by_cases same : x = id
  · simp [same]
  · simp [same]

theorem exists_moveGate {net : Netlist} {id : GateId} {g : Gate} (found : net.gate? id = some g) {n : Nat}
    (part : n < net.parts.length) : ∃ net', net.moveGate id (some n) = .ok net' := by
  have isPart : Result.require (n < net.parts.length) (.missingPart n) = .ok () :=
    Result.require_eq_ok.mpr (decide_eq_true part)
  unfold moveGate
  rw [gate_eq_ok.mpr found, Result.ok_bind]
  simp only [isPart, Result.ok_bind]
  split
  · exact ⟨_, rfl⟩
  · exact ⟨_, rfl⟩

/-! ## Sorting -/

theorem isWellFormed_of_flat {net : Netlist} (flat : net.parts = []) :
    Result.require net.isWellFormed .malformedOrder = .ok () := by
  refine Result.require_eq_ok.mpr ?_
  rw [isWellFormed, isFlat, flat]
  rfl

/-- There is nothing to sort in a netlist of one gate, whatever the gate reads. -/
theorem sort_of_few {net : Netlist} (flat : net.parts = []) (few : net.top.size ≤ 1) : net.sort = .ok net := by
  have sorted : net.isSorted = true := Bool.or_eq_true_iff.mpr (.inr (decide_eq_true few))
  unfold sort
  rw [isWellFormed_of_flat flat, Result.ok_bind, if_pos sorted]
  rfl

theorem Consistent.size_le_next {net : Netlist} (h : net.Consistent) : net.top.size ≤ net.nextId := by
  have injective : Function.Injective GateId.index := fun a b same => congrArg GateId.mk same
  have nodup : (net.top.gates.map GateId.index).Nodup := h.top.accounts.nodup.map injective
  have below : (net.top.gates.map GateId.index).Subperm (List.range net.nextId) := by
    apply nodup.subperm
    intro i mem
    obtain ⟨id, listed, rfl⟩ := List.mem_map.mp mem
    obtain ⟨g, found⟩ := h.top.accounts.known id listed
    exact List.mem_range.mpr (h.lt_next (shape?_of_gate? found))
  have := below.length_le
  rwa [List.length_map, List.length_range] at this

/-- A well-formed netlist without loops can be sorted. -/
theorem exists_sort {net : Netlist} (h : net.Consistent) (wellFormed : net.isWellFormed = true)
    (acyclic : net.view.Acyclic) : ∃ net', net.sort = .ok net' := by
  obtain ⟨order, ordered⟩ := exists_combOrder h.wired h.top.accounts.nodup h.top.accounts.known h.top.members acyclic
  have flat : net.flatOrder = .ok order := Result.getOrBreach_eq_ok.mpr ordered
  obtain ⟨orders, parts⟩ : ∃ orders, net.partOrders = .ok orders := by
    refine Result.exists_mapM fun x mem => ?_
    obtain ⟨p, n⟩ := x
    have found := List.mem_zipIdx_iff_getElem?.mp mem
    have covers := h.parts n p found
    obtain ⟨order, ordered⟩ := exists_combOrder h.wired covers.accounts.nodup covers.accounts.known covers.members
      (View.acyclic_part h acyclic found)
    exact ⟨order, Result.getOrBreach_eq_ok.mpr ordered⟩
  have passes : Result.require net.isWellFormed .malformedOrder = .ok () := Result.require_eq_ok.mpr wellFormed
  unfold sort
  rw [passes, Result.ok_bind, flat, parts]
  split
  · exact ⟨_, rfl⟩
  split
  · exact ⟨_, rfl⟩
  · simp only [Result.ok_bind]
    split <;> exact ⟨_, rfl⟩

/-- A flat netlist without loops can be sorted, and stays flat. -/
theorem exists_sort_of_flat {net : Netlist} (h : net.Consistent) (flat : net.parts = []) (acyclic : net.view.Acyclic) :
    ∃ net', net.sort = .ok net' ∧ net'.gate? = net.gate? ∧ net'.parts = [] := by
  obtain ⟨net', sorted⟩ := exists_sort h (Result.require_eq_ok.mp (isWellFormed_of_flat flat)) acyclic
  refine ⟨net', sorted, ?_⟩
  rcases sort_cases sorted with ⟨_, rfl⟩ | ⟨_, order, orders, _, rfl⟩
  · exact ⟨rfl, flat⟩
  · refine ⟨rfl, ?_⟩
    rw [arrange, flat]
    rfl

end Netlist

end LogicNet
