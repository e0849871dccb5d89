import LogicNet.Proofs.Netlist.Growing

/-!
# Feeding links

The value of a gate under what is fed to the boundary LINK BY LINK (`Netlist.FedBy`): two links of one driver may
carry different values. Where they carry the same, these are the values of a valuation. What is fed to the source
links of a circuit determines the values of all its gates (`FedBy.unique`).

In another netlist, links are fed by moving them: `Shape.fed` is the shape of a gate of which some links have been
moved to other drivers. A source has no inputs to move, so it becomes a buffer.
-/

namespace LogicNet

open Std

/-! ## Values by link -/

theorem mapIdx_congr {α β : Type} {xs : List α} {f g : Nat → α → β}
    (same : ∀ (i : Nat) (x : α), xs[i]? = some x → f i x = g i x) : xs.mapIdx f = xs.mapIdx g :=
  List.mapIdx_eq_mapIdx_iff.mpr fun i lt => same i xs[i] (List.getElem?_eq_getElem lt)

/-- The gates from which links come, each once, in the order of their numbers. -/
def driversOf (links : LinkSet) : List GateId := (TreeSet.ofList (links.toList.map Link.source)).toList

theorem mem_driversOf {links : LinkSet} {id : GateId} : id ∈ driversOf links ↔ ∃ l ∈ links, l.source = id := by
  simp [driversOf, TreeSet.mem_ofList]

theorem nodup_driversOf (links : LinkSet) : (driversOf links).Nodup := nodup_toList _

namespace Netlist

/-- Every gate has its value, where a source link carries what is fed to it. -/
def FedBy (net : Netlist) (feed : Link → Bool) (val : GateId → Bool) : Prop :=
  ∀ (id : GateId) (g : Gate), net.gate? id = some g → val id =
    if g.isSource then feed (.port id)
    else g.fn.evalBit false
      (g.inputs.mapIdx fun i s => if net.contains s.driver then val s.driver else feed (.edge s.driver id i))

/-- The source links of a netlist: ports of sources, and edges from drivers outside. -/
theorem Consistent.mem_sources_iff {net : Netlist} (h : net.Consistent) {l : Link} : l ∈ net.sources ↔
    (∃ id g, l = .port id ∧ net.gate? id = some g ∧ g.isSource = true) ∨
      ∃ t i g s, l = .edge s.driver t i ∧ net.gate? t = some g ∧ g.inputs[i]? = some s ∧ net.gate? s.driver = none := by
  rw [show l ∈ net.sources ↔ _ from h.top.bounds.sources l]
  constructor
  · rintro (⟨g, found, _, source, port⟩ | ⟨⟨g, found, link⟩, crosses⟩)
    · exact .inl ⟨l.source, g, port, found, source⟩
    · obtain ⟨i, s, read, eq⟩ := Shape.mem_inputLinks.mp link
      have outside : net.contains l.source = false := by simpa using (Bool.and_eq_true_iff.mp crosses).2
      refine .inr ⟨l.target, i, g, s, eq, found, read, ?_⟩
      rw [eq, contains_eq_isSome] at outside
      exact Option.isNone_iff_eq_none.mp (Option.isSome_eq_false_iff.mp outside)
  · rintro (⟨id, g, rfl, found, source⟩ | ⟨t, i, g, s, rfl, found, read, outside⟩)
    · exact onBoundary_port.mpr ⟨g, found, contains_iff.mpr ⟨g, found⟩, source⟩
    · refine .inr ⟨⟨g, found, Shape.mem_inputLinks.mpr ⟨i, s, read, rfl⟩⟩, ?_⟩
      show (net.contains t && !net.contains s.driver) = true
      rw [contains_eq_isSome, contains_eq_isSome, found, outside]
      rfl

/-- The target links of a netlist: ports of outputs. -/
theorem Consistent.mem_targets_iff {net : Netlist} (h : net.Consistent) {l : Link} :
    l ∈ net.targets ↔ ∃ g, net.gate? l.source = some g ∧ g.isOutput = true ∧ l = .port l.source := by
  rw [show l ∈ net.targets ↔ _ from h.top.bounds.targets l]
  constructor
  · rintro (⟨g, found, _, output, port⟩ | ⟨⟨g, found, _⟩, crosses⟩)
    · exact ⟨g, found, output, port⟩
    · simp [contains_iff.mpr ⟨g, found⟩] at crosses
  · rintro ⟨g, found, output, port⟩
    exact .inl ⟨g, found, contains_iff.mpr ⟨g, found⟩, output, port⟩

theorem Consistent.port_mem_sources {net : Netlist} (h : net.Consistent) {id : GateId} {g : Gate}
    (found : net.gate? id = some g) : .port id ∈ net.sources ↔ g.isSource = true := by
  rw [show .port id ∈ net.sources ↔ _ from h.top.bounds.sources _]
  refine onBoundary_port.trans ⟨?_, fun source => ⟨g, found, contains_iff.mpr ⟨g, found⟩, source⟩⟩
  rintro ⟨g', found', _, source⟩
  rw [found] at found'
  cases found'
  exact source

theorem Consistent.edge_mem_sources {net : Netlist} (h : net.Consistent) {t : GateId} {g : Gate}
    (found : net.gate? t = some g) {i : Nat} {s : Signal} (read : g.inputs[i]? = some s) :
    .edge s.driver t i ∈ net.sources ↔ net.gate? s.driver = none := by
  rw [h.mem_sources_iff]
  constructor
  · rintro (⟨id, _, eq, _⟩ | ⟨_, _, _, s', eq, _, _, outside⟩)
    · cases congrArg Link.pin eq
    · rw [show s.driver = s'.driver from congrArg Link.source eq]
      exact outside
  · intro outside
    exact .inr ⟨t, i, g, s, rfl, found, read, outside⟩

/-- Only what is fed to source links matters. -/
theorem FedBy.congr {net : Netlist} (h : net.Consistent) {feed feed' : Link → Bool} {val : GateId → Bool}
    (fed : net.FedBy feed val) (same : ∀ l ∈ net.sources, feed l = feed' l) : net.FedBy feed' val := by
  intro id g found
  rw [fed id g found]
  by_cases source : g.isSource = true
  · rw [if_pos source, if_pos source, same _ ((h.port_mem_sources found).mpr source)]
  · rw [if_neg source, if_neg source]
    congr 1
    refine mapIdx_congr fun i s read => ?_
    cases driver : net.gate? s.driver with
    | none => rw [same _ ((h.edge_mem_sources found read).mpr driver)]
    | some d => rw [if_pos (contains_iff.mpr ⟨d, driver⟩), if_pos (contains_iff.mpr ⟨d, driver⟩)]

/-- The values of a valuation, where every source link carries the value of its driver. -/
theorem FedBy.of_valuation {net : Netlist} (circuit : net.view.Circuit) {val : GateId → Bool}
    (valuation : net.view.Valuation val) : net.FedBy (fun l => val l.source) val := by
  have consistent : net.Consistent := circuit.ofReachable.1.consistent
  intro id g found
  cases source : g.isSource with
  | true => rfl
  | false =>
    have logic := (circuit.logic id (consistent.mem_view_gates.mpr ⟨g, found⟩) g found).1
    rw [if_neg Bool.false_ne_true, consistent.value_of_shape? valuation (shape?_of_gate? found) logic source,
      Shape.value]
    congr 1
    refine List.ext_getElem? fun i => ?_
    rw [List.getElem?_map, List.getElem?_mapIdx]
    exact congrArg (Option.map · g.inputs[i]?) (funext fun s => (ite_self (val s.driver)).symm)

/-- What is fed determines the values of all gates of a circuit. -/
theorem FedBy.unique {net : Netlist} (circuit : net.view.Circuit) {feed : Link → Bool} {val val' : GateId → Bool}
    (h : net.FedBy feed val) (h' : net.FedBy feed val') {id : GateId} {g : Gate} (found : net.gate? id = some g) :
    val id = val' id := by
  have coherent := circuit.ofReachable.coherent
  have consistent : net.Consistent := circuit.ofReachable.1.consistent
  obtain ⟨order, sorted⟩ := coherent.exists_orderedGates circuit.acyclic
  obtain ⟨perm, ordered⟩ := coherent.orderedGates_spec sorted
  suffices all : ∀ id ∈ order, val id = val' id from
    all id (perm.mem_iff.mpr (consistent.mem_view_gates.mpr ⟨g, found⟩))
  refine ordered_induction ordered (fun id mem => circuit.acyclic.not_feeds_self (perm.mem_iff.mp mem)) ?_
  intro id mem ih
  have inside := perm.mem_iff.mp mem
  obtain ⟨g, here⟩ := consistent.mem_view_gates.mp inside
  rw [h id g here, h' id g here]
  split
  · rfl
  · congr 1
    refine mapIdx_congr fun i s read => ?_
    split
    · next driver =>
      have known := perm.mem_iff.mpr (consistent.mem_view_gates.mpr (contains_iff.mp driver))
      exact ih _ known ⟨g, here, (circuit.logic id inside g here).2, s, List.mem_of_getElem? read, rfl⟩
    · rfl

/-- The values of all gates under what is fed to the source links. There is no other way to give them values. -/
structure FedValues (net : Netlist) (feed : Link → Bool) (val : GateId → Bool) : Prop where
  fed : net.FedBy feed val
  unique : ∀ val', net.FedBy feed val' → ∀ (id : GateId) (g : Gate), net.gate? id = some g → val' id = val id

theorem FedBy.fedValues {net : Netlist} (circuit : net.view.Circuit) {feed : Link → Bool} {val : GateId → Bool}
    (h : net.FedBy feed val) : net.FedValues feed val :=
  ⟨h, fun _ h' _ _ found => h'.unique circuit h found⟩

end Netlist

/-! ## Shapes that are fed -/

namespace Shape

/-- The shape of a gate that has been renamed, with some of its links moved to other drivers. -/
def fed (f : GateId → GateId) (feed : Link → Option GateId) (id : GateId) (s : Shape) : Shape :=
  match feed (.port id) with
  | some x => .nary .buffer [x]
  | none => ⟨s.fn, s.inputs.mapIdx fun i x => x.withDriver ((feed (.edge x.driver id i)).getD (f x.driver))⟩

variable {f : GateId → GateId} {feed feed' : Link → Option GateId} {id x : GateId} {s : Shape}

/-- Only the links into the gate matter. -/
theorem fed_congr (same : ∀ l : Link, l.target = id → feed l = feed' l) : s.fed f feed id = s.fed f feed' id := by
  have edges : ∀ (x : Signal) (i : Nat), feed (.edge x.driver id i) = feed' (.edge x.driver id i) :=
    fun x i => same (.edge x.driver id i) rfl
  rw [fed, fed, same (.port id) rfl]
  simp only [edges]

theorem fed_of_port (port : feed (.port id) = some x) : s.fed f feed id = .nary .buffer [x] := by
  rw [fed, port]

theorem fed_of_unfed (port : feed (.port id) = none) : s.fed f feed id =
    ⟨s.fn, s.inputs.mapIdx fun i x => x.withDriver ((feed (.edge x.driver id i)).getD (f x.driver))⟩ := by
  rw [fed, port]

theorem fed_nothing : s.fed f (fun _ => none) id = s.rename f := by
  rw [fed_of_unfed rfl, rename, Shape.mk.injEq]
  refine ⟨rfl, List.ext_getElem? fun i => ?_⟩
  rw [List.getElem?_mapIdx, List.getElem?_map]
  rfl

/-- Moving one more link is setting one input. -/
theorem fed_update_edge {t : GateId} {i : Nat} {y : Signal} (port : feed (.port t) = none)
    (read : s.inputs[i]? = some y) :
    s.fed f (Function.update feed (.edge y.driver t i) (some x)) t =
      ⟨s.fn, (s.fed f feed t).inputs.set i (y.withDriver x)⟩ := by
  have still : Function.update feed (.edge y.driver t i) (some x) (.port t) = none := by
    rw [Function.update_of_ne, port]
    exact fun same => nomatch congrArg Link.pin same
  rw [fed_of_unfed still, fed_of_unfed port, Shape.mk.injEq]
  refine ⟨rfl, List.ext_getElem? fun j => ?_⟩
  rw [List.getElem?_set, List.getElem?_mapIdx, List.getElem?_mapIdx, List.length_mapIdx]
  by_cases same : i = j
  · subst same
    rw [if_pos rfl, if_pos (List.getElem?_eq_some_iff.mp read).1, read, Option.map_some, Function.update_self]
    rfl
  · rw [if_neg same]
    congr 1
    funext z
    rw [Function.update_of_ne]
    intro eq
    exact same (Pin.input.inj (congrArg Link.pin eq)).symm

theorem isSource_eq_false_of_read {y : Signal} (read : y ∈ s.inputs) : s.isSource = false := by
  rw [isSource, List.isEmpty_eq_false_iff_exists_mem.mpr ⟨y, read⟩, Bool.false_and]

/-- A source is one as long as its port is not fed. -/
theorem isSource_fed_iff : (s.fed f feed id).isSource = true ↔ s.isSource = true ∧ feed (.port id) = none := by
  cases port : feed (.port id) with
  | some x =>
    rw [fed_of_port port]
    simp [isSource, nary]
  | none =>
    rw [and_iff_left rfl, fed_of_unfed port, isSource, isSource]
    simp only [Bool.and_eq_true, List.isEmpty_iff, List.mapIdx_eq_nil_iff]

/-- The inputs are sampled by the same events as before. -/
theorem events_fed (port : feed (.port id) = none) :
    (s.fed f feed id).inputs.map Signal.event = s.inputs.map Signal.event := by
  rw [fed_of_unfed port]
  refine List.ext_getElem? fun i => ?_
  rw [List.getElem?_map, List.getElem?_mapIdx, List.getElem?_map, Option.map_map]
  rfl

theorem isTrigger_congr {s' : Shape} (same : s.inputs.map Signal.event = s'.inputs.map Signal.event) :
    s.isTrigger = s'.isTrigger := by
  have events : ∀ s : Shape, s.isTrigger = (s.inputs.map Signal.event).any (!· == .always) := by
    intro s
    rw [List.any_map]
    rfl
  rw [events, events, same]

theorem isTrigger_fed (plain : s.isTrigger = false) : (s.fed f feed id).isTrigger = false := by
  cases port : feed (.port id) with
  | some x => rw [fed_of_port port, isTrigger_nary]
  | none => rw [isTrigger_congr (events_fed port), plain]

theorem hasArity_fed (arity : s.hasArity = true) : (s.fed f feed id).hasArity = true := by
  cases port : feed (.port id) with
  | some x =>
    rw [fed_of_port port]
    rfl
  | none =>
    have length := congrArg List.length (events_fed port (f := f) (s := s))
    rw [List.length_map, List.length_map] at length
    rw [hasArity, Shape.arity, length, fed_of_unfed port]
    exact arity

theorem isLogic_fed (logic : s.fn.isLogic = true) : (s.fed f feed id).fn.isLogic = true := by
  cases port : feed (.port id) with
  | some x =>
    rw [fed_of_port port]
    rfl
  | none =>
    rw [fed_of_unfed port]
    exact logic

theorem isOutput_of_fed (output : (s.fed f feed id).isOutput = true) : s.isOutput = true := by
  cases port : feed (.port id) with
  | some x =>
    rw [fed_of_port port] at output
    cases output
  | none =>
    rw [fed_of_unfed port] at output
    exact output

/-- A driver of a gate that is fed feeds it, or is the image of one of its drivers. -/
theorem driver_of_fed {y : Signal} (read : y ∈ (s.fed f feed id).inputs) :
    (∃ l, feed l = some y.driver) ∨
      ∃ (i : Nat) (z : Signal), s.inputs[i]? = some z ∧ feed (.edge z.driver id i) = none ∧ y.driver = f z.driver := by
  cases port : feed (.port id) with
  | some x =>
    rw [fed_of_port port] at read
    obtain rfl : y = .plain x := by simpa [nary] using read
    exact .inl ⟨_, port⟩
  | none =>
    rw [fed_of_unfed port] at read
    obtain ⟨i, lt, rfl⟩ := List.mem_mapIdx.mp read
    cases moved : feed (.edge s.inputs[i].driver id i) with
    | some x => exact .inl ⟨_, moved⟩
    | none => exact .inr ⟨i, s.inputs[i], List.getElem?_eq_getElem lt, moved, rfl⟩

end Shape

end LogicNet
