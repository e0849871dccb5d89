import LogicNet.Proofs.Netlist.Consistent

/-!
# Editing keeps a netlist consistent

Building, changing and removing a gate. Each proof says what the edit did to the table, which is
where it opens a hole and closes it, and what it did to the lists and classes of the parts; the
boundaries are left to `Consistent.refreshed`.
-/

namespace LogicNet

open Std

namespace Netlist

/-! ## Numbers -/

theorem following_eq_ok {n m : Nat} (h : following n = .ok m) : m = n + 1 := by
  unfold following at h
  split at h
  · cases h
    rfl
  · cases h

/-- The number is past every driver, and not before the one that was free. -/
theorem reserve_spec {next n : Nat} {inputs : List Signal} (h : reserve next inputs = .ok n) :
    next ≤ n ∧ ∀ s ∈ inputs, s.driver.index < n := by
  induction inputs generalizing next with
  | nil =>
    cases h
    simp
  | cons s inputs ih =>
    rw [reserve, List.foldlM_cons] at h
    obtain ⟨mid, head, tail⟩ := Result.bind_eq_ok.mp h
    obtain ⟨le, later⟩ := ih tail
    have first : next ≤ mid ∧ s.driver.index < mid := by
      split at head
      · have := following_eq_ok head
        omega
      · cases head
        omega
    refine ⟨Nat.le_trans first.1 le, ?_⟩
    intro t mem
    rcases List.mem_cons.mp mem with rfl | mem
    · exact Nat.lt_of_lt_of_le first.2 le
    · exact later t mem

/-! ## What an edit leaves alone -/

theorem partOf?_congr {net net' : Netlist} (h : net'.home = net.home) : net'.partOf? = net.partOf? := by
  funext id
  rw [partOf?, h, partOf?]

theorem inPart_congr {net net' : Netlist} (h : net'.home = net.home) : net'.inPart = net.inPart := by
  funext n id
  rw [inPart, partOf?_congr h, inPart]

/-- Every edge at a gate is among its links. -/
theorem mem_linksOf {net : Netlist} (wired : Wired net.gate? net.nextId) {id : GateId} {g : Gate}
    (found : net.gate? id = some g) {l : Link} (edge : IsEdge net.gate? l)
    (ends : l.source = id ∨ l.target = id) : l ∈ net.linksOf id := by
  rw [linksOf_eq found, List.mem_append]
  rcases ends with source | target
  · exact .inr ((wired.fanout found l).mpr ⟨source, edge⟩)
  · rw [Gate.inputLinks, wired.keyed found]
    exact .inl ((isEdge_iff_mem found target).mp edge)

theorem sameShape_connected {gate? : GateId → Option Gate} {links : List Link} (id : GateId) :
    SameShape (connected gate? links) gate? id := by
  simp [SameShape, connected, relisted, Function.comp_def]

theorem sameShape_disconnected {gate? : GateId → Option Gate} {links : List Link} (id : GateId) :
    SameShape (disconnected gate? links) gate? id := by
  simp [SameShape, disconnected, relisted, Function.comp_def]

theorem sameShape_update {gate? : GateId → Option Gate} {id x : GateId} {g : Option Gate}
    (other : x ≠ id) : SameShape (Function.update gate? id g) gate? x := by
  rw [SameShape, Function.update_of_ne other]

/-! ## Building -/

/-- The state `mid` of a netlist in which gate `g` was built, before its boundaries are refreshed. The
number of the gate was free and is past all its drivers. -/
structure Building (net : Netlist) (g : Gate) (mid : Netlist) : Prop where
  fresh : net.nextId ≤ g.id.index
  drivers : ∀ s ∈ g.inputs, s.driver.index < g.id.index
  unused : g.fanout = []
  valid : g.isValid = true
  gates : mid.gate? = connected (Function.update net.gate? g.id (some g)) g.inputLinks
  outputs : ∀ l ∈ g.inputLinks, ∀ d, Function.update net.gate? g.id (some g) l.source = some d →
    d.isOutput = false
  next : mid.nextId = g.id.index + 1
  top : mid.top = net.top.insert g
  parts : mid.parts = net.parts
  home : mid.home = net.home
  emptyParts : mid.emptyParts = net.emptyParts
  housed : mid.housed = net.housed
  shared : mid.shared = net.shared

theorem build_spec {net net' : Netlist} {shape : Shape} {id : GateId}
    (built : net.build shape = .ok (id, net')) :
    ∃ mid, Building net { shape with id } mid ∧
      net' = (mid.refresh id [] none).register { shape with id } := by
  obtain ⟨number, reserved, built⟩ := Result.bind_eq_ok.mp built
  obtain ⟨nextId, following, built⟩ := Result.bind_eq_ok.mp built
  obtain ⟨_, valid, built⟩ := Result.bind_eq_ok.mp built
  obtain ⟨mid, connecting, built⟩ := Result.bind_eq_ok.mp built
  cases built
  obtain ⟨le, drivers⟩ := reserve_spec reserved
  obtain rfl := following_eq_ok following
  obtain ⟨gates, rest, outputs⟩ := connect_spec connecting
  refine ⟨mid, ⟨le, drivers, rfl, Result.require_eq_ok.mp valid, ?_, ?_, rest.next, rest.top, rest.parts,
    rest.home, rest.emptyParts, rest.housed, rest.shared⟩, rfl⟩
  · exact gates.trans (congrArg (connected · _) (gate?_insert rfl))
  · intro l mem d driver
    exact outputs l mem d ((congrFun (gate?_insert rfl) _).trans driver)

namespace Building

variable {net mid : Netlist} {g : Gate}

/-- The number was not in use. -/
theorem absent (b : Building net g mid) (h : net.Consistent) : net.gate? g.id = none := by
  cases found : net.gate? g.id with
  | none => rfl
  | some old => exact absurd (h.wired.given found) (Nat.not_lt.mpr b.fresh)

/-- No gate reads a number that was not in use. -/
theorem unread (b : Building net g mid) (h : net.Consistent) {l : Link} (edge : IsEdge net.gate? l) :
    l.source ≠ g.id := by
  intro source
  have := h.wired.source_lt edge
  rw [source] at this
  exact absurd this (Nat.not_lt.mpr b.fresh)

theorem wired (b : Building net g mid) (h : net.Consistent) : Wired mid.gate? mid.nextId := by
  have opened : WiredExcept (Function.update net.gate? g.id (some g)) (g.id.index + 1) g.id := by
    refine (h.wired.hole (b.absent h)).set rfl b.valid (by simp [b.unused]) ?_
      (Nat.le_succ_of_le b.fresh) (Nat.lt_succ_self _) fun s mem => Nat.lt_succ_of_lt (b.drivers s mem)
    intro l
    rw [b.unused]
    refine iff_of_false List.not_mem_nil ?_
    rintro ⟨source, edge, _⟩
    exact b.unread h edge source
  rw [b.gates, b.next]
  exact opened.connect (Function.update_self ..) b.outputs

theorem shapes (b : Building net g mid) : ∀ x ≠ g.id, SameShape mid.gate? net.gate? x := by
  intro x other
  rw [b.gates]
  exact (sameShape_connected x).trans (sameShape_update other)

theorem holds (b : Building net g mid) : Holds mid.gate? g := by
  simp [Holds, b.gates, connected, relisted]

end Building

/-- Building a gate keeps a netlist consistent. -/
theorem Consistent.build {net net' : Netlist} (h : net.Consistent) {shape : Shape} {id : GateId}
    (built : net.build shape = .ok (id, net')) : net'.Consistent := by
  obtain ⟨mid, b, rfl⟩ := build_spec built
  generalize gateEq : ({ shape with id } : Gate) = g at b ⊢
  obtain rfl : g.id = id := by rw [← gateEq]
  have absent := b.absent h
  have new : ∀ {p member}, Covers net.gate? member p → g.id ∉ p.gates := by
    intro p member covers mem
    obtain ⟨old, found⟩ := covers.accounts.known _ mem
    rw [absent] at found
    cases found
  obtain ⟨now, found, _⟩ := Option.map_eq_some_iff.mp b.holds
  refine Consistent.register (h.refreshed (b.wired h) ?around (by simp) ?homes ?was ?isPart ?length ?top
    ?parts ?tallied ?shared) b.holds
  case around =>
    refine ⟨b.shapes, ?_, ?_⟩
    · intro l edge ends
      exact absurd ends (not_or.mpr ⟨b.unread h edge, edge.target_ne absent⟩)
    · intro l edge ends
      exact List.mem_append_right _ (mem_linksOf (b.wired h) found edge ends)
  case homes =>
    intro x _
    rw [partOf?_congr b.home]
  case was =>
    intro n before
    rw [partOf?_congr b.home]
    exact .inr before
  case isPart =>
    rw [partOf?_congr b.home, b.parts]
    exact h.homes _
  case length => rw [b.parts]
  case top =>
    rw [b.top]
    refine h.top.inserted b.holds (new h.top) b.shapes ?_
    intro x
    by_cases same : x = g.id
    · simp [same, contains_eq_isSome, found]
    · rw [contains_congr (b.shapes x same)]
      simp [same]
  case parts =>
    intro n q here
    rw [b.parts] at here
    rw [inPart_congr b.home]
    have part := h.parts n q here
    refine ⟨q, here, part.stale fun x mem => b.shapes x ?_⟩
    rintro rfl
    exact new part mem
  case tallied => exact h.tallied.congr (fun n => by rw [b.parts]) b.home b.emptyParts b.housed
  case shared =>
    rw [b.shared]
    refine h.shared.congr fun s id before => ⟨before, b.shapes id ?_⟩
    rintro rfl
    have := (h.shared s _ before).2
    rw [absent] at this
    cases this

/-! ## Changing -/

/-- Among the parts only the one the gate is in changes. -/
theorem getElem?_modifyHome (net : Netlist) (id : GateId) (f : Part → Part) (n : Nat) :
    (net.modifyHome id f).parts[n]? =
      net.parts[n]?.map fun p => if net.inPart n id = true then f p else p := by
  simp only [modifyHome, inPart_iff]
  cases home : net.partOf? id with
  | none => simp
  | some m =>
    simp only [List.getElem?_modify, Option.some.injEq]
    rfl

@[simp] theorem length_modifyHome (net : Netlist) (id : GateId) (f : Part → Part) :
    (net.modifyHome id f).parts.length = net.parts.length := by
  simp only [modifyHome]
  cases net.partOf? id <;> simp

/-- Forgetting a gate that is found under its shape changes nothing else. -/
theorem unregister_eq (net : Netlist) (g : Gate) :
    net.unregister g = { net with shared := (net.unregister g).shared } := by
  unfold unregister
  split <;> rfl

/-- The state `mid` of a netlist in which gate `id` became `g`, before its boundaries are refreshed. It
was `old`, and it keeps its fan-out, itself as a reader apart. -/
structure Changing (net : Netlist) (id : GateId) (old g : Gate) (mid : Netlist) : Prop where
  found : net.gate? id = some old
  kept : disconnected net.gate? old.inputLinks id = some { g with toShape := old.toShape }
  valid : g.isValid = true
  more : net.nextId ≤ mid.nextId
  drivers : ∀ s ∈ g.inputs, s.driver.index < mid.nextId
  gates : mid.gate? =
    connected (Function.update (disconnected net.gate? old.inputLinks) id (some g)) g.inputLinks
  outputs : ∀ l ∈ g.inputLinks, ∀ d,
    Function.update (disconnected net.gate? old.inputLinks) id (some g) l.source = some d →
      d.isOutput = false
  top : mid.top = ((net.top.unclassify old).classify g).disturb
  parts : ∀ n : Nat, mid.parts[n]? = net.parts[n]?.map fun p =>
    if net.inPart n id = true then ((p.unclassify old).classify g).disturb else p
  length : mid.parts.length = net.parts.length
  home : mid.home = net.home
  emptyParts : mid.emptyParts = net.emptyParts
  housed : mid.housed = net.housed
  shared : mid.shared = (net.unregister old).shared

theorem setGate_spec {net net' : Netlist} {id : GateId} {shape : Shape}
    (set : net.setGate id shape = .ok net') :
    ∃ old g mid, g.toShape = shape ∧ Changing net id old g mid ∧
      net' = (mid.refresh id old.inputLinks none).register g := by
  obtain ⟨old, found, set⟩ := Result.bind_eq_ok.mp set
  obtain ⟨nextId, reserved, set⟩ := Result.bind_eq_ok.mp set
  obtain ⟨kept, keptFound, set⟩ := Result.bind_eq_ok.mp set
  obtain ⟨_, valid, set⟩ := Result.bind_eq_ok.mp set
  obtain ⟨mid, connecting, set⟩ := Result.bind_eq_ok.mp set
  cases set
  obtain ⟨more, drivers⟩ := reserve_spec reserved
  have forgotten : ({ net with nextId } : Netlist).unregister old =
      { net with nextId, shared := (net.unregister old).shared } := by
    unfold unregister
    split <;> simp_all
  rw [forgotten] at keptFound connecting
  obtain ⟨cutGates, cutRest⟩ :=
    disconnect_spec { net with nextId, shared := (net.unregister old).shared } old.inputLinks
  generalize disconnect _ old.inputLinks = cut at keptFound connecting cutGates cutRest
  obtain ⟨gates, rest, outputs⟩ := connect_spec connecting
  have keptIs : disconnected net.gate? old.inputLinks id = some kept := by
    rw [← gate_eq_ok.mp keptFound]
    exact (congrFun cutGates id).symm
  obtain ⟨before, isOld, rfl⟩ := Option.map_eq_some_iff.mp keptIs
  rw [gate_eq_ok.mp found] at isOld
  cases isOld
  have table : ∀ g, Function.update cut.gate? id (some g) =
      Function.update (disconnected net.gate? old.inputLinks) id (some g) :=
    fun g => congrArg (Function.update · id (some g)) cutGates
  refine ⟨old, _, _, rfl, ?_, rfl⟩
  constructor
  case found => exact gate_eq_ok.mp found
  case kept => exact keptIs
  case valid => exact Result.require_eq_ok.mp valid
  case more => exact Nat.le_trans more (Nat.le_of_eq (rest.next.trans cutRest.next).symm)
  case drivers =>
    intro s mem
    exact Nat.lt_of_lt_of_eq (drivers s mem) (rest.next.trans cutRest.next).symm
  case gates => exact gates.trans (congrArg (connected · _) ((gate?_insert rfl).trans (table _)))
  case outputs =>
    intro l mem d driver
    exact outputs l mem d ((congrFun ((gate?_insert rfl).trans (table _)) _).trans driver)
  case top => simp only [modifyHome, rest.top, cutRest.top]
  case parts =>
    intro n
    have cutHome : cut.home = net.home := cutRest.home
    rw [getElem?_modifyHome, rest.parts, getElem?_modifyHome, cutRest.parts, inPart_congr cutHome,
      inPart_congr (rest.home.trans cutHome), Option.map_map]
    congr 1
    funext p
    by_cases here : net.inPart n id = true <;> simp [here]
  case length => rw [length_modifyHome, rest.parts, length_modifyHome, cutRest.parts]
  case home => exact rest.home.trans cutRest.home
  case emptyParts => exact rest.emptyParts.trans cutRest.emptyParts
  case housed => exact rest.housed.trans cutRest.housed
  case shared => exact rest.shared.trans cutRest.shared

namespace Changing

variable {net mid : Netlist} {id : GateId} {old g : Gate}

theorem keyed (c : Changing net id old g mid) (h : net.Consistent) : g.id = id := by
  have := (h.wired.disconnect c.found).keyed c.kept
  exact this

theorem wired (c : Changing net id old g mid) (h : net.Consistent) : Wired mid.gate? mid.nextId := by
  have opened := h.wired.disconnect c.found
  have nodup : g.fanout.Nodup := by simpa using opened.nodup c.kept
  have fanout := opened.fanout c.kept
  have changed := opened.set (c.keyed h) c.valid nodup fanout c.more
    (Nat.lt_of_lt_of_le (h.wired.given c.found) c.more) c.drivers
  rw [c.gates]
  exact changed.connect (Function.update_self ..) c.outputs

theorem shapes (c : Changing net id old g mid) : ∀ x ≠ id, SameShape mid.gate? net.gate? x := by
  intro x other
  rw [c.gates]
  exact (sameShape_connected x).trans ((sameShape_update other).trans (sameShape_disconnected x))

theorem holds (c : Changing net id old g mid) (h : net.Consistent) : Holds mid.gate? g := by
  simp [Holds, c.gates, connected, relisted, c.keyed h]

/-- The edges at the gate are or were links of its inputs, or lead on from it as before. -/
theorem around (c : Changing net id old g mid) (h : net.Consistent) :
    Around net.gate? mid.gate? id (old.inputLinks ++ mid.linksOf id) := by
  obtain ⟨now, found, _⟩ := Option.map_eq_some_iff.mp (c.holds h)
  rw [c.keyed h] at found
  refine ⟨c.shapes, ?_, ?_⟩
  · intro l edge ends
    by_cases target : l.target = id
    · refine List.mem_append_left _ ?_
      rw [Gate.inputLinks, h.wired.keyed c.found]
      exact (isEdge_iff_mem c.found target).mp edge
    · have still : IsEdge mid.gate? l := (IsEdge.congr (c.shapes _ target)).mpr edge
      exact List.mem_append_right _ (mem_linksOf (c.wired h) found still ends)
  · intro l edge ends
    exact List.mem_append_right _ (mem_linksOf (c.wired h) found edge ends)

end Changing

/-- Changing a gate keeps a netlist consistent. -/
theorem Consistent.setGate {net net' : Netlist} (h : net.Consistent) {id : GateId} {shape : Shape}
    (set : net.setGate id shape = .ok net') : net'.Consistent := by
  obtain ⟨old, g, mid, _, c, rfl⟩ := setGate_spec set
  obtain rfl := h.wired.keyed c.found
  have held : Holds net.gate? old := by simp [Holds, c.found]
  obtain ⟨now, found, _⟩ := Option.map_eq_some_iff.mp (c.holds h)
  rw [c.keyed h] at found
  refine Consistent.register (h.refreshed (c.wired h) (c.around h) ?extra ?homes ?was ?isPart c.length
    ?top ?parts ?tallied ?shared) (c.holds h)
  case extra => exact fun l mem => Shape.not_isPort_of_mem_inputLinks mem
  case homes =>
    intro x _
    rw [partOf?_congr c.home]
  case was =>
    intro n before
    rw [partOf?_congr c.home]
    exact .inr before
  case isPart =>
    rw [partOf?_congr c.home, c.length]
    exact h.homes _
  case top =>
    have same : mid.contains = net.contains := by
      funext x
      by_cases here : x = old.id
      · rw [here, contains_eq_isSome, contains_eq_isSome, found, c.found]
        rfl
      · exact contains_congr (c.shapes x here)
    rw [c.top, same]
    exact h.top.reclassified held (contains_iff.mpr ⟨old, c.found⟩) (c.holds h) (c.keyed h) c.shapes
  case parts =>
    intro n q here
    rw [c.parts] at here
    obtain ⟨p, before, rfl⟩ := Option.map_eq_some_iff.mp here
    rw [inPart_congr c.home]
    have part := h.parts n p before
    refine ⟨p, before, ?_⟩
    split
    · next inside => exact part.reclassified held inside (c.holds h) (c.keyed h) c.shapes
    · next outside =>
      refine part.stale fun x mem => c.shapes x ?_
      rintro rfl
      exact outside ((part.members _).mpr mem)
  case tallied =>
    refine h.tallied.congr (fun n => ?_) c.home c.emptyParts c.housed
    rw [c.parts, Option.map_map]
    congr 1
    funext p
    simp only [Function.comp_apply]
    split <;> rfl
  case shared =>
    rw [c.shared]
    refine h.shared.congr fun s id before => ?_
    obtain ⟨before, other⟩ := getElem?_unregister h.shared held before
    exact ⟨before, c.shapes id other⟩

/-! ## Removing -/

/-- Leaving a part changes the parts, the homes and the tallies alone. -/
theorem leavePart_eq (net : Netlist) (id : GateId) (g : Gate) :
    net.leavePart id g =
      { net with
        parts := (net.leavePart id g).parts
        home := (net.leavePart id g).home
        emptyParts := (net.leavePart id g).emptyParts
        housed := (net.leavePart id g).housed } := by
  unfold leavePart
  split <;> rfl

theorem getElem?_leavePart (net : Netlist) (id : GateId) (g : Gate) (n : Nat) :
    (net.leavePart id g).parts[n]? = net.parts[n]?.map fun p => if net.inPart n id = true then p.erase g else p := by
  simp only [leavePart, inPart_iff]
  cases home : net.partOf? id with
  | none => simp
  | some m =>
    simp only [List.getElem?_modify, Option.some.injEq]
    rfl

@[simp] theorem length_leavePart (net : Netlist) (id : GateId) (g : Gate) :
    (net.leavePart id g).parts.length = net.parts.length := by
  unfold leavePart
  split <;> simp

theorem partOf?_leavePart (net : Netlist) (id : GateId) (g : Gate) (x : GateId) :
    (net.leavePart id g).partOf? x = if x = id then none else net.partOf? x := by
  unfold leavePart
  split
  · simp only [partOf?, TreeMap.getElem?_erase, LawfulEqCmp.compare_eq_iff_eq]
    exact if_congr eq_comm rfl rfl
  · next homeless =>
    by_cases here : x = id
    · rw [here, if_pos rfl, homeless]
    · rw [if_neg here]

/-- The state `mid` of a netlist from which gate `id` was removed, before its boundaries are refreshed.
It was `old`. -/
structure Removing (net : Netlist) (id : GateId) (old : Gate) (mid : Netlist) : Prop where
  found : net.gate? id = some old
  gates : mid.gate? = disconnected (Function.update net.gate? id none) old.inputLinks
  next : mid.nextId = net.nextId
  top : mid.top = net.top.erase old
  parts : ∀ n : Nat, mid.parts[n]? = net.parts[n]?.map fun p =>
    if net.inPart n id = true then p.erase old else p
  length : mid.parts.length = net.parts.length
  homes : ∀ x, mid.partOf? x = if x = id then none else net.partOf? x
  tallied : net.Tallied → (∀ n, net.partOf? id = some n → net.parts[n]?.map Part.gates ≠ some []) → mid.Tallied
  shared : mid.shared = (net.unregister old).shared

theorem removeGate_spec {net net' : Netlist} {id : GateId} (removed : net.removeGate id = .ok net') :
    ∃ old, net.gate? id = some old ∧ (net.size = 1 ∧ net' = net.clear ∨ net.size ≠ 1 ∧
      ∃ mid, Removing net id old mid ∧
        net' = mid.refresh id (old.inputLinks ++ old.fanout) (net.partOf? id)) := by
  obtain ⟨old, found, removed⟩ := Result.bind_eq_ok.mp removed
  refine ⟨old, gate_eq_ok.mp found, ?_⟩
  split at removed
  · next last =>
    cases removed
    exact .inl ⟨last, rfl⟩
  · next more =>
    rw [unregister_eq net old] at removed
    simp only at removed
    obtain ⟨cutGates, cutRest⟩ := disconnect_spec
      { net with table := net.table.erase id, shared := (net.unregister old).shared } old.inputLinks
    generalize disconnect _ old.inputLinks = cut at removed cutGates cutRest
    have cutHome : cut.home = net.home := cutRest.home
    have homes : ({ cut with top := cut.top.erase old } : Netlist).home = net.home := cutHome
    cases removed
    refine .inr ⟨more, _, ?_, by rw [partOf?_congr cutHome]⟩
    constructor
    case found => exact gate_eq_ok.mp found
    case gates =>
      rw [leavePart_eq]
      exact cutGates.trans (congrArg (disconnected · _) (gate?_erase rfl))
    case next =>
      rw [leavePart_eq]
      exact cutRest.next
    case top => rw [leavePart_eq, cutRest.top]
    case parts =>
      intro n
      rw [getElem?_leavePart, inPart_congr homes, cutRest.parts]
    case length => rw [length_leavePart, cutRest.parts]
    case homes =>
      intro x
      rw [partOf?_leavePart, partOf?_congr homes]
    case tallied =>
      intro tallied occupied
      refine Tallied.leavePart (tallied.congr ?_ homes cutRest.emptyParts cutRest.housed) ?_
      · intro n
        rw [cutRest.parts]
      · rw [partOf?_congr homes, cutRest.parts]
        exact occupied
    case shared =>
      rw [leavePart_eq]
      exact cutRest.shared

namespace Removing

variable {net mid : Netlist} {id : GateId} {old : Gate}

theorem absent (r : Removing net id old mid) : mid.gate? id = none := by
  simp [r.gates, disconnected, relisted]

theorem wired (r : Removing net id old mid) (h : net.Consistent) : Wired mid.gate? mid.nextId := by
  have swapped : disconnected (Function.update net.gate? id none) old.inputLinks =
      Function.update (disconnected net.gate? old.inputLinks) id none := by
    funext x
    by_cases here : x = id
    · subst here
      simp [disconnected, relisted]
    · simp [disconnected, relisted, here]
  rw [r.gates, r.next, swapped]
  exact (h.wired.disconnect r.found).erase

theorem shapes (r : Removing net id old mid) : ∀ x ≠ id, SameShape mid.gate? net.gate? x := by
  intro x other
  rw [r.gates]
  exact (sameShape_disconnected x).trans (sameShape_update other)

theorem around (r : Removing net id old mid) (h : net.Consistent) :
    Around net.gate? mid.gate? id (old.inputLinks ++ old.fanout ++ mid.linksOf id) := by
  have old : ∀ l, IsEdge net.gate? l → l.source = id ∨ l.target = id →
      l ∈ old.inputLinks ++ old.fanout := by
    intro l edge ends
    rw [← linksOf_eq r.found]
    exact mem_linksOf h.wired r.found edge ends
  refine ⟨r.shapes, fun l edge ends => List.mem_append_left _ (old l edge ends), ?_⟩
  intro l edge ends
  have before := (IsEdge.congr (r.shapes _ (edge.target_ne r.absent))).mp edge
  exact List.mem_append_left _ (old l before ends)

end Removing

/-- Removing a gate keeps a netlist consistent. -/
theorem Consistent.removeGate {net net' : Netlist} (h : net.Consistent) {id : GateId}
    (removed : net.removeGate id = .ok net') : net'.Consistent := by
  obtain ⟨old, _, ⟨_, rfl⟩ | ⟨_, mid, r, rfl⟩⟩ := removeGate_spec removed
  · exact consistent_unused net.nextId
  obtain rfl := h.wired.keyed r.found
  have held : Holds net.gate? old := by simp [Holds, r.found]
  refine h.refreshed (r.wired h) (r.around h) ?extra ?homes ?was ?isPart r.length ?top ?parts
    (r.tallied h.tallied fun n => h.occupied_of_home) ?shared
  case extra =>
    intro l mem
    rw [← linksOf_eq r.found] at mem
    exact not_isPort_of_mem_linksOf h.wired mem
  case homes =>
    intro x other
    rw [r.homes, if_neg other]
  case was => exact fun n before => .inl before
  case isPart =>
    intro n here
    simp [r.homes] at here
  case top =>
    rw [r.top]
    refine h.top.erased held (contains_iff.mpr ⟨old, r.found⟩) r.shapes ?_
    intro x
    by_cases here : x = old.id
    · simp [here, contains_eq_isSome, r.absent]
    · simp [here, contains_congr (r.shapes x here)]
  case parts =>
    intro n q here
    rw [r.parts] at here
    obtain ⟨p, before, rfl⟩ := Option.map_eq_some_iff.mp here
    have part := h.parts n p before
    have members : ∀ x, mid.inPart n x = true ↔ x ≠ old.id ∧ net.inPart n x = true := by
      intro x
      rw [inPart_iff, inPart_iff, r.homes]
      by_cases here : x = old.id <;> simp [here]
    refine ⟨p, before, ?_⟩
    split
    · next inside => exact part.erased held inside r.shapes members
    · next outside =>
      have same : mid.inPart n = net.inPart n := by
        funext x
        rw [Bool.eq_iff_iff, members]
        exact and_iff_right_of_imp fun inside here => outside (here ▸ inside)
      rw [same]
      refine part.stale fun x mem => r.shapes x ?_
      rintro rfl
      exact outside ((part.members _).mpr mem)
  case shared =>
    rw [r.shared]
    refine h.shared.congr fun s id before => ?_
    obtain ⟨before, other⟩ := getElem?_unregister h.shared held before
    exact ⟨before, r.shapes id other⟩

/-! ## Sharing -/

theorem Consistent.findOrBuild {net net' : Netlist} (h : net.Consistent) {shape : Shape} {id : GateId}
    (added : net.findOrBuild shape = .ok (id, net')) : net'.Consistent := by
  unfold Netlist.findOrBuild at added
  split at added
  · cases added
    exact h
  · exact h.build added

/-- Adding a gate keeps a netlist consistent, whether it is built or found. -/
theorem Consistent.addGate {net net' : Netlist} (h : net.Consistent) {shape : Shape} {id : GateId}
    (added : net.addGate shape = .ok (id, net')) : net'.Consistent := by
  unfold Netlist.addGate at added
  split at added
  · split at added
    · cases added
      exact h
    · exact h.findOrBuild added
    · exact h.build added
  · exact h.build added

end Netlist

end LogicNet
