import LogicNet.Proofs.Equivalence.EncodedRuns
import LogicNet.Proofs.Equivalence.Reflexive

/-!
# The identity encoding

A netlist and its copy store the same state, so an encoder and a decoder that are one wire for each trigger relate
them. A check through this encoding should find the two equal.

It does exactly if no trigger stores another one (`identityEncoding_verdict`). Where the data of a trigger is itself
a trigger, as in a shift register, the reconnection would have to be followed twice, from the encoder input to the
trigger and from there to the decoder output. It is followed once. The encoder input is then left loose, and a
difference is found where there is none (`shift_differs_from_copy`).
-/

namespace LogicNet

open Std

/-! ## Images of clocked netlists -/

/-- The copy of a clocked netlist is clocked. -/
theorem Netlist.Clocked.copy {net image : Netlist} {map : GateMap} (h : net.Clocked)
    (copied : net.copy = .ok (map, image)) : image.Clocked := by
  have reachable := Netlist.Reachable.copy h.reachable copied
  have copies := Netlist.copies_of_copy h.reachable.consistent copied
  have isImage := copies.isImage_view h.reachable.consistent reachable.consistent
  refine ⟨reachable, fun id g found => ?_, ?_, fun r enters => ?_⟩
  · refine isImage.forall_gates (P := fun s => s.fn.isLogic = true ∧ s.isTrigger = false ∨
      s.fn.isTriggered = true ∧ s.isTrigger = true) (fun s kind => ?_) (fun id _ g found => h.gates id g found) id
      (reachable.consistent.mem_view_gates.mpr ⟨g, found⟩) g found
    rw [Shape.isTrigger_rename]
    exact kind
  · rcases copies.acyclic_or_lone reachable.consistent with acyclic | ⟨x, _, feeds⟩
    · exact acyclic
    · have known : ∃ g, net.gate? x = some g := feeds.imp fun g reads => reads.1
      exact absurd feeds (h.acyclic.not_feeds_self (h.mem_gates.mpr known))
  · obtain ⟨l, entersLeft, rfl⟩ := isImage.mem_sources.mp enters
    exact h.closed l entersLeft

/-- A clocked netlist has a valuation. -/
theorem Netlist.Clocked.exists_valuation {net : Netlist} (h : net.Clocked) : ∃ val, net.view.Valuation val := by
  let pins := net.view.part.gates.filter fun id => (net.gate? id).any fun g => g.isSource || g.isTrigger
  have simulable : net.view.Simulable pins := by
    refine h.simulable (h.coherent.covers.accounts.nodup.filter _) fun id => ?_
    simp only [pins, List.mem_filter, Option.any_eq_true, Bool.or_eq_true, h.mem_gates]
    constructor
    · intro pin
      exact pin.2
    · intro free
      obtain ⟨g, found, kind⟩ := free
      exact ⟨⟨g, found⟩, g, found, kind⟩
  obtain ⟨val, solves, _⟩ := @View.Determined.exists_solution net.view pins simulable.determined
    (pins.map fun _ => false) (List.length_map _)
  exact ⟨val, simulable.solves_iff.mp solves⟩

namespace View.IsImage

variable {f : GateId → GateId}

/-- The values of a valuation, read back. -/
theorem valuation {v w : View} (h : IsImage f v w) {val : GateId → Bool} (valuation : w.Valuation val) :
    v.Valuation (val ∘ f) := by
  intro id mem g here
  obtain ⟨g', found, shape⟩ := h.netlist.shapes here
  have obeys := valuation (f id) (h.mem_gates.mpr ⟨id, mem, rfl⟩) g' found
  rw [Gate.Obeys, h.coherentRight.wired.keyed found, Shape.isFree, shape, Shape.isSource_rename] at obeys
  rw [Gate.Obeys, h.coherentLeft.wired.keyed here, Shape.isFree]
  refine obeys.imp_right fun value => ?_
  show val (f id) = _
  rw [value, Shape.rename, List.map_map]
  rfl

variable {net image : Netlist} (h : IsImage f net.view image.view)
include h

/-- The data of an image is the image of the data. -/
theorem data {t d : GateId} (data : net.data? t = some d) : image.data? (f t) = some (f d) := by
  obtain ⟨g, s, here, first, rfl⟩ := Netlist.data?_eq_some.mp data
  obtain ⟨g', found, shape⟩ := h.netlist.shapes here
  refine Netlist.data?_eq_some.mpr ⟨g', s.withDriver (f s.driver), found, ?_, rfl⟩
  rw [shape, Shape.rename, List.head?_map, first]
  rfl

/-- Valuations of a clocked netlist and its image that agree on sources and triggers agree on all gates. -/
theorem agree (clocked : net.Clocked) {vl vr : GateId → Bool} (valueLeft : net.view.Valuation vl)
    (valueRight : image.view.Valuation vr) (sources : ∀ l ∈ net.top.sources, vl l.source = vr (f l.source))
    (triggers : ∀ t ∈ net.top.triggers, vl t = vr (f t)) : ∀ {id g}, net.gate? id = some g → vl id = vr (f id) := by
  intro id g found
  refine valueLeft.unique clocked.coherent clocked.logical clocked.acyclic (h.valuation valueRight) ?_ id
    (clocked.mem_gates.mpr ⟨g, found⟩)
  intro id given
  rcases given with ⟨_, g, found, free⟩ | ⟨outside, t, _, g, found, s, read, rfl⟩
  · rcases (clocked.isFree_iff found).mp free with source | trigger
    · exact sources (.port id) (clocked.mem_sources.mpr ⟨id, g, rfl, found, source⟩)
    · exact triggers id (clocked.mem_triggers.mpr ⟨g, found, trigger⟩)
  · exact absurd (clocked.mem_gates.mpr (clocked.driver_inside found read)) outside

end View.IsImage

/-! ## Wires -/

/-- One wire for each of some gates, from an input to an output, and nothing else. -/
structure Netlist.Wires (net : Netlist) (P : GateId → Prop) (enter leave : GateId → GateId) : Prop where
  reachable : net.Reachable
  enters : ∀ {id}, P id → net.shape? (enter id) = some ⟨.input, []⟩
  leaves : ∀ {id}, P id → net.shape? (leave id) = some (.nary .output [enter id])
  only : ∀ {x g}, net.gate? x = some g → ∃ id, P id ∧ (x = enter id ∨ x = leave id)
  apart : ∀ {a b}, P a → P b → enter a = enter b → a = b

namespace Netlist.Wires

variable {net : Netlist} {P : GateId → Prop} {enter leave : GateId → GateId} (h : net.Wires P enter leave)
include h

theorem cases {x : GateId} {g : Gate} (found : net.gate? x = some g) : ∃ id, P id ∧
    (x = enter id ∧ g.toShape = ⟨.input, []⟩ ∨ x = leave id ∧ g.toShape = .nary .output [enter id]) := by
  have shape : net.shape? x = some g.toShape := by rw [shape?, found]; rfl
  obtain ⟨id, mem, rfl | rfl⟩ := h.only found
  · exact ⟨id, mem, .inl ⟨rfl, Option.some.inj (shape.symm.trans (h.enters mem))⟩⟩
  · exact ⟨id, mem, .inr ⟨rfl, Option.some.inj (shape.symm.trans (h.leaves mem))⟩⟩

theorem circuit : net.view.Circuit := by
  refine ⟨⟨⟨h.reachable, .inl rfl⟩, fun x _ g found => ?_⟩, ?_⟩
  · obtain ⟨id, _, ⟨_, shape⟩ | ⟨_, shape⟩⟩ := h.cases found <;> rw [shape] <;> exact ⟨rfl, rfl⟩
  · -- outputs read inputs, which read nothing
    refine View.acyclic_of_measure (fun x => (net.shape? x).elim 0 Shape.arity) fun a _ b _ feeds => ?_
    obtain ⟨g, found, _, s, read, rfl⟩ := feeds
    obtain ⟨id, mem, ⟨_, shape⟩ | ⟨rfl, shape⟩⟩ := h.cases found
    · rw [shape] at read
      cases read
    · rw [shape, Shape.nary, List.map_singleton, List.mem_singleton] at read
      show (net.shape? s.driver).elim 0 Shape.arity < (net.shape? (leave id)).elim 0 Shape.arity
      rw [read, h.leaves mem, show (Signal.plain (enter id)).driver = enter id from rfl, h.enters mem]
      exact Nat.one_pos

/-- What enters a wire leaves it. -/
theorem passes {val : GateId → Bool} (valuation : net.view.Valuation val) {id : GateId} (mem : P id) :
    val (leave id) = val (enter id) := by
  obtain ⟨g, found, shape⟩ := Option.map_eq_some_iff.mp (h.leaves mem)
  have obeys := valuation _ (h.reachable.consistent.mem_view_gates.mpr ⟨g, found⟩) g found
  rw [Gate.Obeys, h.reachable.consistent.wired.keyed found, shape] at obeys
  exact obeys.resolve_left Bool.false_ne_true

theorem mem_sources {id : GateId} (mem : P id) : Link.port (enter id) ∈ net.sources := by
  obtain ⟨g, found, shape⟩ := Option.map_eq_some_iff.mp (h.enters mem)
  refine (h.reachable.consistent.top.bounds.sources _).mpr (onBoundary_port.mpr ?_)
  exact ⟨g, found, contains_iff.mpr ⟨g, found⟩, by rw [shape]; rfl⟩

end Netlist.Wires

/-- For each of some gates, a port is bound to another one, and nothing else is bound. -/
def BindsPorts (b : Binding) (P : GateId → Prop) (f g : GateId → GateId) : Prop :=
  ∀ l r : Link, b[l]? = some r ↔ ∃ id, P id ∧ l = .port (f id) ∧ r = .port (g id)

namespace BindsPorts

variable {b : Binding} {P : GateId → Prop} {f g : GateId → GateId} (h : BindsPorts b P f g)
include h

theorem mem_iff {l : Link} : l ∈ b ↔ ∃ id, P id ∧ l = .port (f id) := by
  rw [TreeMap.mem_iff_isSome_getElem?, Option.isSome_iff_exists]
  simp only [h l]
  constructor
  · rintro ⟨r, id, mem, here, _⟩
    exact ⟨id, mem, here⟩
  · rintro ⟨id, mem, here⟩
    exact ⟨_, id, mem, here, rfl⟩

theorem mem_driverPairs {x : GateId × GateId} : x ∈ driverPairs b ↔ ∃ id, P id ∧ x = (f id, g id) := by
  rw [LogicNet.mem_driverPairs]
  simp only [h _ _]
  constructor
  · rintro ⟨_, _, ⟨id, mem, rfl, rfl⟩, rfl⟩
    exact ⟨id, mem, rfl⟩
  · rintro ⟨id, mem, rfl⟩
    exact ⟨_, _, ⟨id, mem, rfl, rfl⟩, rfl⟩

end BindsPorts

/-- Encoder and decoder are one wire for each trigger, to its image and back. -/
structure StateEncoding.Identity (e : StateEncoding) (net : Netlist) (f encIn encOut decIn decOut : GateId → GateId) :
    Prop where
  encoder : e.encoder.Wires (· ∈ net.top.triggers) encIn encOut
  decoder : e.decoder.Wires (· ∈ net.top.triggers) decIn decOut
  leftToEncoder : BindsPorts e.leftToEncoder (· ∈ net.top.triggers) (fun t => t) encIn
  rightFromEncoder : BindsPorts e.rightFromEncoder (· ∈ net.top.triggers) f encOut
  rightToDecoder : BindsPorts e.rightToDecoder (· ∈ net.top.triggers) f decIn
  leftFromDecoder : BindsPorts e.leftFromDecoder (· ∈ net.top.triggers) (fun t => t) decOut

namespace Checker

section Verdict

variable {c : Checker} {net image : Netlist} {f encIn encOut decIn decOut : GateId → GateId} {e : StateEncoding}
  {sources targets : Binding} {vl vr ve vd loose : GateId → Bool}

theorem between_of_identity (isImage : View.IsImage f net.view image.view)
    (identity : e.Identity net f encIn encOut decIn decOut) : e.Between net image := by
  have imagePort : ∀ {l}, image.IsTriggerPort l ↔ ∃ t, t ∈ net.top.triggers ∧ l = .port (f t) := by
    intro l
    constructor
    · rintro ⟨t', image, rfl⟩
      obtain ⟨t, trigger, rfl⟩ := isImage.mem_triggers.mp image
      exact ⟨t, trigger, rfl⟩
    · rintro ⟨t, trigger, rfl⟩
      exact ⟨f t, isImage.mem_triggers.mpr ⟨t, trigger, rfl⟩, rfl⟩
  refine ⟨identity.encoder.circuit, identity.decoder.circuit, ⟨?_, ?_, ?_⟩, ⟨?_, ?_, ?_⟩, ?_, ?_⟩
  · exact fun l => identity.leftToEncoder.mem_iff
  · intro l r found
    obtain ⟨t, trigger, _, rfl⟩ := (identity.leftToEncoder l r).mp found
    exact identity.encoder.mem_sources trigger
  · intro x hx y hy same
    obtain ⟨t, trigger, rfl⟩ := identity.leftToEncoder.mem_driverPairs.mp hx
    obtain ⟨t', trigger', rfl⟩ := identity.leftToEncoder.mem_driverPairs.mp hy
    exact identity.encoder.apart trigger trigger' same
  · exact fun l => identity.rightToDecoder.mem_iff.trans imagePort.symm
  · intro l r found
    obtain ⟨t, trigger, _, rfl⟩ := (identity.rightToDecoder l r).mp found
    exact identity.decoder.mem_sources trigger
  · intro x hx y hy same
    obtain ⟨t, trigger, rfl⟩ := identity.rightToDecoder.mem_driverPairs.mp hx
    obtain ⟨t', trigger', rfl⟩ := identity.rightToDecoder.mem_driverPairs.mp hy
    exact congrArg f (identity.decoder.apart trigger trigger' same)
  · exact fun l => identity.leftFromDecoder.mem_iff
  · exact fun l => identity.rightFromEncoder.mem_iff.trans imagePort.symm

/-- Valuations of a netlist and its image that fit together through wires agree. -/
theorem Glued.agree (isImage : View.IsImage f net.view image.view) (clocked : net.Clocked)
    (identity : e.Identity net f encIn encOut decIn decOut) (hs : Carries f sources (· ∈ net.top.sources))
    (glued : Glued net image sources e vl vr ve vd loose) {id : GateId} {g : Gate} (found : net.gate? id = some g) :
    vl id = vr (f id) := by
  refine isImage.agree clocked glued.valueLeft glued.valueRight (hs.together_iff.mp glued.fed) ?_ found
  intro t trigger
  calc
    vl t = vd (decOut t) := glued.stateLeft _ (identity.leftFromDecoder.mem_driverPairs.mpr ⟨t, trigger, rfl⟩)
    _ = vd (decIn t) := identity.decoder.passes glued.decoder trigger
    _ = vr (f t) := glued.stateRight _ (identity.rightToDecoder.mem_driverPairs.mpr ⟨t, trigger, rfl⟩)

/-- If no trigger stores another one, nothing differs. -/
theorem Glued.not_differ_of_identity (isImage : View.IsImage f net.view image.view) (clocked : net.Clocked)
    (identity : e.Identity net f encIn encOut decIn decOut) (hs : Carries f sources (· ∈ net.top.sources))
    (ht : Carries f targets (· ∈ net.top.targets))
    (apart : ∀ t d, t ∈ net.top.triggers → net.data? t = some d → d ∉ net.top.triggers)
    (glued : Glued net image sources e vl vr ve vd loose) : ¬Differ image targets e vl vr ve := by
  intro differ
  rcases differ with ⟨x, read, differ⟩ | ⟨x, bound, d', data', differ⟩
  · obtain ⟨l, leaves, rfl⟩ := ht.mem_driverPairs.mp read
    obtain ⟨id, g, rfl, found, _⟩ := clocked.mem_targets leaves
    exact differ (glued.agree isImage clocked identity hs found)
  · obtain ⟨t, trigger, rfl⟩ := identity.rightFromEncoder.mem_driverPairs.mp bound
    obtain ⟨d, data⟩ := clocked.exists_data trigger
    obtain rfl : f d = d' := Option.some.inj ((isImage.data data).symm.trans data')
    obtain ⟨g, s, here, first, rfl⟩ := Netlist.data?_eq_some.mp data
    obtain ⟨gd, found⟩ := clocked.driver_inside here (List.mem_of_mem_head? first)
    refine differ ?_
    calc
      ve (encOut t) = ve (encIn t) := identity.encoder.passes glued.encoder trigger
      _ = loose s.driver :=
        glued.next _ (identity.leftToEncoder.mem_driverPairs.mpr ⟨t, trigger, rfl⟩) _ data
      _ = vl s.driver := glued.tight _ (apart t _ trigger data)
      _ = vr (f s.driver) := glued.agree isImage clocked identity hs found

/-- If a trigger stores another one, its encoder input is loose, and can be made to differ. -/
theorem exists_differ (isImage : View.IsImage f net.view image.view) (clockedImage : image.Clocked)
    (identity : e.Identity net f encIn encOut decIn decOut) (hs : Carries f sources (· ∈ net.top.sources))
    {t d : GateId} (trigger : t ∈ net.top.triggers) (data : net.data? t = some d) (stored : d ∈ net.top.triggers) :
    ∃ vl vr ve vd loose, Glued net image sources e vl vr ve vd loose ∧ Differ image targets e vl vr ve := by
  have between := between_of_identity isImage identity
  obtain ⟨vr, valueRight⟩ := clockedImage.exists_valuation
  obtain ⟨vd, decoder, stateRight⟩ := between.rightToDecoder.exists_valuation between.decoder vr
  let loose : GateId → Bool := Function.update (vr ∘ f) d (!vr (f d))
  obtain ⟨ve, encoder, next⟩ := between.leftToEncoder.exists_valuation between.encoder
    fun t => ((net.data? t).map loose).getD false
  have nextAt : ∀ {t d}, t ∈ net.top.triggers → net.data? t = some d → ve (encIn t) = loose d := by
    intro t d trigger data
    rw [next _ (identity.leftToEncoder.mem_driverPairs.mpr ⟨t, trigger, rfl⟩), data]
    rfl
  refine ⟨vr ∘ f, vr, ve, vd, loose, ?_, .inr ?_⟩
  · constructor
    case valueLeft => exact isImage.valuation valueRight
    case valueRight => exact valueRight
    case encoder => exact encoder
    case decoder => exact decoder
    case fed => exact hs.together_iff.mpr fun l _ => rfl
    case stateRight => exact stateRight
    case stateLeft =>
      intro x bound
      obtain ⟨t, trigger, rfl⟩ := identity.leftFromDecoder.mem_driverPairs.mp bound
      show vr (f t) = vd (decOut t)
      rw [identity.decoder.passes decoder trigger,
        stateRight _ (identity.rightToDecoder.mem_driverPairs.mpr ⟨t, trigger, rfl⟩)]
    case next =>
      intro x bound d data
      obtain ⟨t, trigger, rfl⟩ := identity.leftToEncoder.mem_driverPairs.mp bound
      exact nextAt trigger data
    case tight =>
      intro id other
      refine Function.update_of_ne (fun same => other ?_) _ _
      rw [same]
      exact stored
  · refine ⟨_, identity.rightFromEncoder.mem_driverPairs.mpr ⟨t, trigger, rfl⟩, f d, isImage.data data, ?_⟩
    show ve (encOut t) ≠ vr (f d)
    rw [identity.encoder.passes encoder trigger, nextAt trigger data]
    simp [loose]

/-- The query about two netlists through a state encoding. -/
def encodingQuery (left right : Netlist) (sources targets : Binding) (e : StateEncoding) : Result Query := do
  let reconnection ← reconnect left.view e
  let next ← nextStates right.view e
  query (encodingViews left right e) reconnection (sitePairs sources 0 1 ++ states e) (sitePairs targets 0 1 ++ next)

/-- The check through an encoding returns, and finds a difference exactly if valuations that fit together differ. -/
theorem byEncoding_verdict (correct : c.oracle.Correct) {left right : Netlist} (clockedLeft : left.Clocked)
    (clockedRight : right.Clocked) (between : e.Between left right)
    (inRange : ∀ q, encodingQuery left right sources targets e = .ok q → q.formula.size ≤ Lit.largestVar + 1) :
    ∃ verdict, (c.byEncoding left.view right.view sources targets e).outcome = .ok verdict ∧ (verdict = .equal ↔
      ¬∃ vl vr ve vd loose, Glued left right sources e vl vr ve vd loose ∧ Differ right targets e vl vr ve) := by
  have customFree : ∀ {net : Netlist}, net.Clocked → net.view.CustomFree := by
    intro net clocked id _ g found
    rcases clocked.gates id g found with ⟨logic, _⟩ | ⟨memory, _⟩
    · exact GateFn.isUninterpreted_of_isLogic logic
    · exact GateFn.isUninterpreted_of_isTriggered memory
  have known : ∀ x ∈ e.leftToEncoder.toList, ∃ d, left.data? x.1.source = some d := by
    intro x mem
    obtain ⟨t, trigger, port⟩ := (between.leftToEncoder.keys x.1).mp
      (mem_of_getElem? (TreeMap.mem_toList_iff_getElem?_eq_some.mp mem))
    rw [port]
    exact clockedLeft.exists_data trigger
  obtain ⟨m', nexts⟩ := exists_nextEntries known {}
  obtain ⟨m, reconnected⟩ : ∃ m, reconnect left.view e = .ok m := ⟨_, Result.bind_eq_ok.mpr ⟨m', nexts, rfl⟩⟩
  obtain ⟨next, states⟩ : ∃ next, nextStates right.view e = .ok next := by
    refine Result.exists_mapM fun x mem => ?_
    obtain ⟨l, r⟩ := x
    obtain ⟨t, trigger, rfl⟩ := (between.rightFromEncoder l).mp
      (mem_of_getElem? (TreeMap.mem_toList_iff_getElem?_eq_some.mp mem))
    obtain ⟨d, data⟩ := clockedRight.exists_data trigger
    exact ⟨_, Result.bind_eq_ok.mpr ⟨d, dataDriver_eq_ok.mpr data, rfl⟩⟩
  have coherent := coherent_encodingViews clockedLeft clockedRight between
  obtain ⟨q, made⟩ : ∃ q, query (encodingViews left right e) m (sitePairs sources 0 1 ++ Checker.states e)
      (sitePairs targets 0 1 ++ next) = .ok q := by
    refine exists_query fun v mem => ⟨coherent v mem, ?_⟩
    simp only [encodingViews, List.mem_cons, List.not_mem_nil, or_false] at mem
    rcases mem with rfl | rfl | rfl | rfl
    · exact ⟨customFree clockedLeft, clockedLeft.coherent.exists_orderedGates clockedLeft.acyclic⟩
    · exact ⟨customFree clockedRight, clockedRight.coherent.exists_orderedGates clockedRight.acyclic⟩
    · exact ⟨between.encoder.customFree,
        between.encoder.ofReachable.coherent.exists_orderedGates between.encoder.acyclic⟩
    · exact ⟨between.decoder.customFree,
        between.decoder.ofReachable.coherent.exists_orderedGates between.decoder.acyclic⟩
  have asked : encodingQuery left right sources targets e = .ok q :=
    Result.bind_eq_ok.mpr ⟨m, reconnected, Result.bind_eq_ok.mpr ⟨next, states, made⟩⟩
  obtain ⟨verdict, answered, iff⟩ := bySolving_asked correct coherent made (inRange q asked)
  refine ⟨verdict, ?_, ?_⟩
  · simp only [byEncoding, Traced.outcome_bind, Traced.outcome_liftM, Traced.outcome_note, Result.ok_bind, reconnected,
      states]
    exact answered
  · rw [iff, asked_encoding_iff between (placed_reconnect between reconnected) states]

/-- THE IDENTITY ENCODING finds a clocked netlist equal to its copy exactly if no trigger stores another one. The
hints for sources and targets follow from the correspondence that comes with the copy, and the check returns if there are
literals for the variables of its query. -/
theorem identityEncoding_verdict {map : GateMap} (correct : c.oracle.Correct) (clocked : net.Clocked)
    (sequential : net.isCombinational = false) (copied : net.copy = .ok (map, image))
    (identity : e.Identity net map.image encIn encOut decIn decOut)
    (inRange : ∀ hints sources targets q, Hints.ofMap net image map = .ok hints → hints.sources = some sources →
      hints.targets = some targets → encodingQuery net image sources targets e = .ok q →
      q.formula.size ≤ Lit.largestVar + 1) :
    ∃ hints, Hints.ofMap net image map = .ok hints ∧
      ∃ verdict, (c.check net image
        { sources := hints.sources, targets := hints.targets, encoding := some e }).outcome = .ok verdict ∧
        (verdict = .equal ↔ ∀ t d, t ∈ net.top.triggers → net.data? t = some d → d ∉ net.top.triggers) := by
  have consistent := clocked.reachable.consistent
  have clockedImage := clocked.copy copied
  have copies := Netlist.copies_of_copy consistent copied
  have isImage := copies.isImage_view consistent clockedImage.reachable.consistent
  obtain ⟨hints, derived⟩ := Hints.exists_ofMap copies.pairs consistent
  obtain ⟨sources, targets, _, follows⟩ := Hints.follows_of_ofMap derived
  refine ⟨hints, derived, ?_⟩
  rw [follows.hasSources, follows.hasTargets]
  have bindings := @requireBindings_image { sources := some sources, targets := some targets, encoding := some e }
    sources targets map.image net.view image.view isImage rfl rfl follows.sources follows.targets
  have sameKind : Result.require (net.view.part.isCombinational == image.view.part.isCombinational) .mixedKinds =
      .ok () := Result.require_eq_ok.mpr (beq_iff_eq.mpr isImage.isCombinational_eq)
  have notComb : ¬net.view.part.isCombinational = true := Bool.eq_false_iff.mp sequential
  obtain ⟨verdict, answered, iff⟩ := @byEncoding_verdict c e sources targets correct net image clocked clockedImage
    (between_of_identity isImage identity) fun q => inRange hints sources targets q derived follows.hasSources
      follows.hasTargets
  refine ⟨verdict, ?_, iff.trans ⟨?_, ?_⟩⟩
  · rw [outcome_check_flat bindings (.inl rfl)]
    simp only [flat, Traced.outcome_bind, Traced.outcome_require, sameKind, Result.ok_bind, if_neg notComb]
    exact answered
  · intro never t d trigger data stored
    exact never (exists_differ isImage clockedImage identity follows.sources trigger data stored)
  · rintro apart ⟨vl, vr, ve, vd, loose, glued, differ⟩
    exact glued.not_differ_of_identity isImage clocked identity follows.sources follows.targets apart differ

end Verdict

section Samples

/-- A list of all triggers tells whether there is one wire for each. -/
theorem wires_of_list {net wires : Netlist} {enter leave : GateId → GateId} (reachable : wires.Reachable)
    (enters : ∀ id ∈ net.top.triggers.toList, wires.shape? (enter id) = some ⟨.input, []⟩)
    (leaves : ∀ id ∈ net.top.triggers.toList, wires.shape? (leave id) = some (.nary .output [enter id]))
    (only : ∀ x ∈ wires.view.part.gates, ∃ id ∈ net.top.triggers.toList, x = enter id ∨ x = leave id)
    (apart : ∀ a ∈ net.top.triggers.toList, ∀ b ∈ net.top.triggers.toList, enter a = enter b → a = b) :
    wires.Wires (· ∈ net.top.triggers) enter leave := by
  simp only [TreeSet.mem_toList] at enters leaves only apart
  refine ⟨reachable, enters _, leaves _, fun found => ?_, fun ha hb => apart _ ha _ hb⟩
  exact only _ (reachable.consistent.mem_view_gates.mpr ⟨_, found⟩)

theorem bindsPorts_of_list {b : Binding} {net : Netlist} {f g : GateId → GateId}
    (listed : b.toList = net.top.triggers.toList.map fun t => (.port (f t), .port (g t))) :
    BindsPorts b (· ∈ net.top.triggers) f g := by
  intro l r
  rw [← TreeMap.mem_toList_iff_getElem?_eq_some, listed, List.mem_map]
  simp only [TreeSet.mem_toList, Prod.mk.injEq, eq_comm]

def twoWires : Netlist := .made [⟨.input, []⟩, .nary .output [⟨0⟩], ⟨.input, []⟩, .nary .output [⟨2⟩]]

/-- Two triggers that both sides store alike. -/
def asStored (a b : Nat) : StateEncoding where
  encoder := twoWires
  decoder := twoWires
  leftToEncoder := portPairs [(a, 0), (b, 2)]
  leftFromDecoder := portPairs [(a, 1), (b, 3)]
  rightFromEncoder := portPairs [(a, 1), (b, 3)]
  rightToDecoder := portPairs [(a, 0), (b, 2)]

/-- The wire of the first of two triggers enters here, that of the other one two gates later. -/
def wireAt (first start : Nat) (t : GateId) : GateId := if t = ⟨first⟩ then ⟨start⟩ else ⟨start + 2⟩

theorem asStored_identity {net : Netlist} {f : GateId → GateId} {a b : Nat} (ne : a ≠ b)
    (triggers : net.top.triggers.toList = [⟨a⟩, ⟨b⟩]) (images : f ⟨a⟩ = ⟨a⟩ ∧ f ⟨b⟩ = ⟨b⟩)
    (inputs : (portPairs [(a, 0), (b, 2)]).toList = [(.port ⟨a⟩, .port ⟨0⟩), (.port ⟨b⟩, .port ⟨2⟩)])
    (outputs : (portPairs [(a, 1), (b, 3)]).toList = [(.port ⟨a⟩, .port ⟨1⟩), (.port ⟨b⟩, .port ⟨3⟩)]) :
    (asStored a b).Identity net f (wireAt a 0) (wireAt a 1) (wireAt a 0) (wireAt a 1) := by
  have first (start : Nat) : wireAt a start ⟨a⟩ = ⟨start⟩ := if_pos rfl
  have second (start : Nat) : wireAt a start ⟨b⟩ = ⟨start + 2⟩ := if_neg fun same => ne (congrArg GateId.index same).symm
  have reachable : twoWires.Reachable := Netlist.reachable_made _
  have gates : twoWires.view.part.gates = [⟨0⟩, ⟨1⟩, ⟨2⟩, ⟨3⟩] := by decide +kernel
  have shapes : twoWires.shape? ⟨0⟩ = some ⟨.input, []⟩ ∧ twoWires.shape? ⟨1⟩ = some (.nary .output [⟨0⟩]) ∧
      twoWires.shape? ⟨2⟩ = some ⟨.input, []⟩ ∧ twoWires.shape? ⟨3⟩ = some (.nary .output [⟨2⟩]) := by decide +kernel
  have wires : twoWires.Wires (· ∈ net.top.triggers) (wireAt a 0) (wireAt a 1) := by
    apply wires_of_list reachable <;> simp [triggers, first, second, gates, shapes]
  constructor
  case encoder => exact wires
  case decoder => exact wires
  all_goals
    apply bindsPorts_of_list
    simp only [asStored, inputs, outputs, triggers, List.map_cons, List.map_nil, images, first, second]

/-- An input stored, and its negation stored once more. -/
def storedTwice : Netlist := .made [⟨.input, []⟩, ⟨.input, []⟩, ⟨.flipFlop, [.plain ⟨0⟩, ⟨.rising, ⟨1⟩⟩]⟩,
  .nary .not [⟨2⟩], ⟨.flipFlop, [.plain ⟨3⟩, ⟨.rising, ⟨1⟩⟩]⟩, .nary .output [⟨4⟩]]

theorem storedTwice_equals_copy : ∃ map image hints, storedTwice.copy = .ok (map, image) ∧
    Hints.ofMap storedTwice image map = .ok hints ∧
    (Checker.check { oracle := Branching.oracle } storedTwice image
      { sources := hints.sources, targets := hints.targets, encoding := some (asStored 2 4) }).outcome = .ok .equal := by
  obtain ⟨⟨map, image⟩, copied⟩ := Result.exists_ok (by decide +kernel : storedTwice.copy.isOk = true)
  have images : (storedTwice.copy.map fun x => (x.1.image ⟨2⟩, x.1.image ⟨4⟩)) = .ok (⟨2⟩, ⟨4⟩) := by decide +kernel
  rw [copied] at images
  have identity := @asStored_identity storedTwice map.image 2 4 (by decide) (by decide +kernel)
    (Prod.mk.inj (Except.ok.inj images)) (by decide +kernel) (by decide +kernel)
  have clocked : storedTwice.Clocked := clocked_made (by decide +kernel)
  have unstored : (storedTwice.top.triggers.toList.all fun t =>
      (storedTwice.data? t).all fun d => !storedTwice.top.triggers.contains d) = true := by decide +kernel
  have apart : ∀ t d, t ∈ storedTwice.top.triggers → storedTwice.data? t = some d →
      d ∉ storedTwice.top.triggers := by
    intro t d trigger data
    have this := List.all_eq_true.mp unstored t (TreeSet.mem_toList.mpr trigger)
    rw [data, Option.all_some, Bool.not_eq_true'] at this
    rw [TreeSet.mem_iff_contains, this]
    exact Bool.false_ne_true
  have inRange : ∀ q, (do
      let copied ← storedTwice.copy
      let hints ← Hints.ofMap storedTwice copied.2 copied.1
      let sources ← Result.getOrBreach hints.sources .noBindings
      let targets ← Result.getOrBreach hints.targets .noBindings
      encodingQuery storedTwice copied.2 sources targets (asStored 2 4)) = .ok q →
        q.formula.size ≤ Lit.largestVar + 1 := Result.forall_of_all (by decide +kernel)
  obtain ⟨hints, derived, verdict, answered, iff⟩ := identityEncoding_verdict (c := { oracle := Branching.oracle })
    Branching.oracle_decides.toCorrect clocked (by decide +kernel) copied identity
    fun hints sources targets q derived hasSources hasTargets asked => inRange q <| by
      simp only [copied, derived, hasSources, hasTargets, Result.ok_bind, Result.getOrBreach, asked]
  exact ⟨map, image, hints, copied, derived, by rw [answered, iff.mpr apart]⟩

/-- A shift register: an input stored, and stored once more. -/
def shift : Netlist := .made [⟨.input, []⟩, ⟨.input, []⟩, ⟨.flipFlop, [.plain ⟨0⟩, ⟨.rising, ⟨1⟩⟩]⟩,
  ⟨.flipFlop, [.plain ⟨2⟩, ⟨.rising, ⟨1⟩⟩]⟩, .nary .output [⟨3⟩]]

theorem shift_differs_from_copy : Oracle.Decides Branching.oracle ∧ shift.Clocked ∧ shift.FlipFlops ∧
    shift.isCombinational = false ∧ ∃ map image hints, shift.copy = .ok (map, image) ∧
      (asStored 2 3).Identity shift map.image (wireAt 2 0) (wireAt 2 1) (wireAt 2 0) (wireAt 2 1) ∧
      Hints.ofMap shift image map = .ok hints ∧
      (Checker.check { oracle := Branching.oracle } shift image
        { sources := hints.sources, targets := hints.targets, encoding := some (asStored 2 3) }).outcome.map
          Verdict.isEqual = .ok false := by
  have clocked : shift.Clocked := clocked_made (by decide +kernel)
  refine ⟨Branching.oracle_decides, clocked, flipFlops_of_all clocked.reachable (by decide +kernel),
    by decide +kernel, ?_⟩
  have run : (do
      let copied ← shift.copy
      let hints ← Hints.ofMap shift copied.2 copied.1
      let verdict ← (Checker.check { oracle := Branching.oracle } shift copied.2
        { sources := hints.sources, targets := hints.targets, encoding := some (asStored 2 3) }).outcome
      return (copied.1.image ⟨2⟩, copied.1.image ⟨3⟩, verdict.isEqual)) = .ok (⟨2⟩, ⟨3⟩, false) := by decide +kernel
  obtain ⟨⟨map, image⟩, copied, run⟩ := Result.bind_eq_ok.mp run
  obtain ⟨hints, derived, run⟩ := Result.bind_eq_ok.mp run
  obtain ⟨verdict, answered, run⟩ := Result.bind_eq_ok.mp run
  obtain ⟨first, second, differ⟩ : map.image ⟨2⟩ = ⟨2⟩ ∧ map.image ⟨3⟩ = ⟨3⟩ ∧ verdict.isEqual = false := by
    simpa using Except.ok.inj run
  refine ⟨map, image, hints, copied, ?_, derived, ?_⟩
  · exact asStored_identity (by decide) (by decide +kernel) ⟨first, second⟩ (by decide +kernel) (by decide +kernel)
  · rw [answered, ← differ]
    rfl

end Samples

end Checker

end LogicNet
