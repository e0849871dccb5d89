import LogicNet.Proofs.Equivalence.Branching
import LogicNet.Proofs.Equivalence.Encoding
import LogicNet.Proofs.Simulation.Related

/-!
# Runs through a state encoding

A check through a state encoding compares the outputs and the DATA of the triggers. For flip-flops the data is the
next state. So if the states of two netlists of flip-flops are related by the decoder, an equal verdict says that
their outputs are equal and that the next state on the right is the encoding of the next state on the left. If the
decoder inverts the encoder, the next states are related again, and so on for any number of steps
(`byEncoding_sound`).

The next state of a latch depends on its enable as well, and that of a flip-flop with reset on its reset. These are
not compared, so for them an equal verdict may be wrong (`enable_not_compared`).
-/

namespace LogicNet

open Std

/-! ## Flip-flops -/

/-- All triggers are plain flip-flops. -/
def Netlist.FlipFlops (net : Netlist) : Prop :=
  ∀ id g, net.gate? id = some g → g.isTrigger = true → g.fn = .flipFlop

/-- The next state of a flip-flop is its data. -/
theorem Netlist.FlipFlops.nextState {net : Netlist} (h : net.FlipFlops) (clocked : net.Clocked) {id d : GateId}
    (trigger : id ∈ net.top.triggers) (data : net.data? id = some d) (val : GateId → Bool) :
    net.view.nextState val id = val d := by
  obtain ⟨g, found, isTrigger⟩ := clocked.mem_triggers.mp trigger
  obtain ⟨g', s, here, first, rfl⟩ := Netlist.data?_eq_some.mp data
  obtain rfl : g = g' := Option.some.inj (found.symm.trans here)
  obtain ⟨rest, inputs⟩ := List.head?_eq_some_iff.mp first
  rw [View.nextState_eq found, h id g found isTrigger, inputs]
  rfl

namespace Checker

section Sound

variable {c : Checker} {left right : Netlist} {sources targets : Binding} {e : StateEncoding}

theorem coherent_encodingViews (clockedLeft : left.Clocked) (clockedRight : right.Clocked)
    (between : e.Between left right) : ∀ v ∈ encodingViews left right e, v.Coherent := by
  simp only [encodingViews, List.forall_mem_cons]
  exact ⟨clockedLeft.coherent, clockedRight.coherent, between.encoder.ofReachable.coherent,
    between.decoder.ofReachable.coherent, by simp⟩

theorem outcome_byEncoding {verdict : Verdict}
    (made : (c.byEncoding left.view right.view sources targets e).outcome = .ok verdict) :
    ∃ m next, reconnect left.view e = .ok m ∧ nextStates right.view e = .ok next ∧
      (c.bySolving (encodingViews left right e) m (sitePairs sources 0 1 ++ states e)
        (sitePairs targets 0 1 ++ next)).outcome = .ok verdict := by
  simp only [byEncoding, Traced.outcome_bind, Traced.outcome_liftM, Traced.outcome_note, Result.ok_bind] at made
  obtain ⟨m, reconnected, made⟩ := Result.bind_eq_ok.mp made
  obtain ⟨next, nexts, made⟩ := Result.bind_eq_ok.mp made
  exact ⟨m, next, reconnected, nexts, made⟩

/-- After an equal verdict, valuations that fit together do not differ. -/
theorem Glued.not_differ (sound : c.oracle.Sound) (clockedLeft : left.Clocked) (clockedRight : right.Clocked)
    (between : e.Between left right)
    (equal : (c.byEncoding left.view right.view sources targets e).outcome = .ok .equal)
    {vl vr ve vd loose : GateId → Bool} (glued : Glued left right sources e vl vr ve vd loose) :
    ¬Differ right targets e vl vr ve := by
  intro differ
  obtain ⟨m, next, reconnected, nexts, equal⟩ := outcome_byEncoding equal
  obtain ⟨val, asked⟩ := (asked_encoding_iff between (placed_reconnect between reconnected) nexts).mpr
    ⟨vl, vr, ve, vd, loose, glued, differ⟩
  exact not_asked_of_equal sound (coherent_encodingViews clockedLeft clockedRight between) equal val asked

/-- Valuations of two netlists of flip-flops whose states decode to each other are glued by an encoder that is fed
the next state on the left. -/
theorem exists_glued (clockedLeft : left.Clocked) (flipFlops : left.FlipFlops) (between : e.Between left right)
    {vl vr : GateId → Bool} (valueLeft : left.view.Valuation vl) (valueRight : right.view.Valuation vr)
    (fed : Together (driverPairs sources) vl vr) (decodes : e.Decodes vr vl) :
    ∃ ve vd, Glued left right sources e vl vr ve vd vl ∧
      ∀ x ∈ driverPairs e.leftToEncoder, ve x.2 = left.view.nextState vl x.1 := by
  obtain ⟨vd, decoder, stateRight, stateLeft⟩ := decodes
  obtain ⟨ve, encoder, given⟩ := between.leftToEncoder.exists_valuation between.encoder (left.view.nextState vl)
  refine ⟨ve, vd, ⟨valueLeft, valueRight, encoder, decoder, fed, stateRight, stateLeft, ?_, fun _ _ => rfl⟩, given⟩
  intro x bound d data
  have trigger := (exists_pair_iff between.leftToEncoder.keys).mp ⟨x, bound, rfl⟩
  rw [given x bound, flipFlops.nextState clockedLeft trigger data]

/-- States that decode to each other stay so, and their outputs are equal. -/
theorem related_of_equal (sound : c.oracle.Sound) (clockedLeft : left.Clocked) (clockedRight : right.Clocked)
    (flipFlopsLeft : left.FlipFlops) (flipFlopsRight : right.FlipFlops)
    (boundSources : Bijects sources (· ∈ left.top.sources) (· ∈ right.top.sources))
    (between : e.Between left right) (roundTrip : ∀ s r, e.Encodes s r → e.Decodes r s)
    (equal : (c.byEncoding left.view right.view sources targets e).outcome = .ok .equal) :
    Related left.view right.view (driverPairs sources) (driverPairs targets) fun s r => e.Decodes r s := by
  constructor
  case local_ =>
    rintro s s' r r' sameLeft sameRight ⟨val, valuation, stateRight, stateLeft⟩
    refine ⟨val, valuation, fun x bound => ?_, fun x bound => ?_⟩
    · rw [← sameRight x.1 ((exists_pair_iff between.rightToDecoder.keys).mp ⟨x, bound, rfl⟩)]
      exact stateRight x bound
    · rw [← sameLeft x.1 ((exists_pair_iff between.leftFromDecoder).mp ⟨x, bound, rfl⟩)]
      exact stateLeft x bound
  case outputs =>
    intro vl vr valueLeft valueRight fed decodes x read
    obtain ⟨ve, vd, glued, _⟩ := exists_glued clockedLeft flipFlopsLeft between valueLeft valueRight fed decodes
    have never := glued.not_differ sound clockedLeft clockedRight between equal
    by_contra differ
    exact never (.inl ⟨x, read, differ⟩)
  case next =>
    intro vl vr valueLeft valueRight fed decodes
    obtain ⟨ve, vd, glued, given⟩ := exists_glued clockedLeft flipFlopsLeft between valueLeft valueRight fed decodes
    have never := glued.not_differ sound clockedLeft clockedRight between equal
    refine roundTrip _ _ ⟨ve, glued.encoder, given, fun x bound => ?_⟩
    have trigger := (exists_pair_iff between.rightFromEncoder).mp ⟨x, bound, rfl⟩
    obtain ⟨d, data⟩ := clockedRight.exists_data trigger
    rw [flipFlopsRight.nextState clockedRight trigger data]
    by_contra differ
    exact never (.inr ⟨x, bound, d, data, Ne.symm differ⟩)
  case unpinnedLeft =>
    intro id trigger pin
    exact Netlist.trigger_ne_source (clockedLeft.mem_triggers.mp trigger)
      (clockedLeft.exists_source.mp (boundSources.mem_left.mp pin)) rfl
  case unpinnedRight =>
    intro id trigger pin
    exact Netlist.trigger_ne_source (clockedRight.mem_triggers.mp trigger)
      (clockedRight.exists_source.mp (boundSources.mem_right.mp pin)) rfl

/-- THE STATE ENCODING IS SOUND for flip-flops. Let the decoder invert the encoder on every left state. If the
check through the encoding finds the netlists equal, then every right state decodes to a left state, and runs
from these two states return and give equal words on every pair of outputs at every step, fed with the same
words. -/
theorem byEncoding_sound (sound : c.oracle.Sound) (clockedLeft : left.Clocked) (clockedRight : right.Clocked)
    (flipFlopsLeft : left.FlipFlops) (flipFlopsRight : right.FlipFlops)
    (boundSources : Bijects sources (· ∈ left.top.sources) (· ∈ right.top.sources))
    (boundTargets : Bijects targets (· ∈ left.top.targets) (· ∈ right.top.targets))
    (between : e.Between left right) (roundTrip : ∀ s r, e.Encodes s r → e.Decodes r s)
    (equal : (c.byEncoding left.view right.view sources targets e).outcome = .ok .equal) :
    (∀ r, ∃ s, e.Decodes r s) ∧
    ∀ s r : GateId → Word, (∀ p < 64, e.Decodes (fun id => lane (r id) p) fun id => lane (s id) p) →
      ∀ steps : List (List Word), (∀ words ∈ steps, words.length = (driverPairs sources).length) →
        ∃ rows,
          left.view.runFrom ((driverPairs sources).map Prod.fst) ((driverPairs targets).map Prod.fst) s steps = .ok rows ∧
          right.view.runFrom ((driverPairs sources).map Prod.snd) ((driverPairs targets).map Prod.snd) r steps =
            .ok rows := by
  have nodup := (clockedLeft.oneToOne clockedRight boundSources).nodup
  have related := related_of_equal sound clockedLeft clockedRight flipFlopsLeft flipFlopsRight boundSources between
    roundTrip equal
  have runLeft := clockedLeft.runnable nodup.1 (fun _ => boundSources.mem_left.mp) fun _ => boundTargets.mem_left.mp
  have runRight :=
    clockedRight.runnable nodup.2 (fun _ => boundSources.mem_right.mp) fun _ => boundTargets.mem_right.mp
  exact ⟨between.exists_decodes, fun s r decodes steps widths => related.runFrom runLeft runRight decodes widths⟩

end Sound

section Samples

variable {b : Binding} {net other : Netlist}

theorem keys_of_list (keys : b.toList.map Prod.fst = net.top.triggers.toList.map Link.port) :
    ∀ l, l ∈ b ↔ net.IsTriggerPort l := by
  intro l
  rw [← TreeMap.mem_keys, ← TreeMap.map_fst_toList_eq_keys, keys, List.mem_map]
  simp only [TreeSet.mem_toList, Netlist.IsTriggerPort, eq_comm]

theorem attached_of_lists (keys : b.toList.map Prod.fst = net.top.triggers.toList.map Link.port)
    (sources : (b.toList.all fun x => other.sources.contains x.2) = true)
    (apart : ((driverPairs b).all fun x => (driverPairs b).all fun y => x.2 != y.2 || x.1 == y.1) = true) :
    StateEncoding.Attached b net other where
  keys := keys_of_list keys
  sources := by
    intro l r found
    exact TreeSet.mem_iff_contains.mpr
      (List.all_eq_true.mp sources (l, r) (TreeMap.mem_toList_iff_getElem?_eq_some.mpr found))
  apart := by
    intro x hx y hy same
    have := List.all_eq_true.mp (List.all_eq_true.mp apart x hx) y hy
    simpa [same] using this

/-- A valuation obeys all gates in a list of the gates. -/
theorem valuation_iff {v : View} {gates : List Gate} (listed : v.part.gates.filterMap v.net.gate? = gates)
    {val : GateId → Bool} : v.Valuation val ↔ ∀ g ∈ gates, g.Obeys val := by
  rw [← listed]
  constructor
  · intro valuation g mem
    obtain ⟨id, inside, found⟩ := List.mem_filterMap.mp mem
    exact valuation id inside g found
  · intro obeys id mem g found
    exact obeys g (List.mem_filterMap.mpr ⟨id, mem, found⟩)

theorem flipFlops_of_all (reachable : net.Reachable)
    (all : net.view.allGates (fun _ g => !g.isTrigger || g.fn == .flipFlop) = true) : net.FlipFlops := by
  intro id g found trigger
  have := View.of_allGates all (reachable.consistent.mem_view_gates.mpr ⟨g, found⟩) found
  simpa [trigger] using this

/-- An input, stored. -/
def stored : Netlist := .made [⟨.input, []⟩, ⟨.input, []⟩, ⟨.flipFlop, [.plain ⟨0⟩, ⟨.rising, ⟨1⟩⟩]⟩, .nary .output [⟨2⟩]]

/-- The negation of an input stored, and negated again. -/
def storedNegated : Netlist := .made [⟨.input, []⟩, ⟨.input, []⟩, .nary .not [⟨0⟩],
  ⟨.flipFlop, [.plain ⟨2⟩, ⟨.rising, ⟨1⟩⟩]⟩, .nary .not [⟨3⟩], .nary .output [⟨4⟩]]

def inverter : Netlist := .made [⟨.input, []⟩, .nary .not [⟨0⟩], .nary .output [⟨1⟩]]

theorem inverter_circuit : inverter.view.Circuit := View.circuit_made (by decide +kernel)

theorem inverter_valuation {val : GateId → Bool} :
    inverter.view.Valuation val ↔ val ⟨1⟩ = !val ⟨0⟩ ∧ val ⟨2⟩ = val ⟨1⟩ := by
  rw [@valuation_iff inverter.view [⟨⟨.input, []⟩, ⟨0⟩, [.edge ⟨0⟩ ⟨1⟩ 0]⟩, ⟨.nary .not [⟨0⟩], ⟨1⟩, [.edge ⟨1⟩ ⟨2⟩ 0]⟩,
    ⟨.nary .output [⟨1⟩], ⟨2⟩, []⟩] (by decide +kernel)]
  simp [Gate.Obeys, Shape.isFree, Shape.isSource, Shape.nary, GateFn.isTriggered, GateFn.isConstant, GateFn.evalBit,
    Signal.plain]

/-- One stored bit, negated both ways. -/
def negated : StateEncoding where
  encoder := inverter
  decoder := inverter
  leftToEncoder := portPairs [(2, 0)]
  leftFromDecoder := portPairs [(2, 2)]
  rightFromEncoder := portPairs [(3, 2)]
  rightToDecoder := portPairs [(3, 0)]

theorem negated_between : negated.Between stored storedNegated where
  encoder := inverter_circuit
  decoder := inverter_circuit
  leftToEncoder := by refine attached_of_lists ?_ ?_ ?_ <;> decide +kernel
  rightToDecoder := by refine attached_of_lists ?_ ?_ ?_ <;> decide +kernel
  leftFromDecoder := keys_of_list (by decide +kernel)
  rightFromEncoder := keys_of_list (by decide +kernel)

theorem negated_encodes {s r : GateId → Bool} : negated.Encodes s r ↔ r ⟨3⟩ = !s ⟨2⟩ := by
  have fed : driverPairs negated.leftToEncoder = [(⟨2⟩, ⟨0⟩)] := by decide +kernel
  have read : driverPairs negated.rightFromEncoder = [(⟨3⟩, ⟨2⟩)] := by decide +kernel
  simp only [StateEncoding.Encodes, fed, read, List.forall_mem_singleton]
  constructor
  · rintro ⟨val, valuation, start, result⟩
    obtain ⟨middle, last⟩ := inverter_valuation.mp valuation
    rw [result, last, middle, start]
  · intro result
    refine ⟨fun id => if id = ⟨0⟩ then s ⟨2⟩ else r ⟨3⟩, inverter_valuation.mpr ?_, ?_, ?_⟩ <;> simp [result]

theorem negated_decodes {s r : GateId → Bool} : negated.Decodes r s ↔ s ⟨2⟩ = !r ⟨3⟩ := by
  have fed : driverPairs negated.rightToDecoder = [(⟨3⟩, ⟨0⟩)] := by decide +kernel
  have read : driverPairs negated.leftFromDecoder = [(⟨2⟩, ⟨2⟩)] := by decide +kernel
  simp only [StateEncoding.Decodes, fed, read, List.forall_mem_singleton]
  constructor
  · rintro ⟨val, valuation, start, result⟩
    obtain ⟨middle, last⟩ := inverter_valuation.mp valuation
    rw [result, last, middle, start]
  · intro result
    refine ⟨fun id => if id = ⟨0⟩ then r ⟨3⟩ else s ⟨2⟩, inverter_valuation.mpr ?_, ?_, ?_⟩ <;> simp [result]

/-- An input and its negation stored: from every state and its negation on, the outputs are the same. -/
theorem stored_runs_as_storedNegated :
    (Checker.byEncoding { oracle := Branching.oracle } stored.view storedNegated.view
      (portPairs [(0, 0), (1, 1)]) (portPairs [(3, 5)]) negated).outcome = .ok .equal ∧
    (∀ r, ∃ s, negated.Decodes r s) ∧
    ∀ s r : GateId → Word, (∀ p < 64, lane (s ⟨2⟩) p = !lane (r ⟨3⟩) p) → ∀ steps : List (List Word),
      (∀ words ∈ steps, words.length = 2) → ∃ rows, stored.view.runFrom [⟨0⟩, ⟨1⟩] [⟨3⟩] s steps = .ok rows ∧
        storedNegated.view.runFrom [⟨0⟩, ⟨1⟩] [⟨5⟩] r steps = .ok rows := by
  have equal : (Checker.byEncoding { oracle := Branching.oracle } stored.view storedNegated.view
      (portPairs [(0, 0), (1, 1)]) (portPairs [(3, 5)]) negated).outcome = .ok .equal := by decide +kernel
  have clockedLeft : stored.Clocked := clocked_made (by decide +kernel)
  have clockedRight : storedNegated.Clocked := clocked_made (by decide +kernel)
  have sources : Bijects (portPairs [(0, 0), (1, 1)]) (· ∈ stored.top.sources) (· ∈ storedNegated.top.sources) :=
    bijects_of_lists (by decide +kernel) (by decide +kernel) (nodup_toList _) (fun _ => TreeSet.mem_toList)
      fun _ => TreeSet.mem_toList
  have targets : Bijects (portPairs [(3, 5)]) (· ∈ stored.top.targets) (· ∈ storedNegated.top.targets) :=
    bijects_of_lists (by decide +kernel) (by decide +kernel) (nodup_toList _) (fun _ => TreeSet.mem_toList)
      fun _ => TreeSet.mem_toList
  have roundTrip : ∀ s r, negated.Encodes s r → negated.Decodes r s := by
    intro s r encodes
    rw [negated_decodes, negated_encodes.mp encodes, Bool.not_not]
  have pins : driverPairs (portPairs [(0, 0), (1, 1)]) = [(⟨0⟩, ⟨0⟩), (⟨1⟩, ⟨1⟩)] := by decide +kernel
  have outs : driverPairs (portPairs [(3, 5)]) = [(⟨3⟩, ⟨5⟩)] := by decide +kernel
  obtain ⟨total, runs⟩ := byEncoding_sound Branching.oracle_decides.sound clockedLeft clockedRight
    (flipFlops_of_all clockedLeft.reachable (by decide +kernel))
    (flipFlops_of_all clockedRight.reachable (by decide +kernel)) sources targets negated_between roundTrip equal
  rw [pins, outs] at runs
  exact ⟨equal, total, fun s r opposite steps widths =>
    runs s r (fun p lt => negated_decodes.mpr (opposite p lt)) steps widths⟩

/-- An input, held while it is not enabled. -/
def latched : Netlist := .made [⟨.input, []⟩, ⟨.input, []⟩, ⟨.latch, [.plain ⟨0⟩, ⟨.high, ⟨1⟩⟩]⟩, .nary .output [⟨2⟩]]

def wire : Netlist := .made [⟨.input, []⟩, .nary .output [⟨0⟩]]

theorem wire_circuit : wire.view.Circuit := View.circuit_made (by decide +kernel)

theorem wire_valuation {val : GateId → Bool} : wire.view.Valuation val ↔ val ⟨1⟩ = val ⟨0⟩ := by
  rw [@valuation_iff wire.view [⟨⟨.input, []⟩, ⟨0⟩, [.edge ⟨0⟩ ⟨1⟩ 0]⟩, ⟨.nary .output [⟨0⟩], ⟨1⟩, []⟩]
    (by decide +kernel)]
  simp [Gate.Obeys, Shape.isFree, Shape.isSource, Shape.nary, GateFn.isTriggered, GateFn.isConstant, GateFn.evalBit,
    Signal.plain]

/-- One stored bit that both sides store alike. -/
def alike : StateEncoding where
  encoder := wire
  decoder := wire
  leftToEncoder := portPairs [(2, 0)]
  leftFromDecoder := portPairs [(2, 1)]
  rightFromEncoder := portPairs [(2, 1)]
  rightToDecoder := portPairs [(2, 0)]

/-- A flip-flop and a latch of one input are found equal through the encoding that leaves the state as it is. From
the zero state the latch, which is not enabled, holds what the flip-flop gives up. -/
theorem enable_not_compared : stored.Clocked ∧ latched.Clocked ∧ Oracle.Sound Branching.oracle ∧
    Bijects (portPairs [(0, 0), (1, 1)]) (· ∈ stored.top.sources) (· ∈ latched.top.sources) ∧
    Bijects (portPairs [(3, 3)]) (· ∈ stored.top.targets) (· ∈ latched.top.targets) ∧
    alike.Between stored latched ∧ (∀ s r, alike.Encodes s r → alike.Decodes r s) ∧
    (Checker.byEncoding { oracle := Branching.oracle } stored.view latched.view (portPairs [(0, 0), (1, 1)])
      (portPairs [(3, 3)]) alike).outcome = .ok .equal ∧
    alike.Decodes (fun _ => false) (fun _ => false) ∧
    stored.view.runFrom [⟨0⟩, ⟨1⟩] [⟨3⟩] (fun _ => 0) [[allLanes, 0], [0, 0]] = .ok [[0], [allLanes]] ∧
    latched.view.runFrom [⟨0⟩, ⟨1⟩] [⟨3⟩] (fun _ => 0) [[allLanes, 0], [0, 0]] = .ok [[0], [0]] := by
  have fed : driverPairs (portPairs [(2, 0)]) = [(⟨2⟩, ⟨0⟩)] := by decide +kernel
  have read : driverPairs (portPairs [(2, 1)]) = [(⟨2⟩, ⟨1⟩)] := by decide +kernel
  have encodes : ∀ s r, alike.Encodes s r → r ⟨2⟩ = s ⟨2⟩ := by
    rintro s r ⟨val, valuation, start, result⟩
    simp only [alike, fed, read, List.forall_mem_singleton] at start result
    rw [result, wire_valuation.mp valuation, start]
  have decodes : ∀ s r, r ⟨2⟩ = s ⟨2⟩ → alike.Decodes r s := by
    intro s r same
    refine ⟨fun _ => s ⟨2⟩, wire_valuation.mpr rfl, ?_, ?_⟩ <;> simp [alike, fed, read, same]
  refine ⟨clocked_made (by decide +kernel), clocked_made (by decide +kernel), Branching.oracle_decides.sound, ?_, ?_, ?_,
    fun s r related => decodes s r (encodes s r related), by decide +kernel, decodes _ _ rfl, by decide +kernel,
    by decide +kernel⟩
  · exact bijects_of_lists (by decide +kernel) (by decide +kernel) (nodup_toList _) (fun _ => TreeSet.mem_toList)
      fun _ => TreeSet.mem_toList
  · exact bijects_of_lists (by decide +kernel) (by decide +kernel) (nodup_toList _) (fun _ => TreeSet.mem_toList)
      fun _ => TreeSet.mem_toList
  · refine ⟨wire_circuit, wire_circuit, ?_, ?_,
      keys_of_list (by decide +kernel), keys_of_list (by decide +kernel)⟩
    · refine attached_of_lists ?_ ?_ ?_ <;> decide +kernel
    · refine attached_of_lists ?_ ?_ ?_ <;> decide +kernel

end Samples

end Checker

end LogicNet
