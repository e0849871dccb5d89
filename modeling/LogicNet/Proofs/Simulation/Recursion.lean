import LogicNet.Proofs.Simulation.Runs

/-!
# Simulation is recursive evaluation

A view means something without any order and without any slots: to evaluate a gate, evaluate what drives it, and apply
its function (`View.Yields`). The recursion ends at the pins, which are given, and at what has no value of its own.

**The law** (`View.runOnce_recursive`): a single step of a compiled view returns, in each of the sixty-four lanes, what
recursive evaluation yields at the outputs, whatever runs of the same simulator there were before.

The step goes along an order, so the proof does too: what is written before a gate is what the recursion yields there.
That the recursion yields only ONE value needs no order. It is by induction on how the value was found.
-/

namespace LogicNet

namespace View

variable {v : View} {pins outputs order : List GateId}

/-! ## Recursive evaluation -/

/-- Without a pin there is no value: a source, a triggered gate, or a driver outside the view. -/
def Off (v : View) (id : GateId) : Prop :=
  id ∉ v.part.gates ∨ ∃ g, v.net.gate? id = some g ∧ (g.isSource = true ∨ g.isTrigger = true)

/-- Recursive evaluation of a view whose pins have given bits. -/
inductive Yields (v : View) (given : List (GateId × Bool)) : GateId → Bool → Prop
  | pin {id : GateId} {b : Bool} (mem : (id, b) ∈ given) : Yields v given id b
  | off {id : GateId} (unpinned : id ∉ given.map Prod.fst) (off : v.Off id) : Yields v given id false
  | gate {id : GateId} {g : Gate} {val : GateId → Bool} (unpinned : id ∉ given.map Prod.fst) (mem : id ∈ v.part.gates)
    (found : v.net.gate? id = some g) (notSource : g.isSource = false) (plain : g.isTrigger = false)
    (drivers : ∀ s ∈ g.inputs, Yields v given s.driver (val s.driver)) :
    Yields v given id (g.fn.evalBit false (g.inputs.map fun s => val s.driver))

/-- A gate that is evaluated is not off. -/
theorem not_off {id : GateId} (mem : id ∈ v.part.gates) {g : Gate} (found : v.net.gate? id = some g)
    (notSource : g.isSource = false) (plain : g.isTrigger = false) : ¬v.Off id := by
  rintro (outside | ⟨g', found', kind⟩)
  · exact outside mem
  · rw [found] at found'
    cases found'
    rw [notSource, plain] at kind
    rcases kind with source | trigger
    · cases source
    · cases trigger

/-- Recursive evaluation yields at most one value. -/
theorem Yields.unique {given : List (GateId × Bool)} (nodup : (given.map Prod.fst).Nodup) {id : GateId} {b b' : Bool}
    (h : v.Yields given id b) (h' : v.Yields given id b') : b = b' := by
  induction h generalizing b' with
  | pin mem =>
    cases h' with
    | pin mem' => exact congrArg Prod.snd (List.inj_on_of_nodup_map nodup mem mem' rfl)
    | off unpinned _ => exact absurd (List.mem_map_of_mem mem) unpinned
    | gate unpinned => exact absurd (List.mem_map_of_mem mem) unpinned
  | off unpinned off =>
    cases h' with
    | pin mem => exact absurd (List.mem_map_of_mem mem) unpinned
    | off => rfl
    | gate _ mem found notSource plain => exact absurd off (not_off mem found notSource plain)
  | gate unpinned mem found notSource plain _ ih =>
    cases h' with
    | pin mem => exact absurd (List.mem_map_of_mem mem) unpinned
    | off _ off => exact absurd off (not_off mem found notSource plain)
    | gate _ _ found' _ _ drivers =>
      rw [found] at found'
      cases found'
      congr 1
      exact List.map_congr_left fun s read => ih s read (drivers s read)

/-! ## Steps evaluate -/

section Step

variable (h : v.Coherent) (acyclic : v.Acyclic) (distinct : pins.Nodup) (ordered : v.orderedGates = .ok order)
  {words : List Word} (width : words.length = pins.length) {env : GateId → Word}
  (final : env = settleEnv ((v.evaluated pins order).filter fun g => !g.isTrigger) (writeEnv (pins.zip words) fun _ => 0))
  {p : Nat}
include h acyclic distinct ordered width final

/-- The recursion ends at pins and at what is off, and there a step from zero has what it yields. -/
theorem Coherent.yields_end {id : GateId} (stop : id ∈ pins ∨ v.Off id) :
    v.Yields (pins.zip (words.map (lane · p))) id (lane (env id) p) := by
  have stepped : Stepped v pins words (fun _ => 0) env := final ▸ h.stepped acyclic distinct ordered width _
  by_cases pinned : id ∈ pins
  · obtain ⟨i, hi, rfl⟩ := List.mem_iff_getElem.mp pinned
    have pin := List.getElem?_eq_getElem hi
    have word := List.getElem?_eq_getElem (width ▸ hi : i < words.length)
    refine .pin (List.mem_iff_getElem?.mpr ⟨i, List.getElem?_zip_eq_some.mpr ⟨pin, ?_⟩⟩)
    rw [List.getElem?_map, word, stepped.fed i _ _ pin word]
    rfl
  · have off := stop.resolve_left pinned
    have zero : env id = 0 := by
      rw [final]
      refine h.settleEnv_kept pinned ?_
      rcases off with outside | ⟨g, found, kind⟩
      · exact .inl fun placed => outside ((h.orderedGates_spec ordered).1.mem_iff.mp placed)
      · refine .inr fun g' found' => ?_
        rw [found] at found'
        cases found'
        exact kind
    rw [zero, lane_zero]
    refine .off ?_ off
    rwa [List.map_fst_zip (by simp [width])]

/-- After a step from zero every gate, and every driver outside the view, has what recursive evaluation yields. -/
theorem Coherent.yields (lt : p < 64) (id : GateId) :
    v.Yields (pins.zip (words.map (lane · p))) id (lane (env id) p) := by
  have stepped : Stepped v pins words (fun _ => 0) env := final ▸ h.stepped acyclic distinct ordered width _
  obtain ⟨perm, topological⟩ := h.orderedGates_spec ordered
  have ends {id : GateId} (stop : id ∈ pins ∨ v.Off id) :=
    h.yields_end acyclic distinct ordered width final (p := p) stop
  by_cases inside : id ∈ order
  case neg => exact ends (.inr (.inl fun mem => inside (perm.mem_iff.mpr mem)))
  revert id
  refine ordered_induction topological (fun id mem => acyclic.not_feeds_self (perm.mem_iff.mp mem)) ?_
  intro id placed ih
  have mem := perm.mem_iff.mp placed
  by_cases stop : id ∈ pins ∨ v.Off id
  · exact ends stop
  obtain ⟨unpinned, driven⟩ := not_or.mp stop
  obtain ⟨g, found, _⟩ := h.known mem
  have notSource : g.isSource = false := Bool.eq_false_iff.mpr fun source => driven (.inr ⟨g, found, .inl source⟩)
  have plain : g.isTrigger = false := Bool.eq_false_iff.mpr fun trigger => driven (.inr ⟨g, found, .inr trigger⟩)
  rw [stepped.computed id mem unpinned g found notSource plain, lane_evalWord _ _ _ lt, lane_zero, List.map_map]
  refine @Yields.gate v _ id g (fun x => lane (env x) p) ?_ mem found notSource plain fun s read => ?_
  · rwa [List.map_fst_zip (by simp [width])]
  · by_cases placed : s.driver ∈ order
    · exact ih s.driver placed ⟨g, found, plain, s, read, rfl⟩
    · exact ends (.inr (.inl fun mem => placed (perm.mem_iff.mpr mem)))

end Step

/-! ## Runs evaluate -/

/-- SIMULATION IS RECURSIVE EVALUATION. A view without loops that can be compiled, on as many words as pins, returns
words whose lanes are what recursive evaluation yields at the outputs; another number of words is refused. Any runs may
have gone before: the answer is that of the first run, and the next may follow. -/
theorem runOnce_recursive {v : View} (h : v.OfReachable) (acyclic : v.Acyclic) {pins outputs : List GateId}
    (distinct : pins.Nodup) {sim : Simulator} (compiled : v.compile pins outputs = .ok sim) {s : Simulation}
    (used : sim.Used s) (words : List Word) :
    (words.length = pins.length → ∃ out s', sim.runOnce words = .ok out ∧ s.runOnce words = .ok (out, s') ∧ sim.Used s' ∧
        List.Forall₂ (fun id w => ∀ p < 64, ∀ b,
          v.Yields (pins.zip (words.map (lane · p))) id b ↔ lane w p = b) outputs out) ∧
      (words.length ≠ pins.length → sim.runOnce words = .error (.breach .stepWidth) ∧
        s.runOnce words = .error (.breach .stepWidth)) := by
  have coherent := h.coherent
  obtain ⟨order, ordered, _, _, rfl⟩ := compile_eq_ok.mp compiled
  refine ⟨fun width => ?_, fun other => ?_⟩
  · obtain ⟨after, _, step, final⟩ := @Coherent.step_env v pins outputs order coherent _ size_zeros words width
    rw [readSlots_zeros] at final
    have first : (v.program pins outputs order).runOnce words =
        .ok (outputs.map (readSlots (v.valued pins order) after)) := by
      rw [Simulator.runOnce_eq, step]
      rfl
    obtain ⟨s', ran, used'⟩ := used.exists_runOnce first
    refine ⟨_, s', first, ran, used', ?_⟩
    rw [List.forall₂_map_right_iff, List.forall₂_same]
    intro id _ p lt b
    have keys : ((pins.zip (words.map (lane · p))).map Prod.fst).Nodup := by
      rw [List.map_fst_zip (by simp [width])]
      exact distinct
    have yields := coherent.yields acyclic distinct ordered width final lt id
    exact ⟨fun other => yields.unique keys other, fun same => same ▸ yields⟩
  · constructor
    · rw [Simulator.runOnce_eq, step_of_width other]
      rfl
    · rw [used.runOnce_eq, Simulation.runOnce, Simulator.start_reset, Simulator.start, step_of_width other]
      rfl

/-- A part that reads a latch and two inputs from outside. -/
def partNet : Result Netlist := do
  let net := Netlist.made [.nary .input [], .nary .input [], ⟨.latch, [.plain ⟨0⟩, ⟨.high, ⟨1⟩⟩]⟩, .nary .and [⟨0⟩, ⟨2⟩],
    .nary .majority [⟨3⟩, ⟨1⟩, ⟨0⟩, ⟨2⟩, ⟨3⟩], .nary .xor [⟨4⟩, ⟨1⟩]]
  let net ← net.addPart.2.moveGate ⟨3⟩ (some 0)
  let net ← net.moveGate ⟨4⟩ (some 0)
  net.moveGate ⟨5⟩ (some 0)

/-- One pin is outside the part, and one cuts it. A run of two steps has gone before. -/
theorem partNet_recursive : ∃ net v sim s s', partNet = .ok net ∧ net.partView 0 = .ok v ∧ v.Acyclic ∧
    v.compile [⟨1⟩, ⟨3⟩] [⟨5⟩, ⟨2⟩] = .ok sim ∧ sim.start.run [[7, 9], [5, 3]] = .ok ([[6, 0], [4, 0]], s) ∧
    s ≠ sim.start ∧ s.runOnce [12, 10] = .ok ([4, 0], s') ∧
    v.Yields [(⟨1⟩, true), (⟨3⟩, false)] ⟨5⟩ true ∧ v.Yields [(⟨1⟩, true), (⟨3⟩, true)] ⟨5⟩ false := by
  obtain ⟨net, run, facts⟩ : ∃ net, partNet = .ok net ∧ ((net.partView 0).toOption.any fun v =>
      (v.allGates fun id g => g.isTrigger || g.inputs.all fun s => s.driver.index < id.index) &&
      (v.compile [⟨1⟩, ⟨3⟩] [⟨5⟩, ⟨2⟩]).toOption.any fun sim =>
        (sim.runOnce [12, 10]).toOption.any (· == [4, 0]) &&
        (sim.start.run [[7, 9], [5, 3]]).toOption.any fun x => x.1 == [[6, 0], [4, 0]] && x.2 != sim.start) = true :=
    Result.exists_ok_of_any (by decide +kernel)
  obtain ⟨v, part, facts⟩ := Result.exists_ok_of_any facts
  obtain ⟨forward, facts⟩ := Bool.and_eq_true_iff.mp facts
  obtain ⟨sim, compiled, facts⟩ := Result.exists_ok_of_any facts
  obtain ⟨first, facts⟩ := Bool.and_eq_true_iff.mp facts
  obtain ⟨out, ran, same⟩ := Result.exists_ok_of_any first
  obtain rfl := eq_of_beq same
  obtain ⟨⟨rows, s⟩, before, facts⟩ := Result.exists_ok_of_any facts
  obtain ⟨same, moved⟩ := Bool.and_eq_true_iff.mp facts
  obtain rfl := eq_of_beq same
  have acyclic := acyclic_of_all forward
  have ofReachable : v.OfReachable := by
    obtain ⟨net₁, first, run⟩ := Result.bind_eq_ok.mp run
    obtain ⟨net₂, second, third⟩ := Result.bind_eq_ok.mp run
    have reachable : net.Reachable :=
      .moveGate _ _ (.moveGate _ _ (.moveGate _ _ (.addPart (Netlist.reachable_made _)) first) second) third
    obtain ⟨p, _, made⟩ := Result.bind_eq_ok.mp part
    cases made
    exact ⟨reachable, .inr ⟨0, part⟩⟩
  obtain ⟨returns, _⟩ := runOnce_recursive ofReachable acyclic (by decide) compiled (.run .start before) [12, 10]
  obtain ⟨_, s', first, later, _, lanes⟩ := returns rfl
  rw [ran] at first
  cases first
  obtain ⟨lane5, _⟩ := List.forall₂_cons.mp lanes
  refine ⟨net, v, sim, s, s', run, part, acyclic, compiled, before, bne_iff_ne.mp moved, later, ?_, ?_⟩
  · exact (lane5 2 (by decide) true).mpr (by decide)
  · exact (lane5 3 (by decide) false).mpr (by decide)

end View

end LogicNet
