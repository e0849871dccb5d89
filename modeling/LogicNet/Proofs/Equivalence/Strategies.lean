import LogicNet.Proofs.Equivalence.Binding
import LogicNet.Proofs.Equivalence.Solving

/-!
# Two strategies, one verdict

A combinational check simulates all patterns if there are few of them, and solves a formula otherwise. The
verdict by simulation is about the views cut at the pins, the verdict by solving about their valuations. The
two are the same where the pins are exactly what the views leave open (`combinational_verdict`), and then it
does not matter which strategy was taken.

They differ in two cases (`strategies_differ`). Memory on plain signals is not triggered, so simulation
evaluates it, but its function says memory, so the formula leaves it free. And a driver that is bound twice
is one pin with two bits: simulation keeps the last one, where the formula asks for both.
-/

namespace LogicNet

open Std

/-- A correct oracle that answers however many variables there are. -/
structure Oracle.Decides (oracle : Oracle) : Prop extends Oracle.Correct oracle where
  always : ∀ {n clauses}, (∀ c ∈ clauses, c.isBelow n = true) → ∃ answer, oracle n clauses = .ok answer

/-- In a view pinned at what it leaves open, a cut loses nothing. -/
theorem View.Simulable.solves_iff {v : View} {pins : List GateId} (h : v.Simulable pins) {val : GateId → Bool} :
    v.Solves pins val ↔ v.Valuation val := by
  refine ⟨h.pinnable.valuation h.coherent h.logical, fun valuation id mem unpinned g found _ _ => ?_⟩
  rcases valuation id mem g found with free | value
  · exact absurd (h.complete id (.inl ⟨mem, g, found, free⟩)) unpinned
  · rw [h.coherent.wired.keyed found] at value
    exact value

/-- Drivers of a circuit's sources can be given any values. -/
theorem View.Circuit.exists_valuation {v : View} (h : v.Circuit) (given : GateId → Bool) :
    ∃ val, v.Valuation val ∧ ∀ l ∈ v.part.sources, val l.source = given l.source := by
  let pins := (v.part.sources.toList.map Link.source).eraseDups
  have enumerates : Checker.Enumerates pins v.IsSourceDriver := by
    refine ⟨nodup_eraseDups _, fun id => ?_⟩
    simp [pins, List.mem_eraseDups, View.IsSourceDriver]
  have simulable := Checker.simulable_of_enumerates h enumerates
  obtain ⟨val, solves, values⟩ := @View.Determined.exists_solution v pins simulable.determined (pins.map given)
    (List.length_map _)
  refine ⟨val, simulable.solves_iff.mp solves, fun l mem => ?_⟩
  exact List.map_inj_left.mp values l.source ((enumerates.2 _).mpr ⟨l, mem, rfl⟩)

/-- What a compiled view reads has a value: it is a gate of the view, or a pin. -/
theorem View.Determined.inside_of_compile {v : View} {pins outputs : List GateId} (h : v.Determined pins)
    {sim : Simulator} (compiled : v.compile pins outputs = .ok sim) :
    ∀ id ∈ outputs, id ∈ v.part.gates ∨ id ∈ pins := by
  obtain ⟨order, ordered, _, read, _⟩ := View.compile_eq_ok.mp compiled
  obtain ⟨perm, _⟩ := h.coherent.orderedGates_spec ordered
  intro id mem
  rcases View.mem_valued.mp (read id mem) with pinned | own | ⟨g, evaluated, s, reads, rfl⟩
  · exact .inr pinned
  · exact .inl (perm.mem_iff.mp own)
  · by_cases inside : s.driver ∈ v.part.gates
    · exact .inl inside
    · obtain ⟨placed, _, found, _⟩ := h.coherent.mem_evaluated.mp evaluated
      exact .inr (h.complete _ (.inr ⟨inside, g.id, perm.mem_iff.mp placed, g, found, s, reads, rfl⟩))

namespace Checker

variable {c : Checker}

/-! ## Verdicts -/

section Combinational

variable {left right : View} {sources targets : Binding}

theorem forces_iff_not_separates {pins reads : List (GateId × GateId)} :
    Forces left.Valuation right.Valuation pins reads ↔ ¬∃ vl vr, Separates left right pins reads vl vr := by
  constructor
  · intro forces
    rintro ⟨vl, vr, separates⟩
    obtain ⟨x, read, differ⟩ := separates.differ
    exact differ (forces vl vr separates.left separates.right separates.agree x read)
  · intro never vl vr valLeft valRight agree x read
    by_contra differ
    exact never ⟨vl, vr, valLeft, valRight, agree, x, read, differ⟩

/-- The verdict by solving is that the views are equal exactly if their valuations are forced to agree. -/
theorem bySolving_verdict (correct : c.oracle.Correct) (coherentLeft : left.Coherent) (coherentRight : right.Coherent)
    {q : Query} (made : pairQuery left right sources targets = .ok q) (inRange : q.formula.size ≤ Lit.largestVar + 1) :
    ∃ verdict, (c.bySolving [left, right] {} (sitePairs sources 0 1) (sitePairs targets 0 1)).outcome = .ok verdict ∧
      (verdict.isEqual = true ↔ Forces left.Valuation right.Valuation (driverPairs sources) (driverPairs targets)) := by
  have coherent := coherent_pair coherentLeft coherentRight
  obtain ⟨extends_, inputs, outputs⟩ := query_extends coherent made
  obtain ⟨answer, answered⟩ := correct.answers inRange extends_.fit.isBelow
  rw [verdict_of_query coherent made inRange, forces_iff_not_separates]
  cases answer with
  | none =>
    refine ⟨_, verdict_of_none answered, ⟨fun _ => ?_, fun _ => rfl⟩⟩
    rintro ⟨vl, vr, separates⟩
    obtain ⟨value, holds⟩ := exists_model_of_separates coherentLeft coherentRight made separates
    obtain ⟨clause, mem, fails⟩ := correct.sound _ _ answered value
    rw [holds clause mem] at fails
    cases fails
  | some m =>
    obtain ⟨size, satisfies⟩ := correct.model answered
    refine ⟨_, verdict_of_some answered size inputs outputs, ⟨nofun, fun never => absurd ?_ never⟩⟩
    obtain ⟨vl, vr, separates, _⟩ := separates_of_model coherentLeft coherentRight made
      fun d mem => List.all_eq_true.mp satisfies d mem
    exact ⟨vl, vr, separates⟩

/-- Simulation on all patterns compiles both views and has room for sixty-four pins. -/
theorem of_bySimulation {verdict : Verdict} (made : (bySimulation left right sources targets).outcome = .ok verdict) :
    (∃ sim, left.compile ((driverPairs sources).map Prod.fst) ((driverPairs targets).map Prod.fst) = .ok sim) ∧
      (∃ sim, right.compile ((driverPairs sources).map Prod.snd) ((driverPairs targets).map Prod.snd) = .ok sim) ∧
      (driverPairs sources).length ≤ 64 := by
  simp only [bySimulation, Traced.outcome_bind, Traced.outcome_note, Traced.outcome_liftM, Result.ok_bind] at made
  obtain ⟨leftSim, compiledLeft, made⟩ := Result.bind_eq_ok.mp made
  obtain ⟨rightSim, compiledRight, made⟩ := Result.bind_eq_ok.mp made
  obtain ⟨_, patterns, _⟩ := Result.bind_eq_ok.mp made
  exact ⟨⟨leftSim, compiledLeft⟩, ⟨rightSim, compiledRight⟩, (exhaustivePatterns_eq_ok.mp patterns).1⟩

/-- Simulators that read nothing show no difference. -/
theorem findDifference_ne_some {left right : Simulation} (blind : left.sim.outputs = []) {lanes : Nat}
    {rows : List (List Word)} {cex : Counterexample} : findDifference left right lanes rows ≠ .ok (some cex) := by
  induction rows generalizing left right with
  | nil =>
    intro found
    cases found
  | cons words rows ih =>
    intro found
    obtain ⟨⟨l, left'⟩, ran, found⟩ := Result.bind_eq_ok.mp found
    obtain ⟨⟨r, right'⟩, _, found⟩ := Result.bind_eq_ok.mp found
    obtain ⟨stepped, step, ran⟩ := Result.bind_eq_ok.mp ran
    obtain ⟨values, _, step⟩ := Result.bind_eq_ok.mp step
    cases step
    cases ran
    have same : differingLane lanes (left.sim.read (left.sim.settle values)) r = none := by
      rw [Simulator.read, blind, differingLane_eq_none]
      intro p _ x mem
      cases mem
    simp only [same] at found
    exact @ih { left with values := left.sim.settle values } right' blind found

/-- A difference by simulation is one of something that is read. -/
theorem reads_of_bySimulation {cex : Counterexample}
    (different : (bySimulation left right sources targets).outcome = .ok (.different cex)) :
    driverPairs targets ≠ [] := by
  intro none
  simp only [bySimulation, Traced.outcome_bind, Traced.outcome_note, Traced.outcome_liftM, Result.ok_bind,
    none] at different
  obtain ⟨leftSim, compiled, different⟩ := Result.bind_eq_ok.mp different
  obtain ⟨rightSim, _, different⟩ := Result.bind_eq_ok.mp different
  obtain ⟨patterns, _, different⟩ := Result.bind_eq_ok.mp different
  obtain ⟨found, searched, different⟩ := Result.bind_eq_ok.mp different
  cases found with
  | none => cases different
  | some found =>
    obtain ⟨order, _, _, _, rfl⟩ := View.compile_eq_ok.mp compiled
    exact findDifference_ne_some rfl searched

/-- Under either strategy, the values of a difference are those of valuations that separate the views. -/
theorem separates_of_combinational (faithful : c.oracle.Faithful) (coherentLeft : left.Coherent)
    (coherentRight : right.Coherent) {cex : Counterexample}
    (simulable : (bySimulation left right sources targets).outcome = .ok (.different cex) →
      left.Simulable ((driverPairs sources).map Prod.fst) ∧ right.Simulable ((driverPairs sources).map Prod.snd))
    (different : (c.combinational left right sources targets).outcome = .ok (.different cex)) :
    ∃ vl vr, Separates left right (driverPairs sources) (driverPairs targets) vl vr ∧
      cex.inputs = (driverPairs sources).map (gateValues vl vr) ∧
      cex.outputs = (driverPairs targets).map (gateValues vl vr) := by
  unfold combinational at different
  split at different
  · obtain ⟨simLeft, simRight⟩ := simulable different
    have detLeft := simLeft.determined
    have detRight := simRight.determined
    obtain ⟨⟨_, compiledLeft⟩, ⟨_, compiledRight⟩, room⟩ := of_bySimulation different
    rcases bySimulation_solved detLeft detRight (detLeft.inside_of_compile compiledLeft)
      (detRight.inside_of_compile compiledRight) room with ⟨equal, _⟩ | ⟨bits, vl, vr, _, solved, differ, same⟩
    · rw [equal] at different
      cases different
    · rw [same] at different
      cases different
      refine ⟨vl, vr, ⟨simLeft.solves_iff.mp solved.left, simRight.solves_iff.mp solved.right, solved.agree, differ⟩, ?_,
        rfl⟩
      -- Each bit was fed to both gates of its pair.
      rw [← solved.fedLeft, List.map_map, List.map_map]
      apply List.map_congr_left
      intro x pin
      exact Prod.ext rfl (solved.agree x pin)
  · exact separates_of_different faithful coherentLeft coherentRight different

/-- Under either strategy, views found equal have valuations that are forced to agree. Simulation has to know
all that is open; a formula does not. -/
theorem forces_of_combinational (sound : c.oracle.Sound) (coherentLeft : left.Coherent) (coherentRight : right.Coherent)
    (determined : (driverPairs sources).length ≤ c.simBound →
      (left.Determined ((driverPairs sources).map Prod.fst) ∧ right.Determined ((driverPairs sources).map Prod.snd)) ∧
        left.Timed ∧ right.Timed)
    (equal : (c.combinational left right sources targets).outcome = .ok .equal) :
    Forces left.Valuation right.Valuation (driverPairs sources) (driverPairs targets) := by
  unfold combinational at equal
  split at equal
  · next few =>
    obtain ⟨⟨detLeft, detRight⟩, timedLeft, timedRight⟩ := determined few
    obtain ⟨⟨_, compiledLeft⟩, ⟨_, compiledRight⟩, room⟩ := of_bySimulation equal
    obtain ⟨verdict, made, iff⟩ := bySimulation_verdict detLeft detRight (detLeft.inside_of_compile compiledLeft)
      (detRight.inside_of_compile compiledRight) room
    obtain rfl : verdict = .equal := Except.ok.inj (made.symm.trans equal)
    intro vl vr valLeft valRight
    exact iff.mp rfl vl vr (valLeft.solves coherentLeft timedLeft) (valRight.solves coherentRight timedRight)
  · rw [forces_iff_not_separates]
    rintro ⟨vl, vr, separates⟩
    exact not_separates_of_equal sound coherentLeft coherentRight equal separates

/-- Views whose valuations are as open as their pins have one verdict, whichever strategy is taken. -/
theorem combinational_verdict (correct : c.oracle.Correct) (coherentLeft : left.Coherent)
    (coherentRight : right.Coherent) {q : Query} (encoded : pairQuery left right sources targets = .ok q)
    (inRange : q.formula.size ≤ Lit.largestVar + 1)
    (simulable : (driverPairs sources).length ≤ c.simBound →
      left.Simulable ((driverPairs sources).map Prod.fst) ∧ right.Simulable ((driverPairs sources).map Prod.snd))
    (inside : ∀ x ∈ driverPairs targets, x.1 ∈ left.part.gates ∧ x.2 ∈ right.part.gates) (room : c.simBound ≤ 64) :
    ∃ verdict, (c.combinational left right sources targets).outcome = .ok verdict ∧
      (verdict.isEqual = true ↔ Forces left.Valuation right.Valuation (driverPairs sources) (driverPairs targets)) := by
  unfold combinational
  split
  · next few =>
    obtain ⟨simLeft, simRight⟩ := simulable few
    have verdict := bySimulation_verdict simLeft.determined simRight.determined
      (List.forall_mem_map.mpr fun x read => .inl (inside x read).1)
      (List.forall_mem_map.mpr fun x read => .inl (inside x read).2) (Nat.le_trans few room)
    simp only [Forces, simLeft.solves_iff, simRight.solves_iff] at verdict
    exact verdict
  · exact bySolving_verdict correct coherentLeft coherentRight encoded inRange

end Combinational

/-! ## Flat checks -/

theorem requireBindings_eq_ok {left right : View} {hints : Hints} {bound : Binding × Binding} :
    requireBindings left right hints = .ok bound ↔ hints.sources = some bound.1 ∧ hints.targets = some bound.2 ∧
      left.part.sources.size = right.part.sources.size ∧ left.part.sources.size ≤ bound.1.size ∧
      right.part.targets.size ≤ bound.2.size := by
  unfold requireBindings
  split
  · next sources targets hasSources hasTargets =>
    simp only [Result.bind_eq_ok, Result.require_eq_ok, beq_iff_eq, decide_eq_true_eq, hasSources, hasTargets,
      Option.some.injEq]
    constructor
    · intro made
      obtain ⟨_, counts, _, enough, _, enough', same⟩ := made
      cases same
      exact ⟨rfl, rfl, counts, enough, enough'⟩
    · intro given
      obtain ⟨rfl, rfl, counts, enough, enough'⟩ := given
      exact ⟨(), counts, (), enough, (), enough', rfl⟩
  · next missing =>
    constructor
    · intro made
      cases made
    · intro given
      obtain ⟨hasSources, hasTargets, _⟩ := given
      exact absurd hasTargets (missing _ _ hasSources)

theorem bindings_of_check {left right : Netlist} {hints : Hints} {verdict : Verdict}
    (made : (c.check left right hints).outcome = .ok verdict) :
    ∃ bound, requireBindings left.view right.view hints = .ok bound := by
  simp only [check, Traced.outcome_bind, Traced.outcome_liftM] at made
  obtain ⟨bound, bindings, _⟩ := Result.bind_eq_ok.mp made
  exact ⟨bound, bindings⟩

theorem outcome_check_flat {left right : Netlist} {hints : Hints} {bound : Binding × Binding}
    (bindings : requireBindings left.view right.view hints = .ok bound)
    (flat : hints.parts = none ∨ left.size + right.size ≤ c.flatBound) :
    (c.check left right hints).outcome = (c.flat left.view right.view bound.1 bound.2 hints).outcome := by
  simp only [check, Traced.outcome_bind, Traced.outcome_liftM, bindings, Result.ok_bind]
  cases parts : hints.parts with
  | none => rfl
  | some p =>
    rw [parts] at flat
    simp only [if_neg (Nat.not_lt.mpr (flat.resolve_left nofun))]

theorem outcome_flat_combinational {left right : View} {sources targets : Binding} {hints : Hints}
    (combLeft : left.part.isCombinational = true) (combRight : right.part.isCombinational = true) :
    (c.flat left right sources targets hints).outcome = (c.combinational left right sources targets).outcome := by
  have sameKind : Result.require (left.part.isCombinational == right.part.isCombinational) .mixedKinds = .ok () :=
    Result.require_eq_ok.mpr (by rw [combLeft, combRight]; rfl)
  simp only [flat, Traced.outcome_bind, Traced.outcome_require, sameKind, Result.ok_bind, if_pos combLeft]

/-! ## Agreement -/

/-- Two combinational circuits with bindings that pair their source links and their target links. -/
structure Comparable (left right : Netlist) (sources targets : Binding) : Prop where
  reachableLeft : left.Reachable
  reachableRight : right.Reachable
  combLeft : left.isCombinational = true
  combRight : right.isCombinational = true
  customFreeLeft : left.view.CustomFree
  customFreeRight : right.view.CustomFree
  acyclicLeft : left.view.Acyclic
  acyclicRight : right.view.Acyclic
  sources : Bijects sources (· ∈ left.top.sources) (· ∈ right.top.sources)
  targets : Bijects targets (· ∈ left.top.targets) (· ∈ right.top.targets)

/-- The functions of a netlist without triggers and without memory are logic on plain signals. -/
theorem circuit_of_combinational {net : Netlist} (reachable : net.Reachable) (comb : net.isCombinational = true)
    (customFree : net.view.CustomFree) (memoryless : ∀ id g, net.gate? id = some g → g.fn.isTriggered = false)
    (acyclic : net.view.Acyclic) : net.view.Circuit := by
  refine ⟨⟨⟨reachable, .inl rfl⟩, fun id mem g found => ⟨?_, ?_⟩⟩, acyclic⟩
  · exact GateFn.isLogic_of_isTriggered (customFree id mem g found) (memoryless id g found)
  · apply Bool.eq_false_iff.mpr
    intro trigger
    have isTrigger := (reachable.consistent.top.accounts.triggers id).mpr ⟨mem, g, found, trigger⟩
    exact TreeSet.not_mem_of_isEmpty comb isTrigger

theorem Comparable.bindings {left right : Netlist} {sources targets : Binding} (h : Comparable left right sources targets)
    {hints : Hints} (hasSources : hints.sources = some sources) (hasTargets : hints.targets = some targets) :
    requireBindings left.view right.view hints = .ok (sources, targets) := by
  refine requireBindings_eq_ok.mpr ⟨hasSources, hasTargets, ?_, ?_, ?_⟩
  · exact (size_eq_of_keys h.sources.keys).symm.trans h.sources.size_right
  · exact Nat.le_of_eq (size_eq_of_keys h.sources.keys).symm
  · exact Nat.le_of_eq h.targets.size_right.symm

/-- THE STRATEGIES AGREE on circuits whose source drivers are paired one-to-one: whatever the bound up to
which patterns are simulated, a check returns, and its verdict is the same as with any other bound. With bound
zero all that has a source is solved, so there have to be literals for the variables of the query. -/
theorem strategies_agree {left right : Netlist} {sources targets : Binding} (correct : c.oracle.Correct)
    (h : Comparable left right sources targets)
    (inRange : ∀ q, pairQuery left.view right.view sources targets = .ok q → q.formula.size ≤ Lit.largestVar + 1)
    (memorylessLeft : ∀ id g, left.gate? id = some g → g.fn.isTriggered = false)
    (memorylessRight : ∀ id g, right.gate? id = some g → g.fn.isTriggered = false)
    (oneToOne : OneToOne (driverPairs sources)) {hints : Hints}
    (hasSources : hints.sources = some sources) (hasTargets : hints.targets = some targets)
    (flat : hints.parts = none ∨ left.size + right.size ≤ c.flatBound) {n n' : Nat} (room : n ≤ 64) (room' : n' ≤ 64) :
    ∃ verdict verdict', ({ c with simBound := n }.check left right hints).outcome = .ok verdict ∧
      ({ c with simBound := n' }.check left right hints).outcome = .ok verdict' ∧
      verdict.isEqual = verdict'.isEqual := by
  have circuitLeft := circuit_of_combinational h.reachableLeft h.combLeft h.customFreeLeft memorylessLeft h.acyclicLeft
  have circuitRight :=
    circuit_of_combinational h.reachableRight h.combRight h.customFreeRight memorylessRight h.acyclicRight
  have coherentLeft := circuitLeft.ofReachable.coherent
  have coherentRight := circuitRight.ofReachable.coherent
  obtain ⟨leftOrder, orderedLeft⟩ := coherentLeft.exists_orderedGates h.acyclicLeft
  obtain ⟨rightOrder, orderedRight⟩ := coherentRight.exists_orderedGates h.acyclicRight
  obtain ⟨q, encoded⟩ : ∃ q, pairQuery left.view right.view sources targets = .ok q :=
    exists_pairQuery circuitLeft.toStateless circuitRight.toStateless orderedLeft orderedRight
  have simulable : left.view.Simulable ((driverPairs sources).map Prod.fst) ∧
      right.view.Simulable ((driverPairs sources).map Prod.snd) :=
    ⟨simulable_of_enumerates circuitLeft ⟨oneToOne.nodup.1, fun _ => h.sources.mem_left⟩,
      simulable_of_enumerates circuitRight ⟨oneToOne.nodup.2, fun _ => h.sources.mem_right⟩⟩
  have inside : ∀ x ∈ driverPairs targets, x.1 ∈ left.view.part.gates ∧ x.2 ∈ right.view.part.gates := by
    intro x read
    obtain ⟨l, r, found, rfl⟩ := mem_driverPairs.mp read
    exact ⟨coherentLeft.source_of_target ((h.targets.keys l).mp (mem_of_getElem? found)),
      coherentRight.source_of_target ((h.targets.values r).mp ⟨l, found⟩)⟩
  have verdict : ∀ c' : Checker, c'.oracle = c.oracle → c'.flatBound = c.flatBound → c'.simBound ≤ 64 →
      ∃ verdict, (c'.check left right hints).outcome = .ok verdict ∧ (verdict.isEqual = true ↔
        Forces left.view.Valuation right.view.Valuation (driverPairs sources) (driverPairs targets)) := by
    intro c' sameOracle sameBound room
    rw [← sameOracle] at correct
    rw [← sameBound] at flat
    rw [outcome_check_flat (h.bindings hasSources hasTargets) flat,
      @outcome_flat_combinational c' left.view right.view _ _ hints h.combLeft h.combRight]
    exact combinational_verdict correct coherentLeft coherentRight encoded (inRange q encoded) (fun _ => simulable) inside
      room
  obtain ⟨one, made, iff⟩ := verdict { c with simBound := n } rfl rfl room
  obtain ⟨other, made', iff'⟩ := verdict { c with simBound := n' } rfl rfl room'
  exact ⟨one, other, made, made', Bool.eq_iff_iff.mpr (iff.trans iff'.symm)⟩

section Samples

theorem trying_decides : Oracle.Decides trying where
  toCorrect := trying_correct
  always below := ⟨_, if_pos (List.all_eq_true.mpr below)⟩

/-- Ports paired in order make two netlists of logic comparable. -/
theorem comparable_of_lists {shapes shapes' : List Shape} {sources targets : Binding}
    (combLeft : (Netlist.made shapes).isCombinational = true) (combRight : (Netlist.made shapes').isCombinational = true)
    (customFreeLeft : (Netlist.made shapes).view.CustomFree) (customFreeRight : (Netlist.made shapes').view.CustomFree)
    (acyclicLeft : (Netlist.made shapes).view.Acyclic) (acyclicRight : (Netlist.made shapes').view.Acyclic)
    (sourceKeys : sources.toList.map Prod.fst = (Netlist.made shapes).top.sources.toList)
    (sourceValues : sources.toList.map Prod.snd = (Netlist.made shapes').top.sources.toList)
    (targetKeys : targets.toList.map Prod.fst = (Netlist.made shapes).top.targets.toList)
    (targetValues : targets.toList.map Prod.snd = (Netlist.made shapes').top.targets.toList) :
    Comparable (Netlist.made shapes) (Netlist.made shapes') sources targets where
  reachableLeft := Netlist.reachable_made shapes
  reachableRight := Netlist.reachable_made shapes'
  combLeft := combLeft
  combRight := combRight
  customFreeLeft := customFreeLeft
  customFreeRight := customFreeRight
  acyclicLeft := acyclicLeft
  acyclicRight := acyclicRight
  sources := bijects_of_lists sourceKeys sourceValues (nodup_toList _) (fun _ => TreeSet.mem_toList)
    fun _ => TreeSet.mem_toList
  targets := bijects_of_lists targetKeys targetValues (nodup_toList _) (fun _ => TreeSet.mem_toList)
    fun _ => TreeSet.mem_toList

theorem memoryless_of_all {net : Netlist} (reachable : net.Reachable)
    (all : net.view.allGates (fun _ g => !g.fn.isTriggered) = true) :
    ∀ id g, net.gate? id = some g → g.fn.isTriggered = false := by
  intro id g found
  simpa using View.of_allGates all (reachable.consistent.mem_view_gates.mpr ⟨g, found⟩) found

/-- Hints that bind sources and targets. -/
def boundHints (sources targets : Binding) : Hints := { sources := some sources, targets := some targets }

/-- One driver outside and not the other, by a parity. -/
def withoutByParity : Netlist := .made [.nary .xor [⟨0⟩, ⟨1⟩], .nary .and [⟨2⟩, ⟨0⟩], .nary .output [⟨3⟩]]

/-- One driver outside and not the other, by a negated conjunction. -/
def withoutByNand : Netlist := .made [.nary .nand [⟨0⟩, ⟨1⟩], .nary .and [⟨2⟩, ⟨0⟩], .nary .output [⟨3⟩]]

/-- The links of the drivers outside to the gates that read them. -/
def readerLinks : List Link := [.edge ⟨0⟩ ⟨2⟩ 0, .edge ⟨1⟩ ⟨2⟩ 1, .edge ⟨0⟩ ⟨3⟩ 1]

theorem without_verdicts :
    let sources : Binding := TreeMap.ofList (readerLinks.map fun l => (l, l))
    let targets := portPairs [(4, 4)]
    Comparable withoutByParity withoutByNand sources targets ∧ OneToOne (driverPairs sources) ∧
      ∃ verdict verdict',
        (Checker.check { oracle := trying, simBound := 16 } withoutByParity withoutByNand
          (boundHints sources targets)).outcome = .ok verdict ∧
        (Checker.check { oracle := trying, simBound := 0 } withoutByParity withoutByNand
          (boundHints sources targets)).outcome = .ok verdict' ∧
        verdict.isEqual = verdict'.isEqual := by
  intro sources targets
  have comparable : Comparable withoutByParity withoutByNand sources targets := by
    refine comparable_of_lists ?_ ?_ (View.customFree_of_all ?_) (View.customFree_of_all ?_) (View.acyclic_of_all ?_)
      (View.acyclic_of_all ?_) ?_ ?_ ?_ ?_ <;> decide +kernel
  have oneToOne : OneToOne (driverPairs sources) := by
    unfold OneToOne
    decide +kernel
  have memorylessLeft := memoryless_of_all comparable.reachableLeft (by decide +kernel)
  have memorylessRight := memoryless_of_all comparable.reachableRight (by decide +kernel)
  have inRange : ∀ q, pairQuery withoutByParity.view withoutByNand.view sources targets = .ok q →
      q.formula.size ≤ Lit.largestVar + 1 := Result.forall_of_all (by decide +kernel)
  exact ⟨comparable, oneToOne, strategies_agree (c := { oracle := trying }) trying_correct comparable inRange memorylessLeft
    memorylessRight oneToOne rfl rfl (.inl rfl) (by decide) (by decide)⟩

/-- Memory on plain signals. -/
def plainLatch : Netlist := .made [⟨.input, []⟩, ⟨.input, []⟩, .nary .latch [⟨0⟩, ⟨1⟩], .nary .output [⟨2⟩]]

/-- One driver outside, read twice. -/
def twice : Netlist := .made [.nary .and [⟨0⟩, ⟨0⟩], .nary .output [⟨1⟩]]

/-- Two drivers outside, each read once. -/
def both : Netlist := .made [.nary .and [⟨0⟩, ⟨1⟩], .nary .output [⟨2⟩]]

/-- Memory on plain signals equals itself by simulation and not by solving. One driver bound to two equals them
by solving and not by simulation. -/
theorem strategies_differ : Oracle.Decides trying ∧
    (let sources := portPairs [(0, 0), (1, 1)]
     let targets := portPairs [(3, 3)]
     let verdict n := (Checker.check { oracle := trying, simBound := n } plainLatch plainLatch
      (boundHints sources targets)).outcome.map Verdict.isEqual
     Comparable plainLatch plainLatch sources targets ∧ (driverPairs sources).length ≤ 16 ∧
      verdict 16 = .ok true ∧ verdict 0 = .ok false) ∧
    (let sources := TreeMap.ofList [(Link.edge ⟨0⟩ ⟨1⟩ 0, Link.edge ⟨0⟩ ⟨2⟩ 0), (.edge ⟨0⟩ ⟨1⟩ 1, .edge ⟨1⟩ ⟨2⟩ 1)]
     let targets := portPairs [(2, 3)]
     let verdict n := (Checker.check { oracle := trying, simBound := n } twice both
      (boundHints sources targets)).outcome.map Verdict.isEqual
     Comparable twice both sources targets ∧ (driverPairs sources).length ≤ 16 ∧
      verdict 16 = .ok false ∧ verdict 0 = .ok true) := by
  refine ⟨trying_decides, ⟨?_, ?_, ?_, ?_⟩, ⟨?_, ?_, ?_, ?_⟩⟩
  case refine_1 | refine_5 =>
    refine comparable_of_lists ?_ ?_ (View.customFree_of_all ?_) (View.customFree_of_all ?_) (View.acyclic_of_all ?_)
      (View.acyclic_of_all ?_) ?_ ?_ ?_ ?_ <;> decide +kernel
  all_goals decide +kernel

end Samples

end Checker

end LogicNet
