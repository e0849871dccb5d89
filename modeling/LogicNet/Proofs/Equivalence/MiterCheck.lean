import LogicNet.Proofs.Equivalence.Branching
import LogicNet.Proofs.Equivalence.Miter
import LogicNet.Proofs.Equivalence.Parts

/-!
# Checking by a miter

Circuits whose source links and target links are bound one-to-one can be compared in two ways: directly, or by
asking whether the output of their miter can be set. The two do not ask the same. A miter has one input for each
pair of bound LINKS, so it confirms that the circuits agree whatever the pairs carry (`EqualByLinks`). A direct check
knows a source link by its DRIVER, so it confirms that they agree whatever the drivers carry (`EqualByDrivers`). What
a miter confirms a direct check confirms too, and if no two source links have one driver they are the same.
-/

namespace LogicNet

open Std

/-! ## Two notions of equality -/

/-- Under what is fed to their links, the netlists have equal values at bound targets. -/
def AgreeWhenFed (left right : Netlist) (targets : Binding) (feedLeft feedRight : Link → Bool) : Prop :=
  ∀ valLeft valRight, left.FedBy feedLeft valLeft → right.FedBy feedRight valRight →
    ∀ l r : Link, targets[l]? = some r → valLeft l.source = valRight r.source

/-- The netlists agree whatever is fed to the pairs of bound links. -/
def EqualByLinks (left right : Netlist) (sources targets : Binding) : Prop :=
  ∀ feedLeft feedRight : Link → Bool, (∀ l r : Link, sources[l]? = some r → feedLeft l = feedRight r) →
    AgreeWhenFed left right targets feedLeft feedRight

/-- The netlists agree whatever the drivers of bound links carry, if those of a pair carry the same. -/
def EqualByDrivers (left right : Netlist) (sources targets : Binding) : Prop :=
  ∀ stimLeft stimRight : GateId → Bool,
    (∀ l r : Link, sources[l]? = some r → stimLeft l.source = stimRight r.source) →
      AgreeWhenFed left right targets (fun l => stimLeft l.source) fun r => stimRight r.source

section Equality

variable {left right : Netlist} {sources targets : Binding}

/-- What drivers carry is fed to their links. -/
theorem EqualByLinks.byDrivers (equal : EqualByLinks left right sources targets) :
    EqualByDrivers left right sources targets :=
  fun _ _ agree => equal _ _ agree

/-- Links that are known by their drivers carry what some gates do. -/
theorem exists_stimulus {links : Link → Prop} (unshared : Unshared links) (feed : Link → Bool) :
    ∃ stim : GateId → Bool, ∀ l, links l → feed l = stim l.source := by
  have injOn : Set.InjOn Link.source {l | links l} := fun l isLink l' isLink' => unshared l l' isLink isLink'
  refine ⟨feed ∘ Function.invFunOn Link.source {l | links l}, fun l isLink => ?_⟩
  exact congrArg feed (injOn.leftInvOn_invFunOn isLink).symm

/-- What is fed on the left is fed to the bound links on the right. -/
theorem Bijects.exists_feed {P Q : Link → Prop} (bound : Bijects sources P Q) (feedLeft : Link → Bool) :
    ∃ feedRight : Link → Bool, ∀ l r : Link, sources[l]? = some r → feedLeft l = feedRight r := by
  let pairs : Set (Link × Link) := {p | sources[p.1]? = some p.2}
  have injOn : Set.InjOn Prod.snd pairs := by
    rintro ⟨l, r⟩ entry ⟨l', _⟩ entry' rfl
    exact Prod.ext (bound.injective entry entry') rfl
  refine ⟨fun r => feedLeft (Function.invFunOn Prod.snd pairs r).1, fun l r entry => ?_⟩
  have mem : (l, r) ∈ pairs := entry
  exact congrArg (fun p => feedLeft p.1) (injOn.leftInvOn_invFunOn mem).symm

/-- If no two source links have one driver, nothing can be fed to links that drivers do not carry. -/
theorem EqualByDrivers.byLinks (consistentLeft : left.Consistent) (consistentRight : right.Consistent)
    (bound : Bijects sources (· ∈ left.sources) (· ∈ right.sources))
    (unsharedLeft : Unshared (· ∈ left.sources)) (unsharedRight : Unshared (· ∈ right.sources))
    (equal : EqualByDrivers left right sources targets) : EqualByLinks left right sources targets := by
  intro feedLeft feedRight agree valLeft valRight fedLeft fedRight
  obtain ⟨stimLeft, carriesLeft⟩ := exists_stimulus unsharedLeft feedLeft
  obtain ⟨stimRight, carriesRight⟩ := exists_stimulus unsharedRight feedRight
  refine equal stimLeft stimRight (fun l r entry => ?_) valLeft valRight (fedLeft.congr consistentLeft carriesLeft)
    (fedRight.congr consistentRight carriesRight)
  calc
    stimLeft l.source = feedLeft l := (carriesLeft l ((bound.keys l).mp (mem_of_getElem? entry))).symm
    _ = feedRight r := agree l r entry
    _ = stimRight r.source := carriesRight r ((bound.values r).mp ⟨l, entry⟩)

end Equality

/-! ## What a direct check decides -/

namespace Checker

variable {c : Checker} {left right : Netlist} {sources targets : Binding}

section Direct

variable (circuitLeft : left.view.Circuit) (circuitRight : right.view.Circuit)
  (boundTargets : Bijects targets (· ∈ left.targets) (· ∈ right.targets))
include circuitLeft circuitRight boundTargets

/-- Valuations are forced to agree exactly if the circuits agree whatever their drivers carry. -/
theorem forces_iff_equalByDrivers (boundSources : Bijects sources (· ∈ left.sources) (· ∈ right.sources)) :
    Forces left.view.Valuation right.view.Valuation (driverPairs sources) (driverPairs targets) ↔
      EqualByDrivers left right sources targets := by
  have consistentLeft : left.Consistent := circuitLeft.ofReachable.1.consistent
  have consistentRight : right.Consistent := circuitRight.ofReachable.1.consistent
  constructor
  · intro forces stimLeft stimRight agree valLeft valRight fedLeft fedRight l r entry
    obtain ⟨vl, valuationLeft, givenLeft⟩ := circuitLeft.exists_valuation stimLeft
    obtain ⟨vr, valuationRight, givenRight⟩ := circuitRight.exists_valuation stimRight
    have together : Together (driverPairs sources) vl vr := by
      intro x mem
      obtain ⟨k, k', pair, rfl⟩ := mem_driverPairs.mp mem
      calc
        vl k.source = stimLeft k.source := givenLeft k ((boundSources.keys k).mp (mem_of_getElem? pair))
        _ = stimRight k'.source := agree k k' pair
        _ = vr k'.source := (givenRight k' ((boundSources.values k').mp ⟨k, pair⟩)).symm
    have same : vl l.source = vr r.source :=
      forces vl vr valuationLeft valuationRight together _ (mem_driverPairs.mpr ⟨l, r, entry, rfl⟩)
    have fedLeft' := (Netlist.FedBy.of_valuation circuitLeft valuationLeft).congr consistentLeft givenLeft
    have fedRight' := (Netlist.FedBy.of_valuation circuitRight valuationRight).congr consistentRight givenRight
    calc
      valLeft l.source = vl l.source :=
        Miter.eq_at_target circuitLeft fedLeft fedLeft' ((boundTargets.keys l).mp (mem_of_getElem? entry))
      _ = vr r.source := same
      _ = valRight r.source :=
        Miter.eq_at_target circuitRight fedRight' fedRight ((boundTargets.values r).mp ⟨l, entry⟩)
  · intro equal vl vr valuationLeft valuationRight together x mem
    obtain ⟨l, r, entry, rfl⟩ := mem_driverPairs.mp mem
    refine equal vl vr (fun k k' pair => ?_) vl vr (.of_valuation circuitLeft valuationLeft)
      (.of_valuation circuitRight valuationRight) l r entry
    exact together _ (mem_driverPairs.mpr ⟨k, k', pair, rfl⟩)

/-- A direct check returns, and decides whether the circuits agree whatever their drivers carry. Simulation has to
have a pattern for each driver. -/
theorem check_equalByDrivers (correct : c.oracle.Correct)
    (inRange : ∀ q, pairQuery left.view right.view sources targets = .ok q → q.formula.size ≤ Lit.largestVar + 1)
    (boundSources : Bijects sources (· ∈ left.sources) (· ∈ right.sources)) {hints : Hints}
    (hasSources : hints.sources = some sources) (hasTargets : hints.targets = some targets)
    (flat : hints.parts = none ∨ left.size + right.size ≤ c.flatBound)
    (patterns : OneToOne (driverPairs sources) ∨ c.simBound < (driverPairs sources).length) (room : c.simBound ≤ 64) :
    ∃ verdict, (c.check left right hints).outcome = .ok verdict ∧
      (verdict.isEqual = true ↔ EqualByDrivers left right sources targets) := by
  have coherentLeft := circuitLeft.ofReachable.coherent
  have coherentRight := circuitRight.ofReachable.coherent
  obtain ⟨leftOrder, orderedLeft⟩ := coherentLeft.exists_orderedGates circuitLeft.acyclic
  obtain ⟨rightOrder, orderedRight⟩ := coherentRight.exists_orderedGates circuitRight.acyclic
  obtain ⟨q, encoded⟩ : ∃ q, pairQuery left.view right.view sources targets = .ok q :=
    exists_pairQuery circuitLeft.toStateless circuitRight.toStateless orderedLeft orderedRight
  have comparable : Comparable left right sources targets :=
    ⟨circuitLeft.ofReachable.1, circuitRight.ofReachable.1, circuitLeft.isCombinational, circuitRight.isCombinational,
      circuitLeft.customFree, circuitRight.customFree, circuitLeft.acyclic, circuitRight.acyclic, boundSources,
      boundTargets⟩
  have inside : ∀ x ∈ driverPairs targets, x.1 ∈ left.view.part.gates ∧ x.2 ∈ right.view.part.gates := by
    intro x read
    obtain ⟨l, r, found, rfl⟩ := mem_driverPairs.mp read
    exact ⟨coherentLeft.source_of_target ((boundTargets.keys l).mp (mem_of_getElem? found)),
      coherentRight.source_of_target ((boundTargets.values r).mp ⟨l, found⟩)⟩
  rw [outcome_check_flat (comparable.bindings hasSources hasTargets) flat,
    outcome_flat_combinational circuitLeft.isCombinational circuitRight.isCombinational,
    ← forces_iff_equalByDrivers circuitLeft circuitRight boundTargets boundSources]
  refine combinational_verdict correct coherentLeft coherentRight encoded (inRange q encoded) (fun few => ?_) inside room
  have oneToOne := patterns.resolve_right (Nat.not_lt.mpr few)
  exact ⟨simulable_of_enumerates circuitLeft ⟨oneToOne.nodup.1, fun _ => boundSources.mem_left⟩,
    simulable_of_enumerates circuitRight ⟨oneToOne.nodup.2, fun _ => boundSources.mem_right⟩⟩

end Direct

/-! ## What a miter check decides -/

section Indirect

open Formula

/-- A correct oracle tells whether what has been added to the empty formula can be met. -/
theorem exists_solve {oracle : Oracle} (correct : oracle.Correct) {f : Formula} {P : (Moment → Bool) → Prop}
    (adds : Adds (withReconnection {}) f fun val _ => P val) (inRange : f.size ≤ Lit.largestVar + 1) :
    ∃ satisfiable f', f.solve oracle = .ok (satisfiable, f') ∧ (satisfiable = true ↔ ∃ val, P val) := by
  obtain ⟨answer, answered⟩ := correct.answers inRange adds.fit.isBelow
  refine ⟨answer.isSome, { f with model := answer }, by rw [Formula.solve, answered]; rfl, ?_⟩
  cases answer with
  | none =>
    refine iff_of_false Bool.false_ne_true ?_
    rintro ⟨val, holds⟩
    obtain ⟨value, _, met⟩ := adds.complete val (fun _ => false) (meets_withReconnection {} val _) holds
    obtain ⟨clause, mem, fails⟩ := correct.sound _ _ answered value
    rw [met.clauses clause (Array.mem_def.mpr mem)] at fails
    cases fails
  | some m =>
    refine iff_of_true rfl ?_
    obtain ⟨_, satisfies⟩ := correct.model answered
    obtain ⟨val, met⟩ := exists_meets fun d mem => List.all_eq_true.mp satisfies d (Array.mem_def.mp mem)
    exact ⟨val, (adds.sound val m.value met).2⟩

/-- The check of a circuit with one output returns, and decides whether the output is never set. -/
theorem checkMiter_iff (correct : c.oracle.Correct) {net : Netlist} (circuit : net.view.Circuit) {out : GateId}
    (single : net.targets.toList = [.port out])
    (inRange : ∀ f, Encode.draftView net.view 0 0 {} = .ok f → f.size ≤ Lit.largestVar + 1) :
    ∃ never, (c.checkMiter net).outcome = .ok never ∧
      (never = true ↔ ∀ val, net.view.Valuation val → val out = false) := by
  have coherent := circuit.ofReachable.coherent
  obtain ⟨order, ordered⟩ := coherent.exists_orderedGates circuit.acyclic
  obtain ⟨f, drafted⟩ := Encode.exists_draftView coherent circuit.customFree ordered 0 0 (withReconnection {})
  have valuation := Encode.draftView_adds_valuation (fit_withReconnection {}) coherent drafted
  have isSet := fix_var_adds valuation.fit ⟨⟨0, out⟩, 0⟩ true
  rw [connected_congr valuation.reconnection_eq, connected_empty] at isSet
  rw [connected_empty] at valuation
  have adds : Adds (withReconnection {}) _ fun val _ =>
      net.view.Valuation (fun id => val ⟨⟨0, id⟩, 0⟩) ∧ val ⟨⟨0, out⟩, 0⟩ = true := valuation.both isSet
  -- The output has a variable already, so the last clause takes no new one.
  have leaves : .port out ∈ net.targets := TreeSet.mem_toList.mp (single ▸ List.mem_singleton_self _)
  obtain ⟨y, known⟩ :=
    Encode.draftView_knows (fit_withReconnection {}) coherent drafted out (coherent.source_of_target leaves)
  rw [← connected_congr valuation.reconnection_eq] at known
  have small : ((f.var ⟨0, out⟩ 0).2.fix (f.var ⟨0, out⟩ 0).1 true).size ≤ Lit.largestVar + 1 := by
    rw [var_of_some known]
    exact inRange f drafted
  obtain ⟨satisfiable, f', solved, iff⟩ := exists_solve correct adds small
  have size : net.targets.size = 1 := by
    rw [← TreeSet.length_toList, single]
    rfl
  refine ⟨!satisfiable, ?_, ?_⟩
  · have required : Result.require (net.targets.size == 1) .miterOutputs = .ok () :=
      Result.require_eq_ok.mpr (by rw [size]; rfl)
    have output : (net.targets.toList.map Link.source).headD ⟨0⟩ = out := by
      rw [single]
      rfl
    have start : Encode.view net.view 0 0 {} = .ok f := by
      rw [(Encode.limits_view net.view 0 0 {}).limited_of f drafted]
      exact requireNumberedFrom_eq_ok.mpr ⟨valuation.fit.isNumberedFrom (inRange f drafted) _, rfl⟩
    have numbered : ((f.var ⟨0, out⟩ 0).2.add [lit (f.var ⟨0, out⟩ 0).1 true]).requireNumberedFrom f.clauses.size =
        .ok _ := requireNumberedFrom_eq_ok.mpr ⟨adds.fit.isNumberedFrom small _, rfl⟩
    have asked : ((f.var ⟨0, out⟩ 0).2.add [lit (f.var ⟨0, out⟩ 0).1 true]).solve c.oracle =
        .ok (satisfiable, f') := solved
    simp only [checkMiter, Traced.outcome_bind, Traced.outcome_require, required, Result.ok_bind, output,
      Traced.outcome_liftM, start, numbered, asked]
    cases satisfiable with
    | false => rfl
    | true => simp
  · rw [Bool.not_eq_true', ← Bool.not_eq_true, iff]
    constructor
    · intro never val values
      by_contra isTrue
      exact never ⟨fun m => val m.site.gate, values, Bool.not_eq_false _ ▸ isTrue⟩
    · rintro never ⟨val, values, isTrue⟩
      rw [never _ values] at isTrue
      cases isTrue

end Indirect

end Checker

/-- The output of a miter is never set exactly if the circuits agree whatever the pairs of links carry. -/
theorem Miter.IsMiter.never_iff {left right : Netlist} {sources targets : Binding} {m : Netlist}
    {input : Link → GateId} {out : GateId} (h : IsMiter left right sources targets m input out)
    (circuitLeft : left.view.Circuit) (circuitRight : right.view.Circuit)
    (boundSources : Bijects sources (· ∈ left.sources) (· ∈ right.sources))
    (boundTargets : Bijects targets (· ∈ left.targets) (· ∈ right.targets)) :
    (∀ val, m.view.Valuation val → val out = false) ↔ EqualByLinks left right sources targets := by
  constructor
  · intro never feedLeft feedRight agree valLeft valRight fedLeft fedRight l r entry
    obtain ⟨val, valuation, given⟩ := h.exists_valuation feedLeft
    obtain ⟨valLeft', valRight', fedLeft', fedRight', value⟩ := h.values val feedLeft feedRight valuation
      fun k k' pair => ⟨(given k (mem_of_getElem? pair)).symm,
        (agree k k' pair).symm.trans (given k (mem_of_getElem? pair)).symm⟩
    rw [never val valuation] at value
    have same : valLeft' l.source = valRight' r.source := by
      simpa using List.any_eq_false.mp value.symm (l, r) (TreeMap.mem_toList_iff_getElem?_eq_some.mpr entry)
    calc
      valLeft l.source = valLeft' l.source :=
        eq_at_target circuitLeft fedLeft fedLeft' ((boundTargets.keys l).mp (mem_of_getElem? entry))
      _ = valRight' r.source := same
      _ = valRight r.source := eq_at_target circuitRight fedRight' fedRight ((boundTargets.values r).mp ⟨l, entry⟩)
  · intro equal val valuation
    obtain ⟨feedRight, agree⟩ := boundSources.exists_feed fun l => val (input l)
    obtain ⟨valLeft, valRight, fedLeft, fedRight, value⟩ := h.values val (fun l => val (input l)) feedRight valuation
      fun l r pair => ⟨rfl, (agree l r pair).symm⟩
    rw [value, List.any_eq_false]
    intro p mem
    have same := equal _ _ agree valLeft valRight fedLeft fedRight p.1 p.2
      (TreeMap.mem_toList_iff_getElem?_eq_some.mp mem)
    simp [same]

/-! ## Both ways together -/

namespace Checker

/-- Two drivers outside, each read once by a conjunction that is negated twice. -/
def bothByNand : Netlist := .made [.nary .nand [⟨0⟩, ⟨1⟩], .nary .not [⟨2⟩], .nary .output [⟨3⟩]]

theorem both_circuit : both.view.Circuit := View.circuit_made (by decide +kernel)

theorem bothByNand_circuit : bothByNand.view.Circuit := View.circuit_made (by decide +kernel)

/-- Each driver with the one of the same name. -/
def bothSources : Binding := TreeMap.ofList ([.edge ⟨0⟩ ⟨2⟩ 0, .edge ⟨1⟩ ⟨2⟩ 1].map fun l : Link => (l, l))

theorem bothSources_bijects : Bijects bothSources (· ∈ both.sources) (· ∈ bothByNand.sources) :=
  bijects_of_lists (by decide +kernel) (by decide +kernel) (nodup_toList _) (fun _ => TreeSet.mem_toList)
    fun _ => TreeSet.mem_toList

theorem bothTargets_bijects : Bijects (portPairs [(3, 4)]) (· ∈ both.targets) (· ∈ bothByNand.targets) :=
  bijects_of_lists (by decide +kernel) (by decide +kernel) (nodup_toList _) (fun _ => TreeSet.mem_toList)
    fun _ => TreeSet.mem_toList

/-- A MITER KNOWS LINKS AND A DIRECT CHECK KNOWS DRIVERS. Both return, if there are literals for the variables of their
formulas. They give the same answer if no two source links have one driver, and otherwise each its own, of which that of
the miter is the stronger. -/
theorem direct_and_miter_check {c : Checker} (correct : c.oracle.Correct) {left right : Netlist}
    (circuitLeft : left.view.Circuit) (circuitRight : right.view.Circuit) {hints : Hints} {sources targets : Binding}
    (hasSources : hints.sources = some sources) (hasTargets : hints.targets = some targets)
    (boundSources : Bijects sources (· ∈ left.sources) (· ∈ right.sources))
    (boundTargets : Bijects targets (· ∈ left.targets) (· ∈ right.targets))
    (flat : hints.parts = none ∨ left.size + right.size ≤ c.flatBound) (few : c.simBound ≤ 64)
    (room : left.names.length + right.names.length + sources.size + targets.size + 2 ≤ GateId.largest)
    (inRange : ∀ q, pairQuery left.view right.view sources targets = .ok q → q.formula.size ≤ Lit.largestVar + 1)
    (miterInRange : ∀ m f, (miter left right hints).outcome = .ok m → Encode.draftView m.view 0 0 {} = .ok f →
      f.size ≤ Lit.largestVar + 1) :
    ∃ m never, (miter left right hints).outcome = .ok m ∧ (c.checkMiter m).outcome = .ok never ∧
      (never = true ↔ EqualByLinks left right sources targets) ∧
      (OneToOne (driverPairs sources) ∨ c.simBound < (driverPairs sources).length →
        ∃ verdict, (c.check left right hints).outcome = .ok verdict ∧
          (verdict.isEqual = true ↔ EqualByDrivers left right sources targets) ∧
          (never = true → verdict.isEqual = true)) ∧
      (Unshared (· ∈ left.sources) → Unshared (· ∈ right.sources) →
        ∃ verdict, (c.check left right hints).outcome = .ok verdict ∧ verdict.isEqual = never) := by
  obtain ⟨m, input, out, built, isMiter⟩ := @exists_miter left right circuitLeft circuitRight hints sources targets
    (by rw [hasSources]; rfl) (by rw [hasTargets]; rfl) boundSources boundTargets room
  obtain ⟨never, checked, iff⟩ := checkMiter_iff correct isMiter.circuit isMiter.toList_targets
    fun f => miterInRange m f built
  rw [isMiter.never_iff circuitLeft circuitRight boundSources boundTargets] at iff
  have direct : OneToOne (driverPairs sources) ∨ c.simBound < (driverPairs sources).length →
      ∃ verdict, (c.check left right hints).outcome = .ok verdict ∧
        (verdict.isEqual = true ↔ EqualByDrivers left right sources targets) := by
    intro patterns
    exact check_equalByDrivers circuitLeft circuitRight boundTargets correct inRange boundSources hasSources hasTargets
      flat patterns few
  refine ⟨m, never, built, checked, iff, fun patterns => ?_, fun unsharedLeft unsharedRight => ?_⟩
  · obtain ⟨verdict, made, equal⟩ := direct patterns
    exact ⟨verdict, made, equal, fun confirmed => equal.mpr (iff.mp confirmed).byDrivers⟩
  · obtain ⟨verdict, made, equal⟩ := direct (.inl (boundSources.oneToOne unsharedLeft unsharedRight))
    refine ⟨verdict, made, Bool.eq_iff_iff.mpr (equal.trans (Iff.trans ?_ iff.symm))⟩
    refine ⟨fun byDrivers => ?_, EqualByLinks.byDrivers⟩
    exact byDrivers.byLinks circuitLeft.ofReachable.1.consistent circuitRight.ofReachable.1.consistent boundSources
      unsharedLeft unsharedRight

/-- A double negation, on drivers that are read once, is confirmed directly and by a miter. -/
theorem both_bothByNand_confirmed : ∃ m,
    (miter both bothByNand (boundHints bothSources (portPairs [(3, 4)]))).outcome = .ok m ∧
      (Checker.checkMiter { oracle := Branching.oracle } m).outcome = .ok true ∧
      EqualByLinks both bothByNand bothSources (portPairs [(3, 4)]) ∧
      (Checker.check { oracle := Branching.oracle } both bothByNand
        (boundHints bothSources (portPairs [(3, 4)]))).outcome.map Verdict.isEqual = .ok true := by
  have miterInRange : ∀ m f, (miter both bothByNand (boundHints bothSources (portPairs [(3, 4)]))).outcome = .ok m →
      Encode.draftView m.view 0 0 {} = .ok f → f.size ≤ Lit.largestVar + 1 := by
    have inRange : ∀ f, ((miter both bothByNand (boundHints bothSources (portPairs [(3, 4)]))).outcome >>= fun m =>
        Encode.draftView m.view 0 0 {}) = .ok f → f.size ≤ Lit.largestVar + 1 := Result.forall_of_all (by decide +kernel)
    exact fun m f built drafted => inRange f (Result.bind_eq_ok.mpr ⟨m, built, drafted⟩)
  obtain ⟨m, never, built, checked, iff, _, agree⟩ :=
    @direct_and_miter_check { oracle := Branching.oracle } Branching.oracle_decides.toCorrect both bothByNand both_circuit
      bothByNand_circuit (boundHints bothSources (portPairs [(3, 4)])) bothSources (portPairs [(3, 4)]) rfl rfl
      bothSources_bijects bothTargets_bijects (.inl rfl) (by decide) (by decide +kernel)
      (Result.forall_of_all (by decide +kernel)) miterInRange
  obtain ⟨verdict, made, same⟩ := agree (unshared_of_nodup (by decide +kernel)) (unshared_of_nodup (by decide +kernel))
  have equal : (Checker.check { oracle := Branching.oracle } both bothByNand
      (boundHints bothSources (portPairs [(3, 4)]))).outcome.map Verdict.isEqual = .ok true := by decide +kernel
  have confirmed : never = true := by
    rw [made] at equal
    exact same.symm.trans (Except.ok.inj equal)
  rw [confirmed] at checked
  exact ⟨m, built, checked, iff.mp confirmed, equal⟩

/-- A driver that is read twice: circuits that are equal whatever it carries are not equal to their miter, which feeds
its two uses from two inputs. -/
theorem shared_driver_refuted_by_miter :
    Branching.oracle.Decides ∧ Miter.selfParity.view.Circuit ∧ Miter.selfDenial.view.Circuit ∧
      Bijects Miter.inTurn (· ∈ Miter.selfParity.sources) (· ∈ Miter.selfDenial.sources) ∧
      Bijects (portPairs [(2, 3)]) (· ∈ Miter.selfParity.targets) (· ∈ Miter.selfDenial.targets) ∧
      (∀ n ∈ [0, 16], (Checker.check { oracle := Branching.oracle, simBound := n } Miter.selfParity Miter.selfDenial
        Miter.inTurnHints).outcome.map Verdict.isEqual = .ok true) ∧
      (miter Miter.selfParity Miter.selfDenial Miter.inTurnHints >>=
        Checker.checkMiter { oracle := Branching.oracle }).outcome = .ok false := by
  refine ⟨Branching.oracle_decides, Miter.selfParity_circuit, Miter.selfDenial_circuit, Miter.inTurn_bijects,
    Miter.outputs_biject, ?_, ?_⟩ <;> decide +kernel

end Checker

end LogicNet
