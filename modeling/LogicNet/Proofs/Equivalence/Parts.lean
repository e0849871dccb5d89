import LogicNet.Proofs.Equivalence.Mapping
import LogicNet.Proofs.Equivalence.Triggers

/-!
# Checking part by part

A divided netlist is checked one pair of parts at a time, each under the bindings of its own boundary. That
every pair is equal says that the netlists are: values of the right netlist, read back along the
correspondence, fit together across the boundaries of the left parts and so are THE values of the left netlist
(`matches_of_parts`). Nothing is asked of the wiring of the right netlist, and the parts may depend on each
other in circles.

A pair of parts may however be called equal without being so. Only the number of links that enter is compared,
and simulation holds a driver that nothing is bound to at zero (`parts_hide_difference`). The check of the whole
confirms the check of the parts where every link that enters a right part is bound, or nothing is simulated.
-/

namespace LogicNet

open Std

/-! ## Parts of a netlist -/

namespace Netlist

variable {net : Netlist} {n : Nat} {p : Part}

theorem partView_eq_ok {v : View} : net.partView n = .ok v ↔ ∃ p, net.parts[n]? = some p ∧ v = ⟨net, p, false⟩ := by
  unfold partView part
  simp only [Result.bind_eq_ok, Result.getOrBreach_eq_ok]
  refine exists_congr fun p => and_congr_right fun _ => ?_
  exact ⟨fun made => by cases made; rfl, fun same => by rw [same]; rfl⟩

theorem Consistent.mem_part (h : net.Consistent) (found : net.parts[n]? = some p) {id : GateId} :
    id ∈ p.gates ↔ net.partOf? id = some n := by
  rw [← (h.parts n p found).members, inPart_iff]

theorem Consistent.coherent_part (h : net.Consistent) (found : net.parts[n]? = some p) :
    (⟨net, p, false⟩ : View).Coherent := ⟨h.wired, (h.parts n p found).contains⟩

theorem Consistent.part_subset (h : net.Consistent) (found : net.parts[n]? = some p) {id : GateId}
    (mem : id ∈ p.gates) : id ∈ net.top.gates := by
  obtain ⟨g, known⟩ := (h.parts n p found).accounts.known id mem
  exact h.mem_view_gates.mpr ⟨g, known⟩

/-- A netlist of logic without loops is one in each of its parts. -/
theorem circuit_part (h : net.view.Circuit) (found : net.parts[n]? = some p) :
    (⟨net, p, false⟩ : View).Circuit := by
  have reachable : net.Reachable := h.ofReachable.1
  have subset := fun {id} => @Consistent.part_subset net n p reachable.consistent found id
  refine ⟨⟨⟨reachable, .inr ⟨n, partView_eq_ok.mpr ⟨p, found, rfl⟩⟩⟩, ?_⟩, ?_⟩
  · intro id mem
    exact h.logic id (subset mem)
  · intro t loop
    refine h.acyclic t (Relation.TransGen.mono ?_ t t loop)
    intro a b step
    exact ⟨subset step.1, subset step.2.1, step.2.2⟩

/-- An edge between two parts enters one and leaves the other. -/
theorem Consistent.crossing (h : net.Consistent) {m : Nat} {q : Part} (foundP : net.parts[n]? = some p)
    (foundQ : net.parts[m]? = some q) {id : GateId} {g : Gate} (known : net.gate? id = some g) {s : Signal}
    (read : s ∈ g.inputs) (reader : net.partOf? id = some n) (driver : net.partOf? s.driver = some m)
    (across : m ≠ n) : ∃ l, l.source = s.driver ∧ l ∈ p.sources ∧ l ∈ q.targets := by
  obtain ⟨i, edge⟩ := exists_edge_of_read known read
  refine ⟨.edge s.driver id i, rfl, ?_, ?_⟩
  · refine ((h.parts n p foundP).bounds.sources _).mpr (.inr ⟨edge, ?_⟩)
    simp [Link.edge, inPart, reader, driver, across]
  · refine ((h.parts m q foundQ).bounds.targets _).mpr (.inr ⟨edge, ?_⟩)
    simp [Link.edge, inPart, reader, driver, Ne.symm across]

/-- The port of a source is on the boundary of its part as it is on that of the whole. -/
theorem Consistent.port_source_iff (h : net.Consistent) (found : net.parts[n]? = some p) {id : GateId}
    (home : net.partOf? id = some n) : Link.port id ∈ p.sources ↔ Link.port id ∈ net.top.sources := by
  rw [(h.parts n p found).bounds.sources, h.top.bounds.sources, Enters, Enters, onBoundary_port, onBoundary_port]
  refine exists_congr fun g => and_congr_right fun known => and_congr_left fun _ => ?_
  rw [inPart_iff, contains_iff]
  exact ⟨fun _ => ⟨g, known⟩, fun _ => home⟩

/-- A port on the boundary of some gates is on that of all. -/
theorem onBoundary_contains {member : GateId → Bool} {kind : Shape → Bool} {crosses crosses' : Link → Bool} {l : Link}
    (on : OnBoundary net.gate? member kind crosses l) (isPort : l.isPort = true) :
    OnBoundary net.gate? net.contains kind crosses' l := by
  rcases on with ⟨g, known, _, isKind, port⟩ | ⟨edge, _⟩
  · exact .inl ⟨g, known, contains_iff.mpr ⟨g, known⟩, isKind, port⟩
  · rw [edge.not_isPort] at isPort
    cases isPort

theorem Consistent.port_enters_top (h : net.Consistent) (found : net.parts[n]? = some p) {l : Link}
    (enters : l ∈ p.sources) (isPort : l.isPort = true) : l ∈ net.top.sources :=
  (h.top.bounds.sources l).mpr (onBoundary_contains (((h.parts n p found).bounds.sources l).mp enters) isPort)

theorem Consistent.port_leaves_top (h : net.Consistent) (found : net.parts[n]? = some p) {l : Link}
    (leaves : l ∈ p.targets) (isPort : l.isPort = true) : l ∈ net.top.targets :=
  (h.top.bounds.targets l).mpr (onBoundary_contains (((h.parts n p found).bounds.targets l).mp leaves) isPort)

theorem Consistent.port_target_iff (h : net.Consistent) (found : net.parts[n]? = some p) {id : GateId}
    (home : net.partOf? id = some n) : Link.port id ∈ p.targets ↔ Link.port id ∈ net.top.targets := by
  rw [(h.parts n p found).bounds.targets, h.top.bounds.targets, Leaves, Leaves, onBoundary_port, onBoundary_port]
  refine exists_congr fun g => and_congr_right fun known => and_congr_left fun _ => ?_
  rw [inPart_iff, contains_iff]
  exact ⟨fun _ => ⟨g, known⟩, fun _ => home⟩

end Netlist

/-- Without triggers a clocked netlist is a circuit. -/
theorem Netlist.Clocked.circuit {net : Netlist} (h : net.Clocked) (comb : net.isCombinational = true) :
    net.view.Circuit := by
  refine ⟨⟨⟨h.reachable, .inl rfl⟩, fun id mem g found => ?_⟩, h.acyclic⟩
  refine (h.gates id g found).resolve_right fun memory => ?_
  exact TreeSet.not_mem_of_isEmpty comb (h.mem_triggers.mpr ⟨g, found, memory.2⟩)

theorem View.Stateless.not_mem_triggers {v : View} (h : v.Stateless) {id : GateId} : id ∉ v.part.triggers := by
  intro mem
  obtain ⟨inside, g, found, trigger⟩ := (h.ofReachable.coherent.covers.accounts.triggers id).mp mem
  rw [(h.logic id inside g found).2] at trigger
  cases trigger

theorem View.Stateless.isCombinational {v : View} (h : v.Stateless) : v.part.isCombinational = true :=
  TreeSet.isEmpty_iff_forall_not_mem.mpr fun _ => h.not_mem_triggers

theorem View.Stateless.timed {v : View} (h : v.Stateless) : v.Timed := by
  intro id mem g found triggered
  rw [GateFn.isTriggered_of_isLogic (h.logic id mem g found).1] at triggered
  cases triggered

/-! ## Fitting parts together -/

/-- Valuations that agree along the links that enter agree along those that leave. -/
def Matches (f : GateId → GateId) (v w : View) : Prop :=
  ∀ vl vr, v.Valuation vl → w.Valuation vr → (∀ l ∈ v.part.sources, vl l.source = vr (f l.source)) →
    ∀ l ∈ v.part.targets, vl l.source = vr (f l.source)

theorem forces_iff_matches {f : GateId → GateId} {v w : View} {sources targets : Binding}
    (hs : Carries f sources (· ∈ v.part.sources)) (ht : Carries f targets (· ∈ v.part.targets)) :
    Checker.Forces v.Valuation w.Valuation (driverPairs sources) (driverPairs targets) ↔ Matches f v w := by
  simp only [Checker.Forces, hs.together_iff, ht.together_iff]
  rfl

/-- Every left part matches some right part, so the left netlist matches the right one. -/
theorem matches_of_parts {left right : Netlist} (clocked : left.Clocked) (circuit : left.view.Circuit)
    (full : left.hasOrphans = false) (consistent : right.Consistent) {f : GateId → GateId}
    (each : ∀ (n : Nat) p, left.parts[n]? = some p → ∃ (m : Nat) (q : Part), right.parts[m]? = some q ∧
      Matches f ⟨left, p, false⟩ ⟨right, q, false⟩) : Matches f left.view right.view := by
  intro vl vr valLeft valRight agree
  have whole := clocked.reachable.consistent
  have home : ∀ {id g}, left.gate? id = some g → ∃ n p, left.partOf? id = some n ∧ left.parts[n]? = some p := by
    intro id g known
    obtain ⟨n, home⟩ := whole.exists_home full known
    exact ⟨n, _, home, List.getElem?_eq_getElem (whole.homes id n home)⟩
  -- On each left part, the values that the right netlist gives its sources lead to those it gives its targets.
  have local_ : ∀ n : Nat, ∃ val, ∀ p, left.parts[n]? = some p → (⟨left, p, false⟩ : View).Valuation val ∧
      ∀ l, l ∈ p.sources ∨ l ∈ p.targets → val l.source = vr (f l.source) := by
    intro n
    cases found : left.parts[n]? with
    | none => exact ⟨vl, nofun⟩
    | some p =>
      obtain ⟨m, q, foundQ, matches_⟩ := each n p found
      obtain ⟨val, valuation, entering⟩ := (Netlist.circuit_part circuit found).exists_valuation (vr ∘ f)
      have restricted : (⟨right, q, false⟩ : View).Valuation vr := fun id mem =>
        valRight id (consistent.part_subset foundQ mem)
      refine ⟨val, fun p' same => ?_⟩
      obtain rfl := Option.some.inj same
      refine ⟨valuation, fun l side => ?_⟩
      rcases side with enters | leaves
      · exact entering l enters
      · exact matches_ val vr valuation restricted entering l leaves
  choose val fits using local_
  let glued : GateId → Bool := fun id => (left.partOf? id).elim false fun n => val n id
  have glued_eq : ∀ {id n}, left.partOf? id = some n → glued id = val n id := by
    intro id n home
    show (left.partOf? id).elim false (fun n => val n id) = val n id
    rw [home]
    rfl
  have valuation : left.view.Valuation glued := by
    intro id _ g known
    obtain ⟨n, p, here, found⟩ := home known
    obtain ⟨valuation, boundary⟩ := fits n p found
    have same : ∀ s ∈ g.inputs, glued s.driver = val n s.driver := by
      intro s read
      obtain ⟨d, driver⟩ := clocked.driver_inside known read
      obtain ⟨m, q, there, found'⟩ := home driver
      rw [glued_eq there]
      by_cases across : m = n
      · rw [across]
      · obtain ⟨l, source, enters, leaves⟩ := whole.crossing found found' known read here there across
        rw [← source, boundary l (.inl enters), (fits m q found').2 l (.inr leaves)]
    rcases valuation id ((whole.mem_part found).mpr here) g known with free | value
    · exact .inl free
    · refine .inr ?_
      rw [whole.wired.keyed known] at value ⊢
      rw [glued_eq here, value, List.map_congr_left same]
  have given : ∀ id, left.view.Given id → glued id = vl id := by
    intro id given
    obtain ⟨l, enters, rfl⟩ := circuit.given_iff.mp given
    obtain ⟨id, g, rfl, known, _⟩ := clocked.mem_sources.mp enters
    obtain ⟨n, p, here, found⟩ := home known
    calc
      glued id = val n id := glued_eq here
      _ = vr (f id) := (fits n p found).2 (.port id) (.inl ((whole.port_source_iff found here).mpr enters))
      _ = vl id := (agree _ enters).symm
  intro l leaves
  obtain ⟨id, g, rfl, known, _⟩ := clocked.mem_targets leaves
  obtain ⟨n, p, here, found⟩ := home known
  have unique := valuation.unique whole.coherent_view circuit.logical circuit.acyclic valLeft given
  calc
    vl id = glued id := (unique id (whole.mem_view_gates.mpr ⟨g, known⟩)).symm
    _ = val n id := glued_eq here
    _ = vr (f id) := (fits n p found).2 (.port id) (.inr ((whole.port_target_iff found here).mpr leaves))

namespace Checker

variable {c : Checker} {left right : Netlist} {hints : Hints} {sources targets inner : Binding}

/-! ## Reading a check by parts -/

theorem partPair_eq_equal {n m : Nat} :
    (c.partPair left right hints sources targets inner n m).outcome = .ok .equal ↔
      ∃ leftView rightView found bound, left.partView n = .ok leftView ∧ right.partView m = .ok rightView ∧
        partHints hints sources targets inner n leftView = .ok found ∧
        requireBindings leftView rightView found = .ok bound ∧
        (c.flat leftView rightView bound.1 bound.2 found).outcome = .ok .equal := by
  simp only [partPair, Traced.outcome_bind, Traced.outcome_liftM, Result.bind_eq_ok]
  constructor
  · intro made
    obtain ⟨lv, isLeft, rv, isRight, found, hinted, bound, bindings, verdict, flat, noted⟩ := made
    cases verdict with
    | equal => exact ⟨lv, rv, found, bound, isLeft, isRight, hinted, bindings, flat⟩
    | different cex => cases noted
  · intro made
    obtain ⟨lv, rv, found, bound, isLeft, isRight, hinted, bindings, flat⟩ := made
    exact ⟨lv, isLeft, rv, isRight, found, hinted, bound, bindings, .equal, flat, rfl⟩

theorem partPairs_eq_equal {pairs : List (Nat × Nat)} :
    (c.partPairs left right hints sources targets inner pairs).outcome = .ok .equal ↔
      ∀ x ∈ pairs, (c.partPair left right hints sources targets inner x.1 x.2).outcome = .ok .equal := by
  induction pairs with
  | nil => simp [partPairs]
  | cons x pairs ih =>
    rw [List.forall_mem_cons, ← ih]
    simp only [partPairs, Traced.outcome_bind, Result.bind_eq_ok]
    constructor
    · intro made
      obtain ⟨verdict, first, rest⟩ := made
      cases verdict with
      | equal => exact ⟨first, rest⟩
      | different cex => cases rest
    · intro made
      exact ⟨.equal, made⟩

theorem byParts_eq_equal {parts : PartBinding} :
    (c.byParts left right hints sources targets parts).outcome = .ok .equal ↔
      (left.isFlat = false ∧ right.isFlat = false) ∧ left.parts.length = right.parts.length ∧
        left.parts.length = parts.size ∧ ∃ inner, hints.inner = some inner ∧ ∀ x ∈ parts.toList,
          (c.partPair left right hints sources targets inner x.1 x.2).outcome = .ok .equal := by
  simp only [byParts, Traced.outcome_bind, Traced.outcome_require, Result.bind_eq_ok, Result.require_eq_ok,
    Bool.and_eq_true, Bool.not_eq_true', beq_iff_eq, exists_const]
  refine and_congr_right fun _ => and_congr_right fun _ => and_congr_right fun _ => ?_
  cases hints.inner with
  | none => simp
  | some inner =>
    simp only [Traced.outcome_bind, Traced.outcome_note, Result.ok_bind, partPairs_eq_equal, Option.some.injEq,
      exists_eq_left']

theorem outcome_check_parts {bound : Binding × Binding} {parts : PartBinding}
    (bindings : requireBindings left.view right.view hints = .ok bound) (hasParts : hints.parts = some parts)
    (large : c.flatBound < left.size + right.size) :
    (c.check left right hints).outcome = (c.byParts left right hints bound.1 bound.2 parts).outcome := by
  simp only [check, Traced.outcome_bind, Traced.outcome_liftM, bindings, Result.ok_bind, hasParts, if_pos large]

/-- The hints for a part carry its boundary as those for the whole do. -/
theorem carries_partHints {f : GateId → GateId} {n : Nat} {v : View} {found : Hints} {isSource isTarget isInner : Link → Prop}
    (hs : Carries f sources isSource) (ht : Carries f targets isTarget) (hi : Carries f inner isInner)
    (made : partHints hints sources targets inner n v = .ok found) :
    ∃ sources targets, found.sources = some sources ∧ found.targets = some targets ∧
      Carries f sources (· ∈ v.part.sources) ∧ Carries f targets (· ∈ v.part.targets) := by
  obtain ⟨sources', madeSources, made⟩ := Result.bind_eq_ok.mp made
  obtain ⟨targets', madeTargets, made⟩ := Result.bind_eq_ok.mp made
  cases made
  have image : ∀ {whole : Binding} {isWhole : Link → Prop}, Carries f whole isWhole → ∀ {links : List Link},
      ∀ l ∈ links, ∀ r, boundaryImage whole inner n l = .ok r → r.source = f l.source := by
    intro whole _ hw _ l _ r made
    rcases Option.or_eq_some_iff.mp (Result.getOrBreach_eq_ok.mp made) with atWhole | ⟨_, atInner⟩
    · exact hw.drivers atWhole
    · exact hi.drivers atInner
  refine ⟨sources', targets', rfl, rfl, ?_, ?_⟩
  · exact (Hints.carries_of_bind madeSources (image hs)).congr fun _ => TreeSet.mem_toList
  · exact (Hints.carries_of_bind madeTargets (image ht)).congr fun _ => TreeSet.mem_toList

/-! ## From the parts to the whole -/

/-- Circuits that a check found equal match, if no driver is left out where simulation needs it. -/
theorem matches_of_flat {f : GateId → GateId} {v w : View} (sound : c.oracle.Sound) (circuitLeft : v.Circuit)
    (circuitRight : w.Circuit) (hs : Carries f sources (· ∈ v.part.sources))
    (ht : Carries f targets (· ∈ v.part.targets)) (oneToOne : OneToOne (driverPairs sources))
    (covered : (driverPairs sources).length ≤ c.simBound → ∀ r ∈ w.part.sources, ∃ l ∈ v.part.sources,
      f l.source = r.source)
    (equal : (c.flat v w sources targets hints).outcome = .ok .equal) : Matches f v w := by
  rw [outcome_flat_combinational circuitLeft.isCombinational circuitRight.isCombinational] at equal
  rw [← forces_iff_matches hs ht]
  have coherentLeft := circuitLeft.ofReachable.coherent
  have coherentRight := circuitRight.ofReachable.coherent
  apply forces_of_combinational sound coherentLeft coherentRight _ equal
  intro few
  have determinedLeft : v.Determined ((driverPairs sources).map Prod.fst) :=
    (simulable_of_enumerates circuitLeft ⟨oneToOne.nodup.1, fun _ => hs.mem_left⟩).determined
  have determinedRight : w.Determined ((driverPairs sources).map Prod.snd) := by
    refine ⟨coherentRight, circuitRight.logical.interpreted, circuitRight.acyclic, oneToOne.nodup.2, fun id isOpen => ?_⟩
    rcases coherentRight.open_iff.mp isOpen with ⟨r, mem, rfl⟩ | trigger
    · exact hs.mem_right.mpr (covered few r mem)
    · exact absurd trigger circuitRight.not_mem_triggers
  exact ⟨⟨determinedLeft, determinedRight⟩, circuitLeft.timed, circuitRight.timed⟩

/-- Parts numbered below a count, and as many: all of them. -/
theorem mem_of_size {parts : PartBinding} {count : Nat} (below : ∀ n ∈ parts, n < count)
    (size : count = parts.size) {n : Nat} (lt : n < count) : n ∈ parts := by
  have inside : ∀ k ∈ parts.keys, k ∈ List.range count := fun k mem =>
    List.mem_range.mpr (below k (TreeMap.mem_keys.mp mem))
  have perm := (List.Nodup.subperm (nodup_keys parts) inside).perm_of_length_le (by simp [size])
  exact TreeMap.mem_keys.mp (perm.mem_iff.mpr (List.mem_range.mpr lt))

/-- Every link that enters a right part is the image of one that enters the left part bound to it. -/
def SourcesBound (left right : Netlist) (map : GateMap) (parts : PartBinding) : Prop :=
  ∀ (n m : Nat) (p q : Part), parts[n]? = some m → left.parts[n]? = some p → right.parts[m]? = some q →
    ∀ r ∈ q.sources, ∃ l ∈ p.sources, l.rename map.image = r

/-- A left part was found equal to the right part it is bound to. -/
structure PartFound (c : Checker) (left right : Netlist) (f : GateId → GateId) (parts : PartBinding) (n : Nat)
    (p : Part) (m : Nat) (q : Part) (sources targets : Binding) (hints : Hints) : Prop where
  bound : parts[n]? = some m
  counterpart : right.parts[m]? = some q
  entering : Carries f sources (· ∈ p.sources)
  leaving : Carries f targets (· ∈ p.targets)
  size : p.sources.size = q.sources.size
  equal : (c.flat ⟨left, p, false⟩ ⟨right, q, false⟩ sources targets hints).outcome = .ok .equal

theorem found_of_byParts {f : GateId → GateId} {bound : PartBinding × Binding} {isSource isTarget isInner : Link → Prop}
    (hs : Carries f sources isSource) (ht : Carries f targets isTarget) (hi : Carries f bound.2 isInner)
    (below : ∀ n ∈ bound.1, n < left.parts.length) (hasInner : hints.inner = some bound.2)
    (equal : (c.byParts left right hints sources targets bound.1).outcome = .ok .equal) {n : Nat} {p : Part}
    (found : left.parts[n]? = some p) : ∃ m q sources targets hints,
      PartFound c left right f bound.1 n p m q sources targets hints := by
  obtain ⟨_, _, size, inner, hasInner', each⟩ := byParts_eq_equal.mp equal
  obtain rfl : inner = bound.2 := Option.some.inj (hasInner'.symm.trans hasInner)
  have mem := mem_of_size below size (List.getElem?_eq_some_iff.mp found).1
  obtain ⟨m, isBound⟩ := Option.isSome_iff_exists.mp (TreeMap.mem_iff_isSome_getElem?.mp mem)
  obtain ⟨lv, rv, partHints, both, isLeft, isRight, made, bindings, flat⟩ := partPair_eq_equal.mp
    (each (n, m) (TreeMap.mem_toList_iff_getElem?_eq_some.mpr isBound))
  obtain ⟨p', foundLeft, rfl⟩ := Netlist.partView_eq_ok.mp isLeft
  obtain ⟨q, foundRight, rfl⟩ := Netlist.partView_eq_ok.mp isRight
  obtain rfl : p = p' := Option.some.inj (found.symm.trans foundLeft)
  obtain ⟨sources', targets', hasSources, hasTargets, carries, carries'⟩ := carries_partHints hs ht hi made
  obtain ⟨isSources, isTargets, counts, _⟩ := requireBindings_eq_ok.mp bindings
  obtain rfl : sources' = both.1 := Option.some.inj (hasSources.symm.trans isSources)
  obtain rfl : targets' = both.2 := Option.some.inj (hasTargets.symm.trans isTargets)
  exact ⟨m, q, both.1, both.2, partHints, isBound, foundRight, carries, carries', counts, flat⟩

/-- Circuits that match are found equal, if simulation is given the images of all sources. -/
theorem flat_of_matches {map : GateMap} (correct : c.oracle.Correct) (clocked : left.Clocked)
    (circuitLeft : left.view.Circuit) (circuitRight : right.view.Circuit) (pairs : map.Pairs left right)
    (inRange : ∀ q, pairQuery left.view right.view sources targets = .ok q → q.formula.size ≤ Lit.largestVar + 1)
    (hs : Carries map.image sources (· ∈ left.top.sources)) (ht : Carries map.image targets (· ∈ left.top.targets))
    (size : left.top.sources.size = right.top.sources.size) (room : c.simBound ≤ 64)
    (into : (driverPairs sources).length ≤ c.simBound → ∀ l ∈ left.top.sources, l.rename map.image ∈ right.top.sources)
    (matches_ : Matches map.image left.view right.view) :
    (c.flat left.view right.view sources targets hints).outcome = .ok .equal := by
  have coherentLeft := circuitLeft.ofReachable.coherent
  have coherentRight := circuitRight.ofReachable.coherent
  obtain ⟨leftOrder, orderedLeft⟩ := coherentLeft.exists_orderedGates circuitLeft.acyclic
  obtain ⟨rightOrder, orderedRight⟩ := coherentRight.exists_orderedGates circuitRight.acyclic
  obtain ⟨q, encoded⟩ : ∃ q, pairQuery left.view right.view sources targets = .ok q :=
    exists_pairQuery circuitLeft.toStateless circuitRight.toStateless orderedLeft orderedRight
  have injective : ∀ l ∈ left.top.sources, ∀ l' ∈ left.top.sources,
      map.image l.source = map.image l'.source → l = l' := by
    intro l mem l' mem' same
    obtain ⟨a, g, rfl, known, _⟩ := clocked.mem_sources.mp mem
    obtain ⟨b, g', rfl, known', _⟩ := clocked.mem_sources.mp mem'
    exact congrArg Link.port (pairs.image_inj known known' same)
  have oneToOne := hs.oneToOne fun l l' mem mem' same => congrArg Link.source (injective l mem l' mem' same)
  have simulable : (driverPairs sources).length ≤ c.simBound →
      left.view.Simulable ((driverPairs sources).map Prod.fst) ∧
        right.view.Simulable ((driverPairs sources).map Prod.snd) := by
    intro few
    have onto := covered_of_image_mem size
      (fun l mem l' mem' same => injective l mem l' mem' (congrArg Link.source same)) (into few)
    refine ⟨simulable_of_enumerates circuitLeft ⟨oneToOne.nodup.1, fun _ => hs.mem_left⟩,
      simulable_of_enumerates circuitRight ⟨oneToOne.nodup.2, fun id => hs.mem_right.trans ⟨?_, ?_⟩⟩⟩
    · intro image
      obtain ⟨l, mem, rfl⟩ := image
      exact ⟨_, into few l mem, rfl⟩
    · intro source
      obtain ⟨r, entering, rfl⟩ := source
      obtain ⟨l, mem, rfl⟩ := onto r entering
      exact ⟨l, mem, rfl⟩
  have inside : ∀ x ∈ driverPairs targets, x.1 ∈ left.view.part.gates ∧ x.2 ∈ right.view.part.gates := by
    intro x mem
    obtain ⟨l, leaves, rfl⟩ := ht.mem_driverPairs.mp mem
    obtain ⟨id, g, rfl, known, _⟩ := clocked.mem_targets leaves
    exact ⟨clocked.mem_gates.mpr ⟨g, known⟩,
      circuitRight.ofReachable.1.consistent.mem_view_gates.mpr (pairs.image_known known)⟩
  rw [outcome_flat_combinational circuitLeft.isCombinational circuitRight.isCombinational]
  obtain ⟨verdict, made, iff⟩ :=
    combinational_verdict correct coherentLeft coherentRight encoded (inRange q encoded) simulable inside room
  rw [made, Verdict.isEqual_iff.mp (iff.mpr ((forces_iff_matches hs ht).mpr matches_))]

/-- Parts found equal match. -/
theorem PartFound.matches {map : GateMap} {parts : PartBinding} {n m : Nat} {p q : Part}
    (h : PartFound c left right map.image parts n p m q sources targets hints) (sound : c.oracle.Sound)
    (clocked : left.Clocked) (circuitLeft : left.view.Circuit) (circuitRight : right.view.Circuit)
    (pairs : map.Pairs left right) (found : left.parts[n]? = some p)
    (bound : c.simBound = 0 ∨ SourcesBound left right map parts) :
    Matches map.image ⟨left, p, false⟩ ⟨right, q, false⟩ := by
  have whole := clocked.reachable.consistent
  have known : ∀ l ∈ p.sources, ∃ g, left.gate? l.source = some g := by
    intro l enters
    rcases ((whole.parts n p found).bounds.sources l).mp enters with ⟨g, known, _⟩ | ⟨⟨g, reader, link⟩, _⟩
    · exact ⟨g, known⟩
    · obtain ⟨i, s, read, edge⟩ := Shape.mem_inputLinks.mp link
      rw [edge]
      exact clocked.driver_inside reader (List.mem_of_getElem? read)
  refine matches_of_flat sound (Netlist.circuit_part circuitLeft found) (Netlist.circuit_part circuitRight h.counterpart)
    h.entering h.leaving (h.entering.oneToOne fun l l' mem mem' same => ?_) (fun few r mem => ?_) h.equal
  · obtain ⟨g, isGate⟩ := known l mem
    obtain ⟨g', isGate'⟩ := known l' mem'
    exact pairs.image_inj isGate isGate' same
  · rcases bound with zero | bound
    · have some : 0 < q.sources.toList.length := List.length_pos_of_mem (TreeSet.mem_toList.mpr mem)
      rw [TreeSet.length_toList, ← h.size, ← TreeSet.length_toList] at some
      obtain ⟨l, enters⟩ := List.exists_mem_of_length_pos some
      have := h.entering.length_pos (TreeSet.mem_toList.mp enters)
      omega
    · obtain ⟨l, enters, rfl⟩ := bound n m p q h.bound found h.counterpart r mem
      exact ⟨l, enters, rfl⟩

/-- PARTS THAT ARE EQUAL MAKE EQUAL NETLISTS: circuits that a check by parts finds equal under a correspondence of
their gates, the check of the whole finds equal too, if nothing is simulated or all links that enter a right part
are bound. The query about the whole is larger than those about parts, and its variables need literals too. -/
theorem check_of_parts {map : GateMap} (correct : c.oracle.Correct) (clockedLeft : left.Clocked)
    (clockedRight : right.Clocked) (combLeft : left.isCombinational = true) (combRight : right.isCombinational = true)
    (wellFormed : left.isWellFormed = true) (pairs : map.Pairs left right)
    (derived : Hints.ofMap left right map = .ok hints)
    (inRange : ∀ sources targets q, hints.sources = some sources → hints.targets = some targets →
      pairQuery left.view right.view sources targets = .ok q → q.formula.size ≤ Lit.largestVar + 1)
    (room : c.simBound ≤ 64)
    (bound : c.simBound = 0 ∨ ∀ parts, hints.parts = some parts → SourcesBound left right map parts)
    (equal : ({ c with flatBound := 0 }.check left right hints).outcome = .ok .equal) {size : Nat}
    (large : left.size + right.size ≤ size) :
    ({ c with flatBound := size }.check left right hints).outcome = .ok .equal := by
  have circuitLeft := clockedLeft.circuit combLeft
  have circuitRight := clockedRight.circuit combRight
  have whole := clockedLeft.reachable.consistent
  obtain ⟨sources, targets, triggers, follows⟩ := Hints.follows_of_ofMap derived
  obtain ⟨both, bindings⟩ := bindings_of_check equal
  obtain ⟨isSources, isTargets, count, _⟩ := requireBindings_eq_ok.mp bindings
  obtain rfl : sources = both.1 := Option.some.inj (follows.hasSources.symm.trans isSources)
  obtain rfl : targets = both.2 := Option.some.inj (follows.hasTargets.symm.trans isTargets)
  rw [outcome_check_flat bindings (.inr large)]
  show (c.flat left.view right.view both.1 both.2 hints).outcome = .ok .equal
  by_cases flat : hints.parts = none ∨ left.size + right.size ≤ 0
  · rw [outcome_check_flat bindings flat] at equal
    exact equal
  obtain ⟨divided, gates⟩ := not_or.mp flat
  rcases follows.parts with undivided | ⟨parts, hasParts, hasInner, binds⟩
  · exact absurd undivided divided
  rw [outcome_check_parts bindings hasParts (Nat.lt_of_not_le gates)] at equal
  have bound := bound.imp_right fun all => all parts.1 hasParts
  have full : left.hasOrphans = false := by
    obtain ⟨⟨notFlat, _⟩, _⟩ := byParts_eq_equal.mp equal
    simp only [Netlist.isWellFormed, notFlat, Bool.false_or, Bool.and_eq_true, Bool.not_eq_true'] at wellFormed
    exact wellFormed.1
  have found := fun {n p} => @found_of_byParts { c with flatBound := 0 } left right hints both.1 both.2 map.image parts
    _ _ _ follows.sources follows.targets binds.carries binds.below hasInner equal n p
  refine flat_of_matches correct clockedLeft circuitLeft circuitRight pairs
    (fun q => inRange both.1 both.2 q isSources isTargets) follows.sources follows.targets count room
    (fun few l enters => ?_) (matches_of_parts clockedLeft circuitLeft full clockedRight.reachable.consistent ?_)
  · rcases bound with zero | bound
    · have := follows.sources.length_pos enters
      omega
    · obtain ⟨id, g, rfl, known, _⟩ := clockedLeft.mem_sources.mp enters
      obtain ⟨n, home⟩ := whole.exists_home full known
      obtain ⟨p, here⟩ : ∃ p, left.parts[n]? = some p := ⟨_, List.getElem?_eq_getElem (whole.homes id n home)⟩
      obtain ⟨m, q, _, _, _, part⟩ := found here
      have image := image_mem_of_covered part.size (bound n m p q part.bound here part.counterpart) (.port id)
        ((whole.port_source_iff here home).mpr enters)
      exact clockedRight.reachable.consistent.port_enters_top part.counterpart image rfl
  · intro n p here
    obtain ⟨m, q, _, _, _, part⟩ := found here
    exact ⟨m, q, part.counterpart,
      part.matches correct.sound clockedLeft circuitLeft circuitRight pairs here bound⟩

section Samples

/-- Gates of these shapes, and parts with the gates of these numbers. -/
def dividedRun (shapes : List Shape) (parts : List (List Nat)) : Result Netlist :=
  parts.foldlM (fun net ids => ids.foldlM (fun net' id => net'.moveGate ⟨id⟩ (some net.addPart.1)) net.addPart.2)
    (.made shapes)

/-- The netlist that the run makes, if it returns. -/
def divided (shapes : List Shape) (parts : List (List Nat)) : Netlist :=
  (dividedRun shapes parts).toOption.getD .empty

theorem reachable_dividedRun {shapes : List Shape} {parts : List (List Nat)} {net : Netlist}
    (run : dividedRun shapes parts = .ok net) : net.Reachable := by
  refine Result.foldlM_induction Netlist.Reachable parts run (Netlist.reachable_made shapes) ?_
  intro before ids after _ reachable step
  refine Result.foldlM_induction Netlist.Reachable ids step reachable.addPart ?_
  intro _ id _ _ reachable moved
  exact .moveGate _ _ reachable moved

theorem reachable_divided (shapes : List Shape) (parts : List (List Nat)) : (divided shapes parts).Reachable := by
  unfold divided
  cases run : dividedRun shapes parts with
  | error e => exact .empty
  | ok net => exact reachable_dividedRun run

/-- A correspondence that lists the gates of both sides. -/
theorem pairs_of_lists {map : GateMap} (keys : map.keys.Perm left.table.keys)
    (values : (map.toList.map Prod.snd).Perm right.table.keys) : map.Pairs left right where
  keys id := by
    rw [← TreeMap.mem_keys, keys.mem_iff, TreeMap.mem_keys, TreeMap.mem_iff_isSome_getElem?, Option.isSome_iff_exists]
    rfl
  values id' := by
    have known : id' ∈ right.table.keys ↔ ∃ g, right.gate? id' = some g := by
      rw [TreeMap.mem_keys, TreeMap.mem_iff_isSome_getElem?, Option.isSome_iff_exists]
      rfl
    rw [← known, ← values.mem_iff, List.mem_map]
    constructor
    · intro mapped
      obtain ⟨id, found⟩ := mapped
      exact ⟨(id, id'), TreeMap.mem_toList_iff_getElem?_eq_some.mpr found, rfl⟩
    · intro listed
      obtain ⟨⟨id, _⟩, mem, rfl⟩ := listed
      exact ⟨id, TreeMap.mem_toList_iff_getElem?_eq_some.mp mem⟩
  injective := by
    intro a b id' foundA foundB
    have nodup := values.nodup_iff.mpr (nodup_keys right.table)
    have same := List.inj_on_of_nodup_map nodup (TreeMap.mem_toList_iff_getElem?_eq_some.mpr foundA)
      (TreeMap.mem_toList_iff_getElem?_eq_some.mpr foundB) rfl
    exact congrArg Prod.fst same

/-- A test for `SourcesBound`. -/
def areSourcesBound (left right : Netlist) (map : GateMap) (parts : PartBinding) : Bool :=
  parts.toList.all fun x => left.parts[x.1]?.all fun p => right.parts[x.2]?.all fun q =>
    q.sources.toList.all fun r => p.sources.toList.any fun l => l.rename map.image == r

theorem sourcesBound_of_test {map : GateMap} {parts : PartBinding}
    (all : areSourcesBound left right map parts = true) : SourcesBound left right map parts := by
  intro n m p q bound foundLeft foundRight r mem
  have := List.all_eq_true.mp all (n, m) (TreeMap.mem_toList_iff_getElem?_eq_some.mpr bound)
  simp only [foundLeft, foundRight, Option.all_some] at this
  have := List.all_eq_true.mp this r (TreeSet.mem_toList.mpr mem)
  obtain ⟨l, inside, same⟩ := List.any_eq_true.mp this
  exact ⟨l, TreeSet.mem_toList.mp inside, eq_of_beq same⟩

/-- Every gate corresponds to the one of its number. -/
def sameNumbers (count : Nat) : GateMap := TreeMap.ofList ((List.range count).map fun i => (GateId.mk i, GateId.mk i))

/-- A parity by its negation. One part lies on a path that leaves the other part and returns to it. -/
def negatedTwice : Netlist := divided [⟨.input, []⟩, ⟨.input, []⟩, .nary .and [⟨0⟩, ⟨1⟩], .nary .not [⟨2⟩],
  .nary .xnor [⟨3⟩, ⟨0⟩], .nary .not [⟨4⟩], .nary .output [⟨5⟩]] [[0, 1, 2, 4, 5, 6], [3]]

/-- A parity and a buffer, divided alike. -/
def buffered : Netlist := divided [⟨.input, []⟩, ⟨.input, []⟩, .nary .and [⟨1⟩, ⟨0⟩], .nary .not [⟨2⟩],
  .nary .xor [⟨3⟩, ⟨0⟩], .nary .buffer [⟨4⟩], .nary .output [⟨5⟩]] [[0, 1, 2, 4, 5, 6], [3]]

theorem negatedTwice_equals_buffered : ∃ hints, Hints.ofMap negatedTwice buffered (sameNumbers 7) = .ok hints ∧
    (Checker.check { oracle := trying, flatBound := 0 } negatedTwice buffered hints).outcome = .ok .equal ∧
    (Checker.check { oracle := trying, flatBound := 14 } negatedTwice buffered hints).outcome = .ok .equal := by
  obtain ⟨hints, derived⟩ := Result.exists_ok
    (by decide +kernel : (Hints.ofMap negatedTwice buffered (sameNumbers 7)).isOk = true)
  have equal : (Hints.ofMap negatedTwice buffered (sameNumbers 7) >>= fun hints =>
      (Checker.check { oracle := trying, flatBound := 0 } negatedTwice buffered hints).outcome) = .ok .equal := by
    decide +kernel
  have bound : (Hints.ofMap negatedTwice buffered (sameNumbers 7)).toOption.all (fun hints =>
      hints.parts.all (areSourcesBound negatedTwice buffered (sameNumbers 7))) = true := by
    decide +kernel
  have small : (Hints.ofMap negatedTwice buffered (sameNumbers 7)).toOption.all (fun hints =>
      hints.sources.all fun sources => hints.targets.all fun targets =>
        (pairQuery negatedTwice.view buffered.view sources targets).toOption.all fun q =>
          q.formula.size ≤ Lit.largestVar + 1) = true := by
    decide +kernel
  rw [derived] at equal bound small
  refine ⟨hints, derived, equal, ?_⟩
  have inRange : ∀ sources targets q, hints.sources = some sources → hints.targets = some targets →
      pairQuery negatedTwice.view buffered.view sources targets = .ok q → q.formula.size ≤ Lit.largestVar + 1 := by
    intro sources targets q hasSources hasTargets
    change hints.sources.all _ = true at small
    rw [hasSources, Option.all_some, hasTargets, Option.all_some] at small
    exact Result.forall_of_all small q
  refine check_of_parts (c := { oracle := trying }) trying_correct
    (clocked_of_isClockwork (reachable_divided _ _) (by decide +kernel))
    (clocked_of_isClockwork (reachable_divided _ _) (by decide +kernel)) (by decide +kernel) (by decide +kernel)
    (by decide +kernel) (pairs_of_lists (by decide +kernel) (by decide +kernel)) derived inRange (by decide)
    (.inr fun parts hasParts => sourcesBound_of_test ?_) equal (by decide +kernel)
  change hints.parts.all _ = true at bound
  rw [hasParts] at bound
  exact bound

/-- Nothing, by a parity of an input with itself. -/
def parityWithItself : Netlist := divided [⟨.input, []⟩, ⟨.input, []⟩, .nary .xor [⟨0⟩, ⟨0⟩], .nary .output [⟨2⟩]]
  [[0, 1], [2, 3]]

/-- The other input. -/
def otherInput : Netlist := divided [⟨.input, []⟩, ⟨.input, []⟩, .nary .and [⟨1⟩, ⟨1⟩], .nary .output [⟨2⟩]]
  [[0, 1], [2, 3]]

/-- The second part on the right reads an input that is bound to nothing there. Simulation holds it at zero, so part
by part the netlists are found equal; as a whole they are found different. -/
theorem parts_hide_difference : Oracle.Decides trying ∧ parityWithItself.Clocked ∧ otherInput.Clocked ∧
    (parityWithItself.isCombinational = true ∧ otherInput.isCombinational = true) ∧
    (parityWithItself.isWellFormed = true ∧ otherInput.isWellFormed = true) ∧
    parityWithItself.parts.length = otherInput.parts.length ∧ (sameNumbers 4).Pairs parityWithItself otherInput ∧
    ∃ hints, Hints.ofMap parityWithItself otherInput (sameNumbers 4) = .ok hints ∧
      (Checker.check { oracle := trying, flatBound := 0 } parityWithItself otherInput hints).outcome = .ok .equal ∧
      (Checker.check { oracle := trying, flatBound := 8 } parityWithItself otherInput hints).outcome.map Verdict.isEqual =
        .ok false := by
  refine ⟨trying_decides, clocked_of_isClockwork (reachable_divided _ _) (by decide +kernel),
    clocked_of_isClockwork (reachable_divided _ _) (by decide +kernel), by decide +kernel, by decide +kernel,
    by decide +kernel, pairs_of_lists (by decide +kernel) (by decide +kernel), ?_⟩
  obtain ⟨hints, derived⟩ := Result.exists_ok
    (by decide +kernel : (Hints.ofMap parityWithItself otherInput (sameNumbers 4)).isOk = true)
  have parts : (Hints.ofMap parityWithItself otherInput (sameNumbers 4) >>= fun hints =>
      (Checker.check { oracle := trying, flatBound := 0 } parityWithItself otherInput hints).outcome) = .ok .equal := by
    decide +kernel
  have whole : (Hints.ofMap parityWithItself otherInput (sameNumbers 4) >>= fun hints =>
      (Checker.check { oracle := trying, flatBound := 8 } parityWithItself otherInput hints).outcome.map
        Verdict.isEqual) = .ok false := by
    decide +kernel
  rw [derived] at parts whole
  exact ⟨hints, derived, parts, whole⟩

end Samples

end Checker

end LogicNet
