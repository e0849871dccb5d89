import Mathlib.Tactic.Choose
import LogicNet.Equivalence.Checker
import LogicNet.Proofs.Simulation.Cutting

/-!
# Comparing on all patterns

Two views agree when under every assignment of the pairs of bound sources they give each pair of bound
targets the same value. The check by simulation decides this: all assignments are among the
patterns, and a lane in which two words differ is an assignment under which the views do.

The number of assignments has to fit: the lists of more than sixty-four inputs cannot be addressed,
and then the check is a breach (`bySimulation_outgrown`).
-/

namespace LogicNet

theorem Verdict.isEqual_iff {verdict : Verdict} : verdict.isEqual = true ↔ verdict = .equal := by
  cases verdict <;> simp [Verdict.isEqual]

namespace Checker

/-! ## Patterns -/

theorem laneCount_eq (n : Nat) : laneCount n = 2 ^ min n 6 := by
  unfold laneCount
  split
  · next many =>
    rw [Nat.min_eq_right many]
    rfl
  · next few => rw [Nat.one_shiftLeft, Nat.min_eq_left (by omega)]

theorem laneCount_le (n : Nat) : laneCount n ≤ 64 := by
  rw [laneCount_eq]
  exact Nat.pow_le_pow_right (n := 2) (by omega) (Nat.min_le_right n 6)

/-- The rows of input words, one for each word number. -/
def patternRows (n : Nat) : List (List Word) :=
  (List.range (wordCount n)).map fun w => (List.range n).map (patternWord w)

/-- The rows of at most sixty-four inputs can be addressed. -/
theorem rows_fit_iff {n : Nat} : wordCount n * rowBytes < 1 <<< 63 ↔ n ≤ 64 := by
  rw [wordCount_eq, Nat.one_shiftLeft, rowBytes]
  constructor
  · intro small
    by_contra large
    have : 2 ^ 59 ≤ 2 ^ (n - 6) := Nat.pow_le_pow_right (n := 2) (by omega) (by omega)
    omega
  · intro le
    have : 2 ^ (n - 6) ≤ 2 ^ 58 := Nat.pow_le_pow_right (n := 2) (by omega) (by omega)
    omega

/-- There is room for the patterns of at most sixty-four inputs. -/
theorem exhaustivePatterns_eq_ok {n : Nat} {patterns : List (List Word)} :
    exhaustivePatterns n = .ok patterns ↔ n ≤ 64 ∧ patterns = patternRows n := by
  unfold exhaustivePatterns Result.requireRoom
  rw [Result.bind_eq_ok]
  constructor
  · rintro ⟨_, _, rest⟩
    obtain ⟨_, fits, rest⟩ := Result.bind_eq_ok.mp rest
    cases rest
    exact ⟨rows_fit_iff.mp (by simpa using fits), rfl⟩
  · rintro ⟨le, rfl⟩
    refine ⟨(), Result.require_eq_ok.mpr (by simp; omega), ?_⟩
    exact Result.bind_eq_ok.mpr ⟨(), Result.require_eq_ok.mpr (decide_eq_true (rows_fit_iff.mpr le)), rfl⟩

/-- From there on the rows can be counted, but not addressed. -/
theorem exhaustivePatterns_outgrown {n : Nat} (large : 64 < n) (countable : n < 70) :
    exhaustivePatterns n = .error (.breach .capacity) := by
  have counted : Result.require (n < 70) .overflow = .ok () := Result.require_eq_ok.mpr (decide_eq_true countable)
  have unfit : ¬wordCount n * rowBytes < 1 <<< 63 := fun fits => absurd (rows_fit_iff.mp fits) (by omega)
  unfold exhaustivePatterns Result.requireRoom
  rw [counted, Result.ok_bind, decide_eq_false unfit]
  rfl

/-- Every assignment is a lane of some row. -/
theorem exists_row (n : Nat) {bits : List Bool} (length : bits.length = n) :
    ∃ words ∈ patternRows n, words.length = n ∧ ∃ p < laneCount n, words.map (lane · p) = bits := by
  obtain ⟨w, hw, p, hp, values⟩ := exists_pattern n fun i => bits.getD i false
  refine ⟨(List.range n).map (patternWord w), List.mem_map.mpr ⟨w, List.mem_range.mpr hw, rfl⟩, by simp, p,
    by rwa [laneCount_eq], ?_⟩
  refine List.ext_getElem (by simp [length]) fun i h₁ h₂ => ?_
  have lt : i < n := by simpa using h₁
  simp [values i lt, h₂]

/-! ## Differences -/

theorem differingLane_eq_none {lanes : Nat} {l r : List Word} :
    differingLane lanes l r = none ↔ ∀ p < lanes, ∀ x ∈ l.zip r, lane x.1 p = lane x.2 p := by
  simp [differingLane]

theorem differingLane_eq_some {lanes p : Nat} {l r : List Word} (found : differingLane lanes l r = some p) :
    p < lanes ∧ ∃ x ∈ l.zip r, lane x.1 p ≠ lane x.2 p := by
  have inside := List.mem_range.mp (List.mem_of_find?_eq_some found)
  have differs := List.find?_some found
  refine ⟨inside, ?_⟩
  simpa using differs

/-- The search stops at the first row with a difference and reports its lane. -/
theorem findDifference_spec {leftSim rightSim : Simulator} {lanes : Nat} {l r : List Word → List Word}
    {rows : List (List Word)} (runLeft : ∀ words ∈ rows, leftSim.runOnce words = .ok (l words))
    (runRight : ∀ words ∈ rows, rightSim.runOnce words = .ok (r words)) {left right : Simulation}
    (usedLeft : leftSim.Used left) (usedRight : rightSim.Used right) :
    (findDifference left right lanes rows = .ok none ∧
        ∀ words ∈ rows, differingLane lanes (l words) (r words) = none) ∨
      ∃ words ∈ rows, ∃ p, differingLane lanes (l words) (r words) = some p ∧
        findDifference left right lanes rows = .ok (some {
          inputs := words.map fun w => (lane w p, lane w p)
          outputs := ((l words).zip (r words)).map fun x => (lane x.1 p, lane x.2 p)
          dimacs := none }) := by
  induction rows generalizing left right with
  | nil => exact .inl ⟨rfl, by simp⟩
  | cons words rows ih =>
    rw [List.forall_mem_cons] at runLeft runRight
    obtain ⟨left', ranLeft, usedLeft'⟩ := usedLeft.exists_runOnce runLeft.1
    obtain ⟨right', ranRight, usedRight'⟩ := usedRight.exists_runOnce runRight.1
    simp only [findDifference, ranLeft, ranRight, Result.ok_bind]
    cases found : differingLane lanes (l words) (r words) with
    | some p => exact .inr ⟨words, List.mem_cons_self, p, found, rfl⟩
    | none =>
      rcases ih runLeft.2 runRight.2 usedLeft' usedRight' with ⟨none, all⟩ | ⟨other, mem, p, found, result⟩
      · exact .inl ⟨none, List.forall_mem_cons.mpr ⟨by assumption, all⟩⟩
      · exact .inr ⟨other, List.mem_cons_of_mem _ mem, p, found, result⟩

/-! ## The verdict -/

theorem length_of_mem_patternRows {n : Nat} {words : List Word} (mem : words ∈ patternRows n) :
    words.length = n := by
  obtain ⟨w, _, rfl⟩ := List.mem_map.mp mem
  simp

/-- Values that solve the equations of two views cut at pairs of pins, where each pair has one bit. -/
structure Solved (left right : View) (pins : List (GateId × GateId)) (bits : List Bool) (vl vr : GateId → Bool) :
    Prop where
  left : left.Solves (pins.map Prod.fst) vl
  right : right.Solves (pins.map Prod.snd) vr
  fedLeft : (pins.map Prod.fst).map vl = bits
  fedRight : (pins.map Prod.snd).map vr = bits

/-- A check by simulation that has room returns: either all solutions agree on what is read, or it
reports one that does not. -/
theorem bySimulation_solved {left right : View} {sources targets : Binding}
    (detLeft : left.Determined ((driverPairs sources).map Prod.fst))
    (detRight : right.Determined ((driverPairs sources).map Prod.snd))
    (insideLeft : ∀ id ∈ (driverPairs targets).map Prod.fst,
      id ∈ left.part.gates ∨ id ∈ (driverPairs sources).map Prod.fst)
    (insideRight : ∀ id ∈ (driverPairs targets).map Prod.snd,
      id ∈ right.part.gates ∨ id ∈ (driverPairs sources).map Prod.snd)
    (room : (driverPairs sources).length ≤ 64) :
    ((bySimulation left right sources targets).outcome = .ok .equal ∧
        ∀ bits : List Bool, bits.length = (driverPairs sources).length →
          ∃ vl vr, Solved left right (driverPairs sources) bits vl vr ∧ Together (driverPairs targets) vl vr) ∨
      ∃ bits vl vr, bits.length = (driverPairs sources).length ∧
        Solved left right (driverPairs sources) bits vl vr ∧ (∃ x ∈ driverPairs targets, vl x.1 ≠ vr x.2) ∧
        (bySimulation left right sources targets).outcome = .ok (.different ⟨bits.map fun b => (b, b),
          (driverPairs targets).map fun x => (vl x.1, vr x.2), none⟩) := by
  unfold bySimulation
  generalize driverPairs sources = pins at *
  generalize driverPairs targets = reads at *
  obtain ⟨leftSim, compiledLeft, runLeft⟩ := detLeft.runOnce_spec insideLeft
  obtain ⟨rightSim, compiledRight, runRight⟩ := detRight.runOnce_spec insideRight
  simp only [List.length_map] at runLeft runRight
  choose! envLeft runLeft solvesLeft using runLeft
  choose! envRight runRight solvesRight using runRight
  have solved : ∀ words : List Word, words.length = pins.length → ∀ p < 64,
      Solved left right pins (words.map (lane · p)) (fun id => lane (envLeft words id) p)
        fun id => lane (envRight words id) p := by
    intro words width p lt
    obtain ⟨left, fedLeft⟩ := solvesLeft words width p lt
    obtain ⟨right, fedRight⟩ := solvesRight words width p lt
    exact ⟨left, right, fedLeft, fedRight⟩
  have zipped : ∀ words, ((reads.map Prod.fst).map (envLeft words)).zip ((reads.map Prod.snd).map (envRight words)) =
      reads.map fun x => (envLeft words x.1, envRight words x.2) := by
    intro words
    rw [List.map_map, List.map_map, List.zip_map']
    rfl
  have patterns : exhaustivePatterns pins.length = .ok (patternRows pins.length) :=
    exhaustivePatterns_eq_ok.mpr ⟨room, rfl⟩
  simp only [Traced.outcome_bind, Traced.outcome_note, Traced.outcome_liftM, Result.ok_bind, compiledLeft,
    compiledRight, patterns]
  rcases @findDifference_spec leftSim rightSim (laneCount pins.length) _ _ (patternRows pins.length)
      (fun words mem => runLeft words (length_of_mem_patternRows mem))
      (fun words mem => runRight words (length_of_mem_patternRows mem)) _ _ .start .start
    with ⟨none, all⟩ | ⟨words, mem, p, found, result⟩
  · left
    refine ⟨by rw [none]; rfl, fun bits length => ?_⟩
    obtain ⟨words, mem, width, p, lt, rfl⟩ := exists_row pins.length length
    refine ⟨_, _, solved words width p (Nat.lt_of_lt_of_le lt (laneCount_le _)), fun x read => ?_⟩
    have same := differingLane_eq_none.mp (all words mem) p lt
    rw [zipped] at same
    exact same _ (List.mem_map.mpr ⟨x, read, rfl⟩)
  · right
    have width := length_of_mem_patternRows mem
    obtain ⟨lt, y, differs, ne⟩ := differingLane_eq_some found
    rw [zipped] at differs
    obtain ⟨x, read, rfl⟩ := List.mem_map.mp differs
    refine ⟨words.map (lane · p), _, _, by simpa using width,
      solved words width p (Nat.lt_of_lt_of_le lt (laneCount_le _)), ⟨x, read, ne⟩, ?_⟩
    rw [result, zipped, List.map_map, List.map_map]
    rfl

/-- Values that agree on the pairs `pins` agree on the pairs `reads`. -/
def Forces (Left Right : (GateId → Bool) → Prop) (pins reads : List (GateId × GateId)) : Prop :=
  ∀ vl vr, Left vl → Right vr → Together pins vl vr → Together reads vl vr

theorem Solved.agree {left right : View} {pins : List (GateId × GateId)} {bits : List Bool} {vl vr : GateId → Bool}
    (h : Solved left right pins bits vl vr) : Together pins vl vr := by
  have same := h.fedLeft.trans h.fedRight.symm
  rw [List.map_map, List.map_map] at same
  exact List.map_inj_left.mp same

/-- The verdict by simulation is that the views are equal exactly if the cut equations force it. -/
theorem bySimulation_verdict {left right : View} {sources targets : Binding}
    (detLeft : left.Determined ((driverPairs sources).map Prod.fst))
    (detRight : right.Determined ((driverPairs sources).map Prod.snd))
    (insideLeft : ∀ id ∈ (driverPairs targets).map Prod.fst,
      id ∈ left.part.gates ∨ id ∈ (driverPairs sources).map Prod.fst)
    (insideRight : ∀ id ∈ (driverPairs targets).map Prod.snd,
      id ∈ right.part.gates ∨ id ∈ (driverPairs sources).map Prod.snd)
    (room : (driverPairs sources).length ≤ 64) :
    ∃ verdict, (bySimulation left right sources targets).outcome = .ok verdict ∧
      (verdict.isEqual = true ↔ Forces (left.Solves ((driverPairs sources).map Prod.fst))
        (right.Solves ((driverPairs sources).map Prod.snd)) (driverPairs sources) (driverPairs targets)) := by
  rcases bySimulation_solved detLeft detRight insideLeft insideRight room with
    ⟨equal, all⟩ | ⟨bits, vl, vr, length, solved, ⟨x, read, ne⟩, different⟩
  · refine ⟨_, equal, ⟨fun _ vl vr solvesLeft solvesRight agree x read => ?_, fun _ => rfl⟩⟩
    obtain ⟨vl', vr', solved, same⟩ := all (((driverPairs sources).map Prod.fst).map vl) (by simp)
    have fedLeft : ∀ id ∈ (driverPairs sources).map Prod.fst, vl id = vl' id :=
      List.map_inj_left.mp solved.fedLeft.symm
    have fedRight : ∀ id ∈ (driverPairs sources).map Prod.snd, vr id = vr' id := by
      refine List.forall_mem_map.mpr fun x pin => ?_
      rw [← agree x pin, fedLeft _ (List.mem_map_of_mem pin), solved.agree x pin]
    rw [detLeft.unique solvesLeft solved.left fedLeft (insideLeft _ (List.mem_map_of_mem read)),
      detRight.unique solvesRight solved.right fedRight (insideRight _ (List.mem_map_of_mem read))]
    exact same x read
  · refine ⟨_, different, ⟨nofun, fun forces => ?_⟩⟩
    exact absurd (forces vl vr solved.left solved.right solved.agree x read) ne

/-- Under every assignment of the pairs `pins` the two views give each pair of `reads` one value. -/
def Agree (left right : View) (pins reads : List (GateId × GateId)) : Prop :=
  ∀ bits : List Bool, bits.length = pins.length → ∀ x ∈ reads, ∃ b,
    left.Evaluates ((pins.map Prod.fst).zip bits) x.1 b ∧ right.Evaluates ((pins.map Prod.snd).zip bits) x.2 b

/-- The inputs are one assignment of the pairs `pins`, the outputs are what the two views evaluate to
under it, and some pair of outputs differs. -/
def Exhibits (left right : View) (pins reads : List (GateId × GateId)) (cex : Counterexample) : Prop :=
  ∃ bits : List Bool, bits.length = pins.length ∧ cex.inputs = bits.map (fun b => (b, b)) ∧
    List.Forall₂ (fun x value => left.Evaluates ((pins.map Prod.fst).zip bits) x.1 value.1 ∧
      right.Evaluates ((pins.map Prod.snd).zip bits) x.2 value.2) reads cex.outputs ∧
    ∃ value ∈ cex.outputs, value.1 ≠ value.2

theorem Exhibits.not_agree {left right : View} {pins reads : List (GateId × GateId)} {cex : Counterexample}
    (h : Exhibits left right pins reads cex) : ¬Agree left right pins reads := by
  obtain ⟨bits, length, _, values, value, mem, differ⟩ := h
  intro agree
  obtain ⟨x, inside, evalLeft, evalRight⟩ := exists_of_forall₂ values mem
  obtain ⟨b, sameLeft, sameRight⟩ := agree bits length x inside
  exact differ ((evalLeft.functional sameLeft).trans (evalRight.functional sameRight).symm)

/-- A check by simulation that has room returns, and its verdict is right. -/
theorem bySimulation_cases {left right : View} {sources targets : Binding}
    (simLeft : left.Simulable ((driverPairs sources).map Prod.fst))
    (simRight : right.Simulable ((driverPairs sources).map Prod.snd))
    (inside : ∀ x ∈ driverPairs targets, x.1 ∈ left.part.gates ∧ x.2 ∈ right.part.gates)
    (room : (driverPairs sources).length ≤ 64) :
    ((bySimulation left right sources targets).outcome = .ok .equal ∧
        Agree left right (driverPairs sources) (driverPairs targets)) ∨
      ∃ cex, (bySimulation left right sources targets).outcome = .ok (.different cex) ∧
        Exhibits left right (driverPairs sources) (driverPairs targets) cex := by
  have insideLeft : ∀ id ∈ (driverPairs targets).map Prod.fst,
      id ∈ left.part.gates ∨ id ∈ (driverPairs sources).map Prod.fst :=
    List.forall_mem_map.mpr fun x read => .inl (inside x read).1
  have insideRight : ∀ id ∈ (driverPairs targets).map Prod.snd,
      id ∈ right.part.gates ∨ id ∈ (driverPairs sources).map Prod.snd :=
    List.forall_mem_map.mpr fun x read => .inl (inside x read).2
  rcases bySimulation_solved simLeft.determined simRight.determined insideLeft insideRight room with
    ⟨equal, all⟩ | ⟨bits, vl, vr, length, solved, ⟨x, read, ne⟩, different⟩
  · refine .inl ⟨equal, fun bits length x read => ?_⟩
    obtain ⟨vl, vr, solved, same⟩ := all bits length
    refine ⟨vl x.1, ?_, ?_⟩
    · rw [← solved.fedLeft]
      exact simLeft.evaluates solved.left (inside x read).1
    · rw [same x read, ← solved.fedRight]
      exact simRight.evaluates solved.right (inside x read).2
  · refine .inr ⟨_, different, bits, length, rfl, ?_, _, List.mem_map.mpr ⟨x, read, rfl⟩, ne⟩
    rw [List.forall₂_map_right_iff, List.forall₂_same]
    intro x read
    refine ⟨?_, ?_⟩
    · rw [← solved.fedLeft]
      exact simLeft.evaluates solved.left (inside x read).1
    · rw [← solved.fedRight]
      exact simRight.evaluates solved.right (inside x read).2

/-- From sixty-five pairs of sources on there is no verdict, whatever the views compute. -/
theorem bySimulation_outgrown {left right : View} {sources targets : Binding}
    (simLeft : left.Simulable ((driverPairs sources).map Prod.fst))
    (simRight : right.Simulable ((driverPairs sources).map Prod.snd))
    (inside : ∀ x ∈ driverPairs targets, x.1 ∈ left.part.gates ∧ x.2 ∈ right.part.gates)
    (large : 64 < (driverPairs sources).length) (countable : (driverPairs sources).length < 70) :
    (bySimulation left right sources targets).outcome = .error (.breach .capacity) := by
  obtain ⟨leftSim, compiledLeft, _⟩ :=
    simLeft.determined.runOnce_spec (List.forall_mem_map.mpr fun x read => .inl (inside x read).1)
  obtain ⟨rightSim, compiledRight, _⟩ :=
    simRight.determined.runOnce_spec (List.forall_mem_map.mpr fun x read => .inl (inside x read).2)
  unfold bySimulation
  simp only [Traced.outcome_bind, Traced.outcome_note, Traced.outcome_liftM, Result.ok_bind, compiledLeft,
    compiledRight, exhaustivePatterns_outgrown large countable, Result.error_bind]

/-- The list names each gate with the property once. -/
def Enumerates (ids : List GateId) (P : GateId → Prop) : Prop := ids.Nodup ∧ ∀ id, id ∈ ids ↔ P id

theorem simulable_of_enumerates {v : View} (circuit : v.Circuit) {pins : List GateId}
    (pairs : Enumerates pins v.IsSourceDriver) : v.Simulable pins where
  coherent := circuit.ofReachable.coherent
  logical := circuit.logical
  acyclic := circuit.acyclic
  pinnable := by
    refine ⟨pairs.1, fun id pinned mem g found => ?_⟩
    rcases circuit.given_iff.mpr ((pairs.2 id).mp pinned) with ⟨_, g', found', free⟩ | ⟨outside, _⟩
    · rw [found] at found'
      cases found'
      exact free
    · exact absurd mem outside
  complete id given := (pairs.2 id).mpr (circuit.given_iff.mp given)

/-- EXHAUSTIVE SIMULATION DECIDES EQUIVALENCE of two circuits with at most sixty-four pairs of sources:
the verdict is that they are equal exactly if they agree, and otherwise a counterexample. -/
theorem bySimulation_decides {left right : View} {sources targets : Binding} (circuitLeft : left.Circuit)
    (circuitRight : right.Circuit)
    (pairsLeft : Enumerates ((driverPairs sources).map Prod.fst) left.IsSourceDriver)
    (pairsRight : Enumerates ((driverPairs sources).map Prod.snd) right.IsSourceDriver)
    (room : (driverPairs sources).length ≤ 64)
    (inside : ∀ x ∈ driverPairs targets, x.1 ∈ left.part.gates ∧ x.2 ∈ right.part.gates) :
    ((bySimulation left right sources targets).outcome = .ok .equal ↔
        Agree left right (driverPairs sources) (driverPairs targets)) ∧
      (¬Agree left right (driverPairs sources) (driverPairs targets) →
        ∃ cex, (bySimulation left right sources targets).outcome = .ok (.different cex) ∧
          Exhibits left right (driverPairs sources) (driverPairs targets) cex) := by
  rcases bySimulation_cases (simulable_of_enumerates circuitLeft pairsLeft)
      (simulable_of_enumerates circuitRight pairsRight) inside room with
    ⟨equal, agree⟩ | ⟨cex, different, exhibits⟩
  · exact ⟨⟨fun _ => agree, fun _ => equal⟩, fun differ => absurd agree differ⟩
  · refine ⟨⟨fun equal => ?_, fun agree => absurd agree exhibits.not_agree⟩, fun _ => ⟨cex, different, exhibits⟩⟩
    rw [different] at equal
    cases equal

section Samples

theorem enumerates_sources {v : View} {ids : List GateId} (nodup : ids.Nodup)
    (drivers : (v.part.sources.toList.map Link.source) = ids) : Enumerates ids v.IsSourceDriver := by
  refine ⟨nodup, fun id => ?_⟩
  rw [← drivers, List.mem_map]
  simp [View.IsSourceDriver]

/-- Ports of two netlists, in pairs. -/
def portPairs (ids : List (Nat × Nat)) : Binding :=
  Std.TreeMap.ofList (ids.map fun x => (Link.port ⟨x.1⟩, Link.port ⟨x.2⟩))

/-- A negated disjunction. -/
def norView : View :=
  (Netlist.made [⟨.input, []⟩, ⟨.input, []⟩, .nary .nor [⟨0⟩, ⟨1⟩], .nary .output [⟨2⟩]]).view

/-- A conjunction of negations. -/
def notAndView : View :=
  (Netlist.made [⟨.input, []⟩, ⟨.input, []⟩, .nary .not [⟨0⟩], .nary .not [⟨1⟩], .nary .and [⟨2⟩, ⟨3⟩],
    .nary .output [⟨4⟩]]).view

theorem nor_agrees_notAnd :
    (bySimulation norView notAndView (portPairs [(0, 0), (1, 1)]) (portPairs [(3, 5)])).outcome = .ok .equal ∧
      Agree norView notAndView (driverPairs (portPairs [(0, 0), (1, 1)])) (driverPairs (portPairs [(3, 5)])) := by
  have equal : (bySimulation norView notAndView (portPairs [(0, 0), (1, 1)]) (portPairs [(3, 5)])).outcome =
      .ok .equal := by decide +kernel
  refine ⟨equal, (bySimulation_decides ?_ ?_ ?_ ?_ ?_ ?_).1.mp equal⟩
  · exact View.circuit_made (by decide +kernel)
  · exact View.circuit_made (by decide +kernel)
  · exact enumerates_sources (by decide +kernel) (by decide +kernel)
  · exact enumerates_sources (by decide +kernel) (by decide +kernel)
  · decide +kernel
  · decide +kernel

/-- A conjunction of sixty-five drivers outside the netlist. -/
def wideView : View := (Netlist.made [.nary .and ((List.range 65).map GateId.mk)]).view

/-- The links from these drivers, each bound to itself. -/
def wideSources : Binding :=
  Std.TreeMap.ofList ((List.range 65).map fun i => (Link.edge ⟨i⟩ ⟨65⟩ i, Link.edge ⟨i⟩ ⟨65⟩ i))

/-- With sixty-five pairs of sources there is no verdict, not even on a circuit and itself. -/
theorem wide_has_no_verdict : wideView.Circuit ∧
    Enumerates ((driverPairs wideSources).map Prod.fst) wideView.IsSourceDriver ∧
    Enumerates ((driverPairs wideSources).map Prod.snd) wideView.IsSourceDriver ∧
    (driverPairs wideSources).length = 65 ∧
    (∀ x ∈ driverPairs (portPairs [(65, 65)]), x.1 ∈ wideView.part.gates ∧ x.2 ∈ wideView.part.gates) ∧
    Agree wideView wideView (driverPairs wideSources) (driverPairs (portPairs [(65, 65)])) ∧
    (bySimulation wideView wideView wideSources (portPairs [(65, 65)])).outcome =
      .error (.breach .capacity) := by
  have circuit : wideView.Circuit := View.circuit_made (by decide +kernel)
  have ids : driverPairs wideSources = (List.range 65).map fun i => (GateId.mk i, GateId.mk i) := by decide +kernel
  have length : (driverPairs wideSources).length = 65 := by rw [ids, List.length_map, List.length_range]
  have same : (driverPairs wideSources).map Prod.snd = (driverPairs wideSources).map Prod.fst := by
    rw [ids, List.map_map, List.map_map]
    rfl
  have pairs : Enumerates ((driverPairs wideSources).map Prod.fst) wideView.IsSourceDriver := by
    rw [ids, List.map_map]
    exact enumerates_sources (by decide +kernel) (by decide +kernel)
  have inside : ∀ x ∈ driverPairs (portPairs [(65, 65)]),
      x.1 ∈ wideView.part.gates ∧ x.2 ∈ wideView.part.gates := by decide +kernel
  have pairs' : Enumerates ((driverPairs wideSources).map Prod.snd) wideView.IsSourceDriver := by
    rw [same]
    exact pairs
  have simulable := simulable_of_enumerates circuit pairs
  refine ⟨circuit, pairs, pairs', length, inside, ?_,
    bySimulation_outgrown simulable (simulable_of_enumerates circuit pairs') inside (by omega) (by omega)⟩
  intro bits width x read
  obtain ⟨b, evaluates⟩ := simulable.exists_evaluates
    (width.trans (List.length_map ..).symm) (inside x read).1
  have itself : x.2 = x.1 := (by decide +kernel : ∀ x ∈ driverPairs (portPairs [(65, 65)]), x.2 = x.1) x read
  rw [same, itself]
  exact ⟨b, evaluates, evaluates⟩

end Samples

end Checker

end LogicNet
