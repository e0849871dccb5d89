import LogicNet.Equivalence.RandomCheck
import LogicNet.Proofs.Equivalence.MiterCheck

/-!
# Miters, simulated and solved

Two checks ask whether the output of a miter is ever set. Solving decides it (`Checker.checkMiter_iff`). Simulation
tries words of sixty-four patterns, and stops at the first that sets the output in some lane.

A lane of a word is a valuation, so an output that is set in it can be set (`Probe.sound`): this holds of any
patterns, so the words may come from any source whatsoever. If the patterns are all there are, nothing is missed
(`Probe.complete`). The number of patterns has to fit: with more than sixty-four inputs the rows cannot be addressed,
and a bound that asks for all of them ends in a breach.
-/

namespace LogicNet

open Std

/-- A word is not zero if one of its lanes is set. -/
theorem ne_zero_iff_lane {w : Word} : w ≠ 0 ↔ ∃ p < 64, lane w p = true := by
  constructor
  · intro nonzero
    by_contra unset
    apply nonzero
    apply word_ext
    intro p lt
    rw [lane_zero]
    exact Bool.eq_false_iff.mpr fun isSet => unset ⟨p, lt, isSet⟩
  · rintro ⟨p, _, isSet⟩ rfl
    rw [lane_zero] at isSet
    cases isSet

/-! ## Patterns that are drawn -/

theorem length_drawWords {σ : Type} [WordSource σ] (n : Nat) (s : σ) : (drawWords n s).1.length = n := by
  induction n generalizing s with
  | zero => rfl
  | succ n ih => exact congrArg (· + 1) (ih _)

theorem length_of_mem_drawPatterns {σ : Type} [WordSource σ] {inputs words : Nat} {s : σ} {row : List Word}
    (mem : row ∈ drawPatterns inputs words s) : row.length = inputs := by
  induction words generalizing s with
  | zero => cases mem
  | succ words ih =>
    rcases List.mem_cons.mp mem with rfl | later
    · exact length_drawWords inputs s
    · exact ih later

theorem length_of_mem_patternsFrom {σ : Type} [WordSource σ] {inputs words : Nat} {s : σ} {rows : List (List Word)}
    (drawn : patternsFrom inputs words s = .ok rows) {row : List Word} (mem : row ∈ rows) : row.length = inputs := by
  obtain ⟨_, _, drawn⟩ := Result.bind_eq_ok.mp drawn
  obtain ⟨_, _, drawn⟩ := Result.bind_eq_ok.mp drawn
  cases drawn
  exact length_of_mem_drawPatterns mem

/-- Patterns can be drawn where there is room for them. -/
theorem exists_patternsFrom {σ : Type} [WordSource σ] {inputs words : Nat} (rows : words * rowBytes < 1 <<< 63)
    (row : inputs * wordBytes < 1 <<< 63) (s : σ) : ∃ patterns, patternsFrom inputs words s = .ok patterns := by
  have fits : (if words = 0 then 0 else inputs) * wordBytes < 1 <<< 63 := by
    split
    · decide
    · exact row
  refine ⟨drawPatterns inputs words s, ?_⟩
  unfold patternsFrom Result.requireRoom
  rw [decide_eq_true rows, decide_eq_true fits]
  rfl

/-! ## The search -/

namespace RandomCheck

/-- The search tells whether some row sets the output. -/
theorem findsSet_eq {sim : Simulator} {out : List Word → Word} {rows : List (List Word)}
    (run : ∀ words ∈ rows, sim.runOnce words = .ok [out words]) {s : Simulation} (used : sim.Used s) :
    findsSet s rows = .ok (rows.any fun words => out words != 0) := by
  induction rows generalizing s with
  | nil => rfl
  | cons words rows ih =>
    rw [List.forall_mem_cons] at run
    obtain ⟨s', ran, used'⟩ := used.exists_runOnce run.1
    rw [findsSet, ran, Result.ok_bind, List.any_cons]
    simp only [ih run.2 used', List.headD_cons]
    cases out words != 0 with
    | false => rfl
    | true => rfl

/-- A simulator that searches for patterns that set the output of a netlist, and what it finds. -/
structure Probe (net : Netlist) (out : GateId) (sim : Simulator) (word : List Word → Word) : Prop where
  compiled : net.view.compile (driversOf net.sources) [out] = .ok sim
  run : ∀ words : List Word, words.length = (driversOf net.sources).length → sim.runOnce words = .ok [word words]
  /-- A lane that is set belongs to a valuation. -/
  sound : ∀ words : List Word, words.length = (driversOf net.sources).length → word words ≠ 0 →
    ∃ val, net.view.Valuation val ∧ val out = true
  /-- A valuation whose inputs are among the patterns is found. -/
  complete : ∀ words : List Word, words.length = (driversOf net.sources).length → ∀ p < 64,
    ∀ val, net.view.Valuation val → (driversOf net.sources).map val = words.map (lane · p) → val out = true →
      word words ≠ 0

theorem exists_probe {net : Netlist} (circuit : net.view.Circuit) {out : GateId} (inside : out ∈ net.view.part.gates) :
    ∃ sim word, Probe net out sim word := by
  have enumerates : Checker.Enumerates (driversOf net.sources) net.view.IsSourceDriver :=
    ⟨nodup_driversOf _, fun _ => mem_driversOf⟩
  have simulable := Checker.simulable_of_enumerates circuit enumerates
  obtain ⟨sim, compiled, run⟩ := @View.Determined.runOnce_spec _ _ [out] simulable.determined
    fun _ mem => .inl (List.mem_singleton.mp mem ▸ inside)
  choose! env run solves using run
  refine ⟨sim, fun words => env words out, compiled, run, ?_, ?_⟩
  · intro words width nonzero
    obtain ⟨p, lt, isSet⟩ := ne_zero_iff_lane.mp nonzero
    exact ⟨fun id => lane (env words id) p, simulable.solves_iff.mp (solves words width p lt).1, isSet⟩
  · intro words width p lt val valuation fed isSet
    apply ne_zero_iff_lane.mpr
    refine ⟨p, lt, ?_⟩
    obtain ⟨solved, pins⟩ := solves words width p lt
    have agree : ∀ id ∈ driversOf net.sources, val id = lane (env words id) p :=
      List.map_inj_left.mp (fed.trans pins.symm)
    rw [← simulable.determined.unique (simulable.solves_iff.mpr valuation) solved agree (.inl inside)]
    exact isSet

section Check

variable {σ : Type} [WordSource σ] {net : Netlist} {out : GateId} {sim : Simulator} {word : List Word → Word}

/-- A circuit with one target link has one output. -/
theorem exists_output (circuit : net.view.Circuit) (single : net.targets.size = 1) :
    ∃ out, net.targets.toList = [.port out] ∧ out ∈ net.view.part.gates := by
  have consistent : net.Consistent := circuit.ofReachable.1.consistent
  rw [← TreeSet.length_toList, List.length_eq_one_iff] at single
  obtain ⟨l, only⟩ := single
  have mem : l ∈ net.targets := TreeSet.mem_toList.mp (only ▸ List.mem_singleton_self l)
  obtain ⟨g, found, _, port⟩ := consistent.mem_targets_iff.mp mem
  exact ⟨l.source, only.trans (congrArg (fun l => [l]) port), consistent.mem_view_gates.mpr ⟨g, found⟩⟩

/-- The patterns of a check: all there are, or those that are drawn. -/
def patterns (config : RandomCheck) (s : σ) (inputs : Nat) : Result (List (List Word)) :=
  if inputs ≤ config.exhaustiveBound then exhaustivePatterns inputs else patternsFrom inputs config.tries s

theorem length_of_mem_patterns {config : RandomCheck} {s : σ} {inputs : Nat} {rows : List (List Word)}
    (made : config.patterns s inputs = .ok rows) {row : List Word} (mem : row ∈ rows) : row.length = inputs := by
  unfold patterns at made
  split at made
  · obtain ⟨_, rfl⟩ := Checker.exhaustivePatterns_eq_ok.mp made
    exact Checker.length_of_mem_patternRows mem
  · exact length_of_mem_patternsFrom made mem

/-- The verdict, once the patterns have been searched. -/
def verdict (config : RandomCheck) (inputs : Nat) (found : Bool) : Equivalence :=
  if found then .different else if inputs ≤ config.exhaustiveBound then .equal else .unknown

/-- What is noted on the way does not change the answer of a search. -/
theorem outcome_search {made : Result (List (List Word))} (inputs : Nat) (otherwise : Equivalence)
    (search : ∀ rows, made = .ok rows → findsSet sim.start rows = .ok (rows.any fun words => word words != 0)) :
    Traced.outcome (do
      let rows ← (liftM made : Traced (List (List Word)))
      Traced.note (.simulatingMiter rows.length inputs)
      let found ← findsSet sim.start rows
      if found = true then do
        Traced.note .miterSimulatedTrue
        return .different
      else return otherwise) =
      made.map fun rows => if rows.any fun words => word words != 0 then .different else otherwise := by
  simp only [Traced.outcome_bind, Traced.outcome_liftM, Traced.outcome_note, Result.ok_bind]
  cases made with
  | error e => rfl
  | ok rows =>
    rw [Result.ok_bind, search rows rfl, Result.ok_bind, Except.map]
    cases rows.any fun words => word words != 0 with
    | false => rfl
    | true => rfl

/-- The check makes its patterns and searches them. -/
theorem outcome_checkFrom (config : RandomCheck) (s : σ) (circuit : net.view.Circuit)
    (single : net.targets.toList = [.port out]) (probe : Probe net out sim word) :
    (config.checkFrom s net).outcome = (config.patterns s (driversOf net.sources).length).map fun rows =>
      config.verdict (driversOf net.sources).length (rows.any fun words => word words != 0) := by
  have combinational : Result.require net.isCombinational .sequentialMiter = .ok () :=
    Result.require_eq_ok.mpr circuit.isCombinational
  have size : Result.require (net.targets.size == 1) .miterOutputs = .ok () := by
    rw [← TreeSet.length_toList, single]
    rfl
  have compiled : net.view.compile (driversOf net.sources) (net.targets.toList.map Link.source) = .ok sim := by
    rw [single]
    exact probe.compiled
  have search : ∀ rows, config.patterns s (driversOf net.sources).length = .ok rows →
      findsSet sim.start rows = .ok (rows.any fun words => word words != 0) := fun rows made =>
    findsSet_eq (fun words mem => probe.run words (length_of_mem_patterns made mem)) .start
  unfold patterns verdict driversOf at *
  simp only [checkFrom, Traced.outcome_bind, Traced.outcome_require, combinational, size, Result.ok_bind,
    Traced.outcome_liftM, compiled]
  -- The patterns are made in two places, and each goes on with a copy of the search.
  split
  · next few =>
    simp only [few, if_true] at search ⊢
    exact outcome_search _ _ search
  · next many =>
    simp only [many, if_false] at search ⊢
    exact outcome_search _ _ search

/-- A row that sets the output, however it was made, shows that it can be set. -/
theorem Probe.exists_set (probe : Probe net out sim word) {rows : List (List Word)}
    (width : ∀ row ∈ rows, row.length = (driversOf net.sources).length)
    (found : (rows.any fun words => word words != 0) = true) : ∃ val, net.view.Valuation val ∧ val out = true := by
  obtain ⟨words, mem, nonzero⟩ := List.any_eq_true.mp found
  exact probe.sound words (width words mem) (bne_iff_ne.mp nonzero)

/-- All patterns together find out whether the output is ever set. -/
theorem any_patternRows (probe : Probe net out sim word) :
    ((Checker.patternRows (driversOf net.sources).length).any fun words => word words != 0) = true ↔
      ∃ val, net.view.Valuation val ∧ val out = true := by
  constructor
  · exact probe.exists_set fun _ => Checker.length_of_mem_patternRows
  · rintro ⟨val, valuation, isSet⟩
    apply List.any_eq_true.mpr
    have bits : ((driversOf net.sources).map val).length = (driversOf net.sources).length := List.length_map val
    obtain ⟨words, mem, width, p, lt, values⟩ := Checker.exists_row _ bits
    have below : p < 64 := Nat.lt_of_lt_of_le lt (Checker.laneCount_le _)
    exact ⟨words, mem, bne_iff_ne.mpr (probe.complete words width p below val valuation values.symm isSet)⟩

end Check

/-- SIMULATION AND SOLVING AGREE on a circuit with one output, whatever words are drawn. If all patterns are tried, and
their rows can be addressed, the two verdicts are one. If patterns are drawn, nothing is ever confirmed, and a difference
that is found is one that solving finds too; there is a verdict if there is room for the patterns. Solving needs literals
for the variables of the formula. -/
theorem simulated_and_solved {c : Checker} (correct : c.oracle.Correct) {net : Netlist} (circuit : net.view.Circuit)
    (single : net.targets.size = 1)
    (inRange : ∀ f, Encode.draftView net.view 0 0 {} = .ok f → f.size ≤ Lit.largestVar + 1) (config : RandomCheck)
    {σ : Type} [WordSource σ] (s : σ) :
    ∃ never, (c.checkMiter net).outcome = .ok never ∧
      ((driversOf net.sources).length ≤ config.exhaustiveBound → (driversOf net.sources).length ≤ 64 →
        (config.checkFrom s net).outcome = .ok (if never then .equal else .different)) ∧
      (config.exhaustiveBound < (driversOf net.sources).length →
        (config.checkFrom s net).outcome ≠ .ok .equal ∧
        ((config.checkFrom s net).outcome = .ok .different → never = false) ∧
        (config.tries * rowBytes < 1 <<< 63 → (driversOf net.sources).length * wordBytes < 1 <<< 63 →
          ∃ verdict, (config.checkFrom s net).outcome = .ok verdict)) := by
  obtain ⟨out, only, inside⟩ := exists_output circuit single
  obtain ⟨never, solved, iff⟩ := Checker.checkMiter_iff correct circuit only inRange
  obtain ⟨sim, word, probe⟩ := exists_probe circuit inside
  refine ⟨never, solved, ?_, ?_⟩
  · intro few room
    have made : config.patterns s (driversOf net.sources).length =
        .ok (Checker.patternRows (driversOf net.sources).length) := by
      rw [patterns, if_pos few]
      exact Checker.exhaustivePatterns_eq_ok.mpr ⟨room, rfl⟩
    have found : ((Checker.patternRows (driversOf net.sources).length).any fun words => word words != 0) = !never := by
      rw [Bool.eq_iff_iff, any_patternRows probe, Bool.not_eq_true', ← Bool.not_eq_true, iff]
      simp
    rw [outcome_checkFrom config s circuit only probe, made, Except.map, found, verdict, if_pos few]
    cases never with
    | false => rfl
    | true => rfl
  · intro many
    have drawn : config.patterns s (driversOf net.sources).length =
        patternsFrom (driversOf net.sources).length config.tries s := if_neg (Nat.not_le.mpr many)
    rw [outcome_checkFrom config s circuit only probe]
    simp only [verdict, if_neg (Nat.not_le.mpr many)]
    refine ⟨?_, ?_, ?_⟩
    · cases config.patterns s (driversOf net.sources).length with
      | error e => exact nofun
      | ok rows =>
        rw [Except.map]
        split <;> exact nofun
    · intro different
      cases made : config.patterns s (driversOf net.sources).length with
      | error e =>
        rw [made] at different
        cases different
      | ok rows =>
        rw [made, Except.map] at different
        have found : (rows.any fun words => word words != 0) = true := by
          by_contra none
          rw [if_neg none] at different
          cases different
        obtain ⟨val, valuation, isSet⟩ := probe.exists_set (fun _ => length_of_mem_patterns made) found
        rw [← Bool.not_eq_true, iff]
        intro unset
        rw [unset val valuation] at isSet
        cases isSet
    · intro rows row
      obtain ⟨patterns, made⟩ := exists_patternsFrom rows row s
      rw [drawn, made]
      exact ⟨_, rfl⟩

/-- A parity and its negation, which are never both set. -/
def contradiction : Netlist := .made [⟨.input, []⟩, ⟨.input, []⟩, .nary .xor [⟨0⟩, ⟨1⟩], .nary .xnor [⟨0⟩, ⟨1⟩],
  .nary .and [⟨2⟩, ⟨3⟩], .nary .output [⟨4⟩]]

/-- The output is never set: solving and all patterns confirm it, and random patterns do not. -/
theorem contradiction_confirmed :
    contradiction.view.Circuit ∧ contradiction.targets.size = 1 ∧
      (Checker.checkMiter { oracle := Branching.oracle } contradiction).outcome = .ok true ∧
      (RandomCheck.check {} contradiction).outcome = .ok .equal ∧
      (RandomCheck.check { exhaustiveBound := 1 } contradiction).outcome ≠ .ok .equal := by
  have circuit : contradiction.view.Circuit := View.circuit_made (by decide +kernel)
  have single : contradiction.targets.size = 1 := by decide +kernel
  have inRange : ∀ f, Encode.draftView contradiction.view 0 0 {} = .ok f → f.size ≤ Lit.largestVar + 1 :=
    Result.forall_of_all (by decide +kernel)
  obtain ⟨never, solved, all, _⟩ := simulated_and_solved (c := { oracle := Branching.oracle })
    Branching.oracle_decides.toCorrect circuit single inRange {} (Xoshiro.ofSeed 1)
  obtain ⟨_, _, _, drawn⟩ := simulated_and_solved (c := { oracle := Branching.oracle })
    Branching.oracle_decides.toCorrect circuit single inRange { exhaustiveBound := 1 } (Xoshiro.ofSeed 1)
  have equal : (RandomCheck.check {} contradiction).outcome = .ok .equal := by decide +kernel
  have isNever : never = true := by
    rw [check, all (by decide +kernel) (by decide +kernel)] at equal
    cases never with
    | false => cases equal
    | true => rfl
  exact ⟨circuit, single, isNever ▸ solved, equal, (drawn (by decide +kernel)).1⟩

/-- A conjunction of sixty-five drivers outside the netlist. -/
def wideConjunction : Netlist := .made [.nary .and ((List.range 65).map GateId.mk), .nary .output [⟨65⟩]]

/-- The patterns of sixty-five inputs can be counted, and their rows cannot be addressed: solving sets the output, and
a check that may try up to sixty-nine inputs has no verdict. -/
theorem wideConjunction_has_no_verdict :
    Branching.oracle.Decides ∧ wideConjunction.view.Circuit ∧ wideConjunction.targets.size = 1 ∧
      (driversOf wideConjunction.sources).length = 65 ∧
      (Checker.checkMiter { oracle := Branching.oracle } wideConjunction).outcome = .ok false ∧
      (RandomCheck.check { exhaustiveBound := 69 } wideConjunction).outcome = .error (.breach .capacity) := by
  have circuit : wideConjunction.view.Circuit := View.circuit_made (by decide +kernel)
  refine ⟨Branching.oracle_decides, circuit, by decide +kernel, by decide +kernel, ?_, by decide +kernel⟩
  obtain ⟨never, solved, iff⟩ := @Checker.checkMiter_iff { oracle := Branching.oracle }
    Branching.oracle_decides.toCorrect _ circuit ⟨66⟩ (by decide +kernel)
    (Result.forall_of_all (by decide +kernel))
  have allSet : wideConjunction.view.Valuation fun _ => true := by
    intro id mem g found
    right
    have computed : wideConjunction.view.allGates (fun _ g => g.fn.evalBit false (g.inputs.map fun _ => true)) =
        true := by decide +kernel
    exact (View.of_allGates computed mem found).symm
  have isSet : never = false := by
    rw [← Bool.not_eq_true, iff]
    intro unset
    exact absurd (unset _ allSet) nofun
  exact isSet ▸ solved

end RandomCheck

end LogicNet
