import LogicNet.Proofs.Simulation.Cutting

/-!
# Runs as histories

A run over several steps has a HISTORY, an environment for each step. It is the chain of what single steps
do: the first one starts from zero, and before each later one memory takes the words it computes from the
environment of the step before.

In one lane a history is a TRACE of bits. A trace says what the values at each step have to be, and nothing
about how they were found. When all source drivers are pinned there is only one
(`View.Trace.unique`): by induction on the steps, and within a step by the order of the gates.
-/

namespace LogicNet

namespace View

variable {v : View} {pins outputs order : List GateId}

/-! ## Words -/

/-- Memory takes the words that it computes from an environment. -/
def Advances (v : View) (pins : List GateId) (env next : GateId → Word) : Prop :=
  ∀ id ∈ v.part.gates, id ∉ pins → ∀ g, v.net.gate? id = some g → g.isTrigger = true → next id = g.word env

/-- The environments at each step of a run from an environment. -/
structure History (v : View) (pins : List GateId) (start : GateId → Word) (steps : List (List Word))
    (env : Nat → GateId → Word) : Prop where
  first : ∀ words, steps[0]? = some words → Stepped v pins words start (env 0)
  later : ∀ k words, steps[k + 1]? = some words →
    ∃ next, v.Advances pins (env k) next ∧ Stepped v pins words next (env (k + 1))

/-- Each environment of a history is the end of a step. -/
theorem History.exists_stepped {start : GateId → Word} {steps : List (List Word)} {env : Nat → GateId → Word}
    (h : v.History pins start steps env) {k : Nat} {words : List Word} (found : steps[k]? = some words) :
    ∃ before, Stepped v pins words before (env k) := by
  cases k with
  | zero => exact ⟨_, h.first words found⟩
  | succ k =>
    obtain ⟨next, _, stepped⟩ := h.later k words found
    exact ⟨next, stepped⟩

/-- A step before a history, with an active edge between. -/
theorem History.cons {start middle next : GateId → Word} {words : List Word} {steps : List (List Word)}
    {env : Nat → GateId → Word} (stepped : Stepped v pins words start middle) (advances : v.Advances pins middle next)
    (h : v.History pins next steps env) :
    v.History pins start (words :: steps) fun k => Nat.casesOn k middle env where
  first words' found := by
    cases found
    exact stepped
  later k words' found := by
    cases k with
    | zero => exact ⟨next, advances, h.first words' found⟩
    | succ k => exact h.later k words' found

/-- The words of the outputs at each of `n` steps. -/
def rowsOf (outputs : List GateId) (env : Nat → GateId → Word) (n : Nat) : List (List Word) :=
  (List.range n).map fun k => outputs.map (env k)

theorem rowsOf_cons (outputs : List GateId) (middle : GateId → Word) (env : Nat → GateId → Word) (n : Nat) :
    rowsOf outputs (fun k => Nat.casesOn k middle env) (n + 1) = outputs.map middle :: rowsOf outputs env n := by
  rw [rowsOf, List.range_succ_eq_map, List.map_cons, List.map_map]
  rfl

theorem getElem?_rowsOf {env : Nat → GateId → Word} {n k : Nat} {row : List Word}
    (found : (rowsOf outputs env n)[k]? = some row) : k < n ∧ row = outputs.map (env k) := by
  rw [rowsOf, List.getElem?_map, Option.map_eq_some_iff] at found
  obtain ⟨k', here, rfl⟩ := found
  obtain ⟨lt, rfl⟩ := List.getElem?_eq_some_iff.mp here
  rw [List.length_range] at lt
  exact ⟨lt, by rw [List.getElem_range]⟩

theorem Coherent.resume_history (h : v.Coherent) (acyclic : v.Acyclic) (distinct : pins.Nodup)
    (ordered : v.orderedGates = .ok order) {steps : List (List Word)}
    (widths : ∀ words ∈ steps, words.length = pins.length) {values : Array Word}
    (size : values.size = (v.valued pins order).length) :
    ∃ next env last, v.Advances pins (readSlots (v.valued pins order) values) next ∧ v.History pins next steps env ∧
      (v.program pins outputs order).resume values steps = .ok (rowsOf outputs env steps.length, last) := by
  obtain ⟨size', advances⟩ := @Coherent.advance_spec v pins outputs order h ordered values size
  induction steps generalizing values with
  | nil => exact ⟨_, fun _ _ => 0, values, advances, ⟨nofun, nofun⟩, rfl⟩
  | cons words steps ih =>
    rw [List.forall_mem_cons] at widths
    obtain ⟨after, sizeAfter, step, stepped⟩ :=
      @Coherent.step_spec v pins outputs order h acyclic distinct ordered _ size' words widths.1
    obtain ⟨size'', advances'⟩ := @Coherent.advance_spec v pins outputs order h ordered after sizeAfter
    obtain ⟨next, env, last, advanced, history, resume⟩ := ih widths.2 sizeAfter size'' advances'
    refine ⟨_, _, last, advances, history.cons stepped advanced, ?_⟩
    rw [Simulator.resume, step, Result.ok_bind]
    simp only [resume, Result.ok_bind]
    exact congrArg (fun rows => Except.ok (rows, last)) (rowsOf_cons outputs _ env steps.length).symm

/-- A run from the zero state has a history, and returns the words of the outputs in it. -/
theorem Coherent.run_history (h : v.Coherent) (interpreted : v.Interpreted) (acyclic : v.Acyclic)
    (distinct : pins.Nodup) (inside : ∀ id ∈ outputs, id ∈ v.part.gates ∨ id ∈ pins) {steps : List (List Word)}
    (widths : ∀ words ∈ steps, words.length = pins.length) :
    ∃ sim env, v.compile pins outputs = .ok sim ∧ v.History pins (fun _ => 0) steps env ∧
      sim.run steps = .ok (rowsOf outputs env steps.length) := by
  obtain ⟨order, ordered⟩ := h.exists_orderedGates acyclic
  have compiled := h.compile_eq interpreted ordered inside
  cases steps with
  | nil => exact ⟨_, fun _ _ => 0, compiled, ⟨nofun, nofun⟩, rfl⟩
  | cons words steps =>
    rw [List.forall_mem_cons] at widths
    obtain ⟨after, sizeAfter, step, stepped⟩ :=
      @Coherent.step_spec v pins outputs order h acyclic distinct ordered _ size_zeros words widths.1
    rw [readSlots_zeros] at stepped
    obtain ⟨next, env, _, advanced, history, resume⟩ :=
      @Coherent.resume_history v pins outputs order h acyclic distinct ordered steps widths.2 after sizeAfter
    refine ⟨_, _, compiled, history.cons stepped advanced, ?_⟩
    rw [Simulator.run_cons, step, Result.ok_bind]
    simp only [resume, Result.ok_bind]
    exact congrArg Except.ok (rowsOf_cons outputs _ env steps.length).symm

/-! ## Bits -/

/-- What the values at each step have to be: pins as they are fed, memory off at first and later as it was
computed a step before, and logic as it is computed now. -/
structure Trace (v : View) (pins : List GateId) (steps : List (List Bool)) (val : Nat → GateId → Bool) : Prop where
  fed : ∀ k bits, steps[k]? = some bits → pins.map (val k) = bits
  solves : ∀ k < steps.length, v.Solves pins (val k)
  off : 0 < steps.length → ∀ id ∈ v.part.gates, id ∉ pins → ∀ g, v.net.gate? id = some g → g.isTrigger = true →
    val 0 id = false
  next : ∀ k, k + 1 < steps.length → ∀ id ∈ v.part.gates, id ∉ pins → ∀ g, v.net.gate? id = some g →
    g.isTrigger = true → val (k + 1) id = g.fn.evalBit (val k id) (g.inputs.map fun s => val k s.driver)

/-- A view has one trace, if all drivers of its source links are pinned. -/
theorem Trace.unique (coherent : v.Coherent) (acyclic : v.Acyclic) (complete : ∀ id, v.IsSourceDriver id → id ∈ pins)
    {steps : List (List Bool)} {val val' : Nat → GateId → Bool} (h : v.Trace pins steps val)
    (h' : v.Trace pins steps val') {k : Nat} (lt : k < steps.length) :
    ∀ id, id ∈ v.part.gates ∨ id ∈ pins → val k id = val' k id := by
  have pinned : ∀ k < steps.length, ∀ id ∈ pins, val k id = val' k id := by
    intro k lt
    have found := List.getElem?_eq_getElem lt
    exact List.map_inj_left.mp ((h.fed k _ found).trans (h'.fed k _ found).symm)
  -- Within a step only memory is left to compare.
  have step : ∀ k < steps.length, (∀ id ∈ v.part.gates, id ∉ pins → ∀ g, v.net.gate? id = some g →
      g.isTrigger = true → val k id = val' k id) → ∀ id, id ∈ v.part.gates ∨ id ∈ pins → val k id = val' k id := by
    intro k lt memory id mem
    rcases mem with inside | pin
    · refine (h.solves k lt).unique (h'.solves k lt) coherent acyclic ?_ id inside
      intro x given
      by_cases pin : x ∈ pins
      · exact pinned k lt x pin
      rcases coherent.open_iff.mp (given.resolve_left pin) with source | trigger
      · exact absurd (complete x source) pin
      · obtain ⟨mem, g, found, isTrigger⟩ := (coherent.covers.accounts.triggers x).mp trigger
        exact memory x mem pin g found isTrigger
    · exact pinned k lt id pin
  induction k with
  | zero =>
    refine step 0 lt fun id mem unpinned g found trigger => ?_
    rw [h.off lt id mem unpinned g found trigger, h'.off lt id mem unpinned g found trigger]
  | succ k ih =>
    have before := ih (Nat.lt_of_succ_lt lt)
    refine step (k + 1) lt fun id mem unpinned g found trigger => ?_
    rw [h.next k lt id mem unpinned g found trigger, h'.next k lt id mem unpinned g found trigger,
      before id (.inl mem)]
    congr 1
    refine List.map_congr_left fun s read => before _ ?_
    by_cases inside : s.driver ∈ v.part.gates
    · exact .inl inside
    · exact .inr (complete _ (coherent.isSourceDriver_iff.mpr (.inr ⟨inside, id, mem, g, found, s, read, rfl⟩)))

/-- The bits of the steps in one lane. -/
def laneSteps (steps : List (List Word)) (p : Nat) : List (List Bool) := steps.map fun words => words.map (lane · p)

theorem length_of_mem_laneSteps {steps : List (List Word)} (widths : ∀ words ∈ steps, words.length = pins.length)
    {p : Nat} : ∀ bits ∈ laneSteps steps p, bits.length = pins.length := by
  refine List.forall_mem_map.mpr fun words mem => ?_
  rw [List.length_map, widths words mem]

/-- Every lane of a history is a trace. -/
theorem History.trace (coherent : v.Coherent) (timed : v.Timed) {steps : List (List Word)}
    {env : Nat → GateId → Word} (h : v.History pins (fun _ => 0) steps env)
    (widths : ∀ words ∈ steps, words.length = pins.length) {p : Nat} (lt : p < 64) :
    v.Trace pins (laneSteps steps p) fun k id => lane (env k id) p := by
  constructor
  case fed =>
    intro k bits found
    rw [laneSteps, List.getElem?_map, Option.map_eq_some_iff] at found
    obtain ⟨words, found, rfl⟩ := found
    obtain ⟨before, stepped⟩ := h.exists_stepped found
    have width := widths _ (List.mem_of_getElem? found)
    refine List.ext_getElem (by simp [width]) fun i hi hi' => ?_
    rw [List.length_map] at hi hi'
    rw [List.getElem_map, List.getElem_map,
      stepped.fed i _ _ (List.getElem?_eq_getElem hi) (List.getElem?_eq_getElem hi')]
  case solves =>
    intro k inRange id mem unpinned g found notSource plain
    rw [laneSteps, List.length_map] at inRange
    obtain ⟨before, stepped⟩ := h.exists_stepped (List.getElem?_eq_getElem inRange)
    beta_reduce
    rw [stepped.computed id mem unpinned g found notSource plain, lane_evalWord _ _ _ lt, List.map_map,
      GateFn.evalBit_held (timed.stateless mem found plain) _ false]
    rfl
  case off =>
    intro inRange id mem unpinned g found trigger
    rw [laneSteps, List.length_map] at inRange
    rw [(h.first _ (List.getElem?_eq_getElem inRange)).held id mem unpinned g found trigger]
    exact lane_zero
  case next =>
    intro k inRange id mem unpinned g found trigger
    rw [laneSteps, List.length_map] at inRange
    obtain ⟨next, advances, stepped⟩ := h.later k _ (List.getElem?_eq_getElem inRange)
    rw [stepped.held id mem unpinned g found trigger, advances id mem unpinned g found trigger, Gate.word,
      coherent.wired.keyed found, lane_evalWord _ _ _ lt, List.map_map]
    rfl

end View

end LogicNet
