import LogicNet.Proofs.Simulation.History
import LogicNet.Proofs.Simulation.Lockstep

/-!
# Runs from a state, and related states

A compiled view starts from the zero state. Here it starts from any state of its memory (`View.runFrom`), with
the steps and the edges of the simulator. From the zero state this is a run as before
(`View.runFrom_zero`).

Two views need not hold the same values to give the same outputs. It is enough that a RELATION between their
states is kept by a step and that related states have equal outputs (`Related`). Then the outputs are equal at
every step of runs from related states, by induction on the steps (`Related.runFrom`). Lockstep is the case in
which the relation is equality of paired memory.
-/

namespace LogicNet

open Std

namespace View

variable {v : View} {pins outputs order : List GateId}

/-! ## Runs from a state -/

/-- Values before a first step: memory holds a state, and all else is zero. -/
def load (v : View) (pins order : List GateId) (state : GateId → Word) : Array Word :=
  ((v.valued pins order).map fun id => if v.part.triggers.contains id then state id else 0).toArray

/-- Several steps from a state of the memory: the words of the outputs at each step. -/
def runFrom (v : View) (pins outputs : List GateId) (state : GateId → Word) (steps : List (List Word)) :
    Result (List (List Word)) := do
  let order ← v.orderedGates
  let sim ← v.compile pins outputs
  match steps with
  | [] => return []
  | words :: rest =>
    let (out, values) ← sim.step (v.load pins order state) words
    return out :: (← sim.resume values rest).1

theorem size_load (state : GateId → Word) : (v.load pins order state).size = (v.valued pins order).length := by
  simp [load]

theorem readSlots_load {state : GateId → Word} {id : GateId} (mem : id ∈ v.valued pins order)
    (trigger : id ∈ v.part.triggers) : readSlots (v.valued pins order) (v.load pins order state) id = state id := by
  have lt := List.idxOf_lt_length_of_mem mem
  have inside : v.part.triggers.contains id = true := TreeSet.mem_iff_contains.mp trigger
  rw [readSlots, load, Array.getD_eq_getD_getElem?, List.getElem?_toArray, List.getElem?_map,
    List.getElem?_eq_getElem lt, List.getElem_idxOf lt, Option.map_some, Option.getD_some, if_pos inside]

theorem load_zero : v.load pins order (fun _ => 0) = Array.replicate (v.valued pins order).length 0 := by
  apply Array.ext
  · simp [load]
  · intro i _ _
    simp [load]

/-- From the zero state the run is that of the compiled view. -/
theorem runFrom_zero (steps : List (List Word)) :
    v.runFrom pins outputs (fun _ => 0) steps = v.compile pins outputs >>= fun sim => sim.run steps := by
  unfold runFrom
  cases ordered : v.orderedGates with
  | error e =>
    have compiled : v.compile pins outputs = .error e := by
      rw [compile, ordered]
      rfl
    rw [compiled]
    rfl
  | ok order =>
    rw [Result.ok_bind]
    cases compiled : v.compile pins outputs with
    | error e => rfl
    | ok sim =>
      obtain ⟨order', ordered', _, _, rfl⟩ := compile_eq_ok.mp compiled
      obtain rfl : order = order' := Except.ok.inj (ordered.symm.trans ordered')
      cases steps with
      | nil => rfl
      | cons words rest =>
        rw [load_zero]
        exact (Simulator.run_cons words rest).symm

/-- A run from a state has a history that starts from it, and returns the words of the outputs in it. -/
theorem Coherent.runFrom_history (h : v.Coherent) (interpreted : v.Interpreted) (acyclic : v.Acyclic)
    (distinct : pins.Nodup) (inside : ∀ id ∈ outputs, id ∈ v.part.gates ∨ id ∈ pins) {steps : List (List Word)}
    (widths : ∀ words ∈ steps, words.length = pins.length) (state : GateId → Word) :
    ∃ start env, (∀ id ∈ v.part.triggers, start id = state id) ∧ v.History pins start steps env ∧
      v.runFrom pins outputs state steps = .ok (rowsOf outputs env steps.length) := by
  obtain ⟨order, ordered⟩ := h.exists_orderedGates acyclic
  obtain ⟨perm, _⟩ := h.orderedGates_spec ordered
  have compiled := h.compile_eq interpreted ordered inside
  have loaded : ∀ id ∈ v.part.triggers,
      readSlots (v.valued pins order) (v.load pins order state) id = state id := by
    intro id trigger
    have member := ((h.covers.accounts.triggers id).mp trigger).1
    exact readSlots_load (mem_valued.mpr (.inr (.inl (perm.mem_iff.mpr member)))) trigger
  refine ⟨readSlots (v.valued pins order) (v.load pins order state), ?_⟩
  unfold runFrom
  rw [ordered, compiled, Result.ok_bind, Result.ok_bind]
  cases steps with
  | nil => exact ⟨fun _ _ => 0, loaded, ⟨nofun, nofun⟩, rfl⟩
  | cons words steps =>
    rw [List.forall_mem_cons] at widths
    obtain ⟨after, sizeAfter, step, stepped⟩ := @Coherent.step_spec v pins outputs order h acyclic distinct ordered
      (v.load pins order state) (size_load state) words widths.1
    obtain ⟨next, env, _, advanced, history, resume⟩ :=
      @Coherent.resume_history v pins outputs order h acyclic distinct ordered steps widths.2 after sizeAfter
    refine ⟨_, loaded, history.cons stepped advanced, ?_⟩
    simp only [step, resume, Result.ok_bind]
    exact congrArg Except.ok (rowsOf_cons outputs _ env steps.length).symm

/-! ## Next states -/

/-- What the gate holds after the next edge, as its function computes it from the values now. -/
def nextState (v : View) (val : GateId → Bool) (id : GateId) : Bool :=
  match v.net.gate? id with
  | some g => g.fn.evalBit (val id) (g.inputs.map fun s => val s.driver)
  | none => val id

theorem nextState_eq {val : GateId → Bool} {id : GateId} {g : Gate} (found : v.net.gate? id = some g) :
    v.nextState val id = g.fn.evalBit (val id) (g.inputs.map fun s => val s.driver) := by
  simp only [nextState, found]

/-- In every lane an edge leads to the next state. -/
theorem Advances.nextState (coherent : v.Coherent) {env next : GateId → Word} (h : v.Advances pins env next)
    {id : GateId} (trigger : id ∈ v.part.triggers) (unpinned : id ∉ pins) {p : Nat} (lt : p < 64) :
    lane (next id) p = v.nextState (fun id => lane (env id) p) id := by
  obtain ⟨member, g, found, isTrigger⟩ := (coherent.covers.accounts.triggers id).mp trigger
  rw [h id member unpinned g found isTrigger, nextState_eq found, Gate.word, coherent.wired.keyed found,
    lane_evalWord _ _ _ lt, List.map_map]
  rfl

end View

/-! ## Related states -/

/-- Valuations whose states are related, and that agree on what is fed, agree on what is read, and their next
states are related. -/
structure Related (left right : View) (pins outs : List (GateId × GateId))
    (R : (GateId → Bool) → (GateId → Bool) → Prop) : Prop where
  /-- Only the values of memory count. -/
  local_ : ∀ {s s' r r'}, (∀ id ∈ left.part.triggers, s id = s' id) → (∀ id ∈ right.part.triggers, r id = r' id) →
    R s r → R s' r'
  outputs : ∀ {vl vr}, left.Valuation vl → right.Valuation vr → Together pins vl vr → R vl vr → Together outs vl vr
  next : ∀ {vl vr}, left.Valuation vl → right.Valuation vr → Together pins vl vr → R vl vr →
    R (left.nextState vl) (right.nextState vr)
  unpinnedLeft : ∀ id ∈ left.part.triggers, id ∉ pins.map Prod.fst
  unpinnedRight : ∀ id ∈ right.part.triggers, id ∉ pins.map Prod.snd

namespace Related

variable {left right : View} {pins outs : List (GateId × GateId)} {R : (GateId → Bool) → (GateId → Bool) → Prop}

/-- Related in every lane. -/
def Lanes (R : (GateId → Bool) → (GateId → Bool) → Prop) (env env' : GateId → Word) : Prop :=
  ∀ p < 64, R (fun id => lane (env id) p) fun id => lane (env' id) p

variable (h : Related left right pins outs R)
include h

/-- A step leaves related states related and gives equal outputs. -/
theorem step (runLeft : left.Runnable (pins.map Prod.fst) (outs.map Prod.fst))
    (runRight : right.Runnable (pins.map Prod.snd) (outs.map Prod.snd)) {words : List Word}
    {before before' after after' : GateId → Word} (steppedLeft : Stepped left (pins.map Prod.fst) words before after)
    (steppedRight : Stepped right (pins.map Prod.snd) words before' after') (width : words.length = pins.length)
    (related : Lanes R before before') :
    Together pins after after' ∧ Lanes R after after' ∧ Together outs after after' := by
  have settledLeft := runLeft.pinnable.settled runLeft.coherent runLeft.logical steppedLeft
  have settledRight := runRight.pinnable.settled runRight.coherent runRight.logical steppedRight
  have fed := Lockstep.pins_together settledLeft settledRight width
  have kept : Lanes R after after' := by
    intro p lt
    refine h.local_ (fun id trigger => ?_) (fun id trigger => ?_) (related p lt)
    · obtain ⟨member, g, found, isTrigger⟩ := (runLeft.coherent.covers.accounts.triggers id).mp trigger
      rw [steppedLeft.held id member (h.unpinnedLeft id trigger) g found isTrigger]
    · obtain ⟨member, g, found, isTrigger⟩ := (runRight.coherent.covers.accounts.triggers id).mp trigger
      rw [steppedRight.held id member (h.unpinnedRight id trigger) g found isTrigger]
  refine ⟨fed, kept, fun x read => word_ext fun p lt => ?_⟩
  exact h.outputs (settledLeft.valued p lt) (settledRight.valued p lt)
    (fun y pin => congrArg (lane · p) (fed y pin)) (kept p lt) x read

/-- An edge leads from related states to related states. -/
theorem advance (runLeft : left.Runnable (pins.map Prod.fst) (outs.map Prod.fst))
    (runRight : right.Runnable (pins.map Prod.snd) (outs.map Prod.snd)) {words : List Word}
    {before before' after after' next next' : GateId → Word}
    (steppedLeft : Stepped left (pins.map Prod.fst) words before after)
    (steppedRight : Stepped right (pins.map Prod.snd) words before' after')
    (fed : Together pins after after') (related : Lanes R after after')
    (advancesLeft : left.Advances (pins.map Prod.fst) after next)
    (advancesRight : right.Advances (pins.map Prod.snd) after' next') : Lanes R next next' := by
  have settledLeft := runLeft.pinnable.settled runLeft.coherent runLeft.logical steppedLeft
  have settledRight := runRight.pinnable.settled runRight.coherent runRight.logical steppedRight
  intro p lt
  have later := h.next (settledLeft.valued p lt) (settledRight.valued p lt)
    (fun y pin => congrArg (lane · p) (fed y pin)) (related p lt)
  refine h.local_ (fun id trigger => ?_) (fun id trigger => ?_) later
  · exact (advancesLeft.nextState runLeft.coherent trigger (h.unpinnedLeft id trigger) lt).symm
  · exact (advancesRight.nextState runRight.coherent trigger (h.unpinnedRight id trigger) lt).symm

/-- Histories from related states have equal outputs at every step. -/
theorem history (runLeft : left.Runnable (pins.map Prod.fst) (outs.map Prod.fst))
    (runRight : right.Runnable (pins.map Prod.snd) (outs.map Prod.snd)) {steps : List (List Word)}
    (widths : ∀ words ∈ steps, words.length = pins.length) {start start' : GateId → Word}
    {env env' : Nat → GateId → Word} (historyLeft : left.History (pins.map Prod.fst) start steps env)
    (historyRight : right.History (pins.map Prod.snd) start' steps env') (related : Lanes R start start') :
    ∀ k < steps.length, Together outs (env k) (env' k) := by
  -- Before every step the states that the two sides hold are related.
  have held : ∀ k (lt : k < steps.length), ∃ before before',
      Stepped left (pins.map Prod.fst) steps[k] before (env k) ∧
        Stepped right (pins.map Prod.snd) steps[k] before' (env' k) ∧ Lanes R before before' := by
    intro k
    induction k with
    | zero =>
      intro lt
      have found := List.getElem?_eq_getElem lt
      exact ⟨start, start', historyLeft.first _ found, historyRight.first _ found, related⟩
    | succ k ih =>
      intro lt
      have found := List.getElem?_eq_getElem lt
      obtain ⟨before, before', steppedLeft, steppedRight, related⟩ := ih (Nat.lt_of_succ_lt lt)
      obtain ⟨next, advancesLeft, nextLeft⟩ := historyLeft.later k _ found
      obtain ⟨next', advancesRight, nextRight⟩ := historyRight.later k _ found
      obtain ⟨fed, kept, _⟩ := h.step runLeft runRight steppedLeft steppedRight (widths _ (List.getElem_mem _)) related
      exact ⟨next, next', nextLeft, nextRight,
        h.advance runLeft runRight steppedLeft steppedRight fed kept advancesLeft advancesRight⟩
  intro k lt
  obtain ⟨before, before', steppedLeft, steppedRight, related⟩ := held k lt
  exact (h.step runLeft runRight steppedLeft steppedRight (widths _ (List.getElem_mem _)) related).2.2

/-- Runs from related states return, and give equal outputs at every step. -/
theorem runFrom (runLeft : left.Runnable (pins.map Prod.fst) (outs.map Prod.fst))
    (runRight : right.Runnable (pins.map Prod.snd) (outs.map Prod.snd)) {state state' : GateId → Word}
    (related : Lanes R state state') {steps : List (List Word)}
    (widths : ∀ words ∈ steps, words.length = pins.length) :
    ∃ rows, left.runFrom (pins.map Prod.fst) (outs.map Prod.fst) state steps = .ok rows ∧
      right.runFrom (pins.map Prod.snd) (outs.map Prod.snd) state' steps = .ok rows := by
  obtain ⟨start, env, held, history, run⟩ := runLeft.coherent.runFrom_history runLeft.logical.interpreted
    runLeft.acyclic runLeft.pinnable.1 (fun id mem => .inl (runLeft.inside id mem)) (by simpa using widths) state
  obtain ⟨start', env', held', history', run'⟩ := runRight.coherent.runFrom_history runRight.logical.interpreted
    runRight.acyclic runRight.pinnable.1 (fun id mem => .inl (runRight.inside id mem)) (by simpa using widths) state'
  have started : Lanes R start start' := by
    intro p lt
    refine h.local_ (fun id trigger => ?_) (fun id trigger => ?_) (related p lt)
    · rw [held id trigger]
    · rw [held' id trigger]
  have together := h.history runLeft runRight widths history history' started
  refine ⟨_, run, ?_⟩
  rw [run', View.rowsOf, View.rowsOf]
  refine congrArg Except.ok (List.map_congr_left fun k inside => ?_)
  rw [List.map_map, List.map_map]
  exact List.map_congr_left fun x read => (together k (List.mem_range.mp inside) x read).symm

end Related

end LogicNet
