import LogicNet.Proofs.Simulation.History

/-!
# Runs are iterated steps

There are two ways to simulate a view with memory over several steps. A RUN keeps the values in their slots from step
to step and changes memory between two steps. The other way cuts the view at its memory: the held values are fed as
words of further pins, the drivers of memory are read as further outputs, and each step is a single one from zero, which
remembers nothing (`View.iterate`).

**The law** (`View.run_iterates`): both return the same, step by step, and are refused alike.

The two agree within a step because only memory can see the values of the step before: logic does not read what it
held, and all else is pinned. From one step to the next they agree because memory takes, in either way, the value of its
function on the same drivers, all at once.
-/

namespace LogicNet

/-- The word with these bits in its lanes. -/
def ofLanes (bits : Nat → Bool) : Word :=
  (List.range 64).foldl (fun acc p => if bits p = true then acc ||| ((1 : Word) <<< p.toUInt64) else acc) 0

theorem lane_ofLanes {bits : Nat → Bool} {p : Nat} (lt : p < 64) : lane (ofLanes bits) p = bits p := by
  rw [ofLanes, lane_foldl_set (fun q => bits q = true) (Nat.le_refl 64) 0 lt]
  simp [lt]

/-- The word of a function is that of its bits. -/
theorem ofLanes_evalBit (fn : GateFn) (held : Word) (xs : List Word) :
    (ofLanes fun p => fn.evalBit (lane held p) (xs.map (lane · p))) = fn.evalWord held xs :=
  word_ext fun p lt => by rw [lane_ofLanes lt, lane_evalWord _ _ _ lt]

/-- A function without memory does not depend on what was held. -/
theorem GateFn.evalWord_held {fn : GateFn} (stateless : fn.isTriggered = false) (a b : Word) (xs : List Word) :
    fn.evalWord a xs = fn.evalWord b xs :=
  word_ext fun p lt => by
    rw [lane_evalWord _ _ _ lt, lane_evalWord _ _ _ lt, GateFn.evalBit_held stateless _ (lane b p)]

/-- The word at the place of a gate in a list. -/
def wordAt (ids : List GateId) (words : List Word) (id : GateId) : Word := words.getD (ids.idxOf id) 0

theorem wordAt_map {ids : List GateId} {env : GateId → Word} {id : GateId} (mem : id ∈ ids) :
    wordAt ids (ids.map env) id = env id := by
  have lt := List.idxOf_lt_length_of_mem mem
  rw [wordAt, List.getD_eq_getElem?_getD, List.getElem?_map, List.getElem?_eq_getElem lt, List.getElem_idxOf]
  rfl

namespace View

variable {v : View} {pins outputs memory reads order : List GateId}

/-! ## Iterated steps -/

/-- What memory takes next: each gate the value of its function, on what it holds and on what its drivers have. -/
def nextWords (v : View) (memory reads : List GateId) (state words : List Word) : List Word :=
  memory.map fun id => ofLanes fun p => (v.net.gate? id).any fun g =>
    g.fn.evalBit (lane (wordAt memory state id) p) (g.inputs.map fun s => lane (wordAt reads words s.driver) p)

/-- Single steps of a view that is cut at its memory, each from what memory takes in the one before. The outputs are
followed by the drivers of memory. -/
def iterate (v : View) (cut : Simulator) (outputs memory reads : List GateId) :
    List Word → List (List Word) → Result (List (List Word))
  | _, [] => .ok []
  | state, words :: rest => do
    let out ← cut.runOnce (words ++ state)
    let next := v.nextWords memory reads state (out.drop outputs.length)
    return out.take outputs.length :: (← v.iterate cut outputs memory reads next rest)

/-- The pins leave nothing open but memory, which is listed once, with all that drives it. -/
structure CutAtMemory (v : View) (pins outputs memory reads : List GateId) : Prop where
  distinct : pins.Nodup
  complete : ∀ id, v.IsSourceDriver id → id ∈ pins
  apart : ∀ id ∈ pins, id ∉ v.part.triggers
  inside : ∀ id ∈ outputs, id ∈ v.part.gates ∨ id ∈ pins
  once : memory.Nodup
  triggers : ∀ id, id ∈ memory ↔ id ∈ v.part.triggers
  drivers : ∀ id, id ∈ reads ↔ ∃ t ∈ memory, ∃ g, v.net.gate? t = some g ∧ ∃ s ∈ g.inputs, s.driver = id

namespace CutAtMemory

variable (h : v.CutAtMemory pins outputs memory reads) (coherent : v.Coherent)
include h

theorem nodup : (pins ++ memory).Nodup :=
  h.distinct.append h.once fun id pinned listed => h.apart id pinned ((h.triggers id).mp listed)

include coherent

theorem known {id : GateId} (mem : id ∈ memory) :
    id ∈ v.part.gates ∧ id ∉ pins ∧ ∃ g, v.net.gate? id = some g ∧ g.isTrigger = true := by
  have trigger := (h.triggers id).mp mem
  obtain ⟨inside, g, found, isTrigger⟩ := (coherent.covers.accounts.triggers id).mp trigger
  exact ⟨inside, fun pinned => h.apart id pinned trigger, g, found, isTrigger⟩

/-- What a gate reads is a gate of the view or pinned. -/
theorem driver_inside {id : GateId} (mem : id ∈ v.part.gates) {g : Gate} (found : v.net.gate? id = some g) {s : Signal}
    (read : s ∈ g.inputs) : s.driver ∈ v.part.gates ∨ s.driver ∈ pins := by
  by_cases inside : s.driver ∈ v.part.gates
  · exact .inl inside
  · exact .inr (h.complete _ (coherent.isSourceDriver_iff.mpr (.inr ⟨inside, id, mem, g, found, s, read, rfl⟩)))

theorem output_inside {id : GateId} (mem : id ∈ outputs ++ reads) : id ∈ v.part.gates ∨ id ∈ pins := by
  rcases List.mem_append.mp mem with output | driver
  · exact h.inside id output
  · obtain ⟨t, listed, g, found, s, read, rfl⟩ := (h.drivers id).mp driver
    exact h.driver_inside coherent (h.known coherent listed).1 found read

/-! ## One step -/

section Step

variable {words : List Word} {before zero after after' : GateId → Word} (stepped : Stepped v pins words before after)
  (cut : Stepped v (pins ++ memory) (words ++ memory.map before) zero after') (width : words.length = pins.length)
include stepped cut width

omit h coherent in
theorem pins_eq {id : GateId} (pinned : id ∈ pins) : after id = after' id := by
  obtain ⟨i, lt, rfl⟩ := List.mem_iff_getElem.mp pinned
  have lt' : i < words.length := width ▸ lt
  have word := List.getElem?_eq_getElem lt'
  rw [stepped.fed i _ _ (List.getElem?_eq_getElem lt) word, cut.fed i pins[i] words[i]]
  · rw [List.getElem?_append_left lt, List.getElem?_eq_getElem lt]
  · rw [List.getElem?_append_left lt', word]

/-- What memory holds in the one step, it is fed in the other. -/
theorem memory_eq {id : GateId} (listed : id ∈ memory) : after id = after' id := by
  obtain ⟨inside, unpinned, g, found, trigger⟩ := h.known coherent listed
  obtain ⟨i, lt, rfl⟩ := List.mem_iff_getElem.mp listed
  rw [stepped.held _ inside unpinned g found trigger, cut.fed (pins.length + i) memory[i] (before memory[i])]
  · rw [List.getElem?_append_right (Nat.le_add_right _ _), Nat.add_sub_cancel_left, List.getElem?_eq_getElem lt]
  · rw [← width, List.getElem?_append_right (Nat.le_add_right _ _), Nat.add_sub_cancel_left, List.getElem?_map,
      List.getElem?_eq_getElem lt]
    rfl

/-- A step that holds values and a single step that is fed with them end in the same values. -/
theorem stepped_eq (acyclic : v.Acyclic) (timed : v.Timed) {id : GateId} (mem : id ∈ v.part.gates ∨ id ∈ pins) :
    after id = after' id := by
  rcases mem with inside | pinned
  case inr => exact pins_eq stepped cut width pinned
  obtain ⟨order, ordered⟩ := coherent.exists_orderedGates acyclic
  obtain ⟨perm, topological⟩ := coherent.orderedGates_spec ordered
  suffices all : ∀ id ∈ order, after id = after' id from all id (perm.mem_iff.mpr inside)
  refine ordered_induction topological (fun id mem => acyclic.not_feeds_self (perm.mem_iff.mp mem)) ?_
  intro id placed ih
  have inside := perm.mem_iff.mp placed
  obtain ⟨g, found, _⟩ := coherent.known inside
  by_cases pinned : id ∈ pins
  · exact pins_eq stepped cut width pinned
  by_cases listed : id ∈ memory
  · exact h.memory_eq coherent stepped cut width listed
  -- What is neither is logic, whose former value does not matter.
  have notSource : g.isSource = false := Bool.eq_false_iff.mpr fun source =>
    pinned (h.complete id (coherent.isSourceDriver_iff.mpr (.inl ⟨inside, g, found, source⟩)))
  have plain : g.isTrigger = false := Bool.eq_false_iff.mpr fun trigger =>
    listed ((h.triggers id).mpr ((coherent.covers.accounts.triggers id).mpr ⟨inside, g, found, trigger⟩))
  have away : id ∉ pins ++ memory := by simp [pinned, listed]
  rw [stepped.computed id inside pinned g found notSource plain, cut.computed id inside away g found notSource plain,
    GateFn.evalWord_held (timed.stateless inside found plain) (before id) (zero id)]
  congr 1
  refine List.map_congr_left fun s read => ?_
  rcases h.driver_inside coherent inside found read with own | pinned
  · exact ih _ (perm.mem_iff.mpr own) ⟨g, found, plain, s, read, rfl⟩
  · exact pins_eq stepped cut width pinned

end Step

/-- Memory takes next what it computes from the values of the step. -/
theorem nextWords_eq {before after next : GateId → Word} {words : List Word}
    (stepped : Stepped v pins words before after) (advances : v.Advances pins after next) :
    v.nextWords memory reads (memory.map before) (reads.map after) = memory.map next := by
  refine List.map_congr_left fun id listed => ?_
  obtain ⟨inside, unpinned, g, found, trigger⟩ := h.known coherent listed
  have read : ∀ s ∈ g.inputs, wordAt reads (reads.map after) s.driver = after s.driver :=
    fun s mem => wordAt_map ((h.drivers _).mpr ⟨id, listed, g, found, s, mem, rfl⟩)
  rw [advances id inside unpinned g found trigger, Gate.word, ← ofLanes_evalBit, coherent.wired.keyed found,
    stepped.held id inside unpinned g found trigger, found, wordAt_map listed]
  congr 1
  funext p
  rw [Option.any_some, List.map_map]
  congr 1
  exact List.map_congr_left fun s mem => congrArg (lane · p) (read s mem)

/-- A step of the run is a single step of the cut view, and the edge after it gives memory its next state. -/
theorem step_eq (acyclic : v.Acyclic) (timed : v.Timed) (ordered : v.orderedGates = .ok order) {values : Array Word}
    (size : values.size = (v.valued pins order).length) {words : List Word} (width : words.length = pins.length) :
    ∃ after : Array Word, after.size = (v.valued pins order).length ∧
      (v.program pins outputs order).step values words =
        .ok (outputs.map (readSlots (v.valued pins order) after), after) ∧
      (v.program (pins ++ memory) (outputs ++ reads) order).runOnce
          (words ++ memory.map (readSlots (v.valued pins order) values)) =
        .ok ((outputs ++ reads).map (readSlots (v.valued pins order) after)) ∧
      v.nextWords memory reads (memory.map (readSlots (v.valued pins order) values))
          (reads.map (readSlots (v.valued pins order) after)) =
        memory.map (readSlots (v.valued pins order) ((v.program pins outputs order).advance after)) := by
  obtain ⟨after, sizeAfter, step, stepped⟩ :=
    @Coherent.step_spec v pins outputs order coherent acyclic h.distinct ordered values size words width
  obtain ⟨after', _, single, cut⟩ := @Coherent.step_spec v (pins ++ memory) (outputs ++ reads) order coherent acyclic
    h.nodup ordered _ size_zeros (words ++ memory.map (readSlots (v.valued pins order) values)) (by simp [width])
  obtain ⟨_, advances⟩ := @Coherent.advance_spec v pins outputs order coherent ordered after sizeAfter
  refine ⟨after, sizeAfter, step, ?_, h.nextWords_eq coherent stepped advances⟩
  rw [Simulator.runOnce_eq, single, Result.ok_bind]
  refine congrArg Except.ok (List.map_congr_left fun id mem => ?_)
  exact (h.stepped_eq coherent stepped cut width acyclic timed (h.output_inside coherent mem)).symm

/-! ## Runs -/

/-- What `run` and `resume` have in common: a step from some values, and then the rest of the steps. -/
theorem iterate_cons (acyclic : v.Acyclic) (timed : v.Timed) (ordered : v.orderedGates = .ok order)
    {rest : List (List Word)} (later : ∀ values : Array Word, values.size = (v.valued pins order).length →
      (do return (← (v.program pins outputs order).resume values rest).1) =
        v.iterate (v.program (pins ++ memory) (outputs ++ reads) order) outputs memory reads
          (memory.map (readSlots (v.valued pins order) ((v.program pins outputs order).advance values))) rest)
    {values : Array Word} (size : values.size = (v.valued pins order).length) (words : List Word) :
    (do
      let (out, values) ← (v.program pins outputs order).step values words
      return out :: (← (v.program pins outputs order).resume values rest).1) =
      v.iterate (v.program (pins ++ memory) (outputs ++ reads) order) outputs memory reads
        (memory.map (readSlots (v.valued pins order) values)) (words :: rest) := by
  by_cases width : words.length = pins.length
  · obtain ⟨after, sizeAfter, step, single, next⟩ := h.step_eq coherent acyclic timed ordered size width
    have first : ((outputs ++ reads).map (readSlots (v.valued pins order) after)).take outputs.length =
        outputs.map (readSlots (v.valued pins order) after) := by
      rw [List.map_append, List.take_left' (List.length_map _)]
    have last : ((outputs ++ reads).map (readSlots (v.valued pins order) after)).drop outputs.length =
        reads.map (readSlots (v.valued pins order) after) := by
      rw [List.map_append, List.drop_left' (List.length_map _)]
    rw [iterate, step, single, Result.ok_bind, Result.ok_bind, first, last, next]
    simp only [← later after sizeAfter, bind_assoc, pure_bind]
  · -- The held words always fit, so the single step is refused for the same reason.
    rw [iterate, step_of_width width, Simulator.runOnce_eq, step_of_width (by simp [width])]
    rfl

theorem resume_eq (acyclic : v.Acyclic) (timed : v.Timed) (ordered : v.orderedGates = .ok order)
    (steps : List (List Word)) (values : Array Word) (size : values.size = (v.valued pins order).length) :
    (do return (← (v.program pins outputs order).resume values steps).1) =
      v.iterate (v.program (pins ++ memory) (outputs ++ reads) order) outputs memory reads
        (memory.map (readSlots (v.valued pins order) ((v.program pins outputs order).advance values))) steps := by
  induction steps generalizing values with
  | nil => rfl
  | cons words rest ih =>
    obtain ⟨sizeNext, _⟩ := @Coherent.advance_spec v pins outputs order coherent ordered values size
    rw [Simulator.resume_cons]
    exact h.iterate_cons coherent acyclic timed ordered ih sizeNext words

end CutAtMemory

/-- RUNS ARE ITERATED STEPS. A view without loops, whose memory is timed, can be compiled both with its pins and cut at
its memory. On as many words at each step as there are pins a run returns, and on any words it does what the iteration
of single steps from zero does. -/
theorem run_iterates (ofReachable : v.OfReachable) (customFree : v.CustomFree) (acyclic : v.Acyclic) (timed : v.Timed)
    (h : v.CutAtMemory pins outputs memory reads) :
    ∃ sim cut, v.compile pins outputs = .ok sim ∧ v.compile (pins ++ memory) (outputs ++ reads) = .ok cut ∧
      ∀ steps, sim.run steps = v.iterate cut outputs memory reads (memory.map fun _ => 0) steps ∧
        ((∀ words ∈ steps, words.length = pins.length) →
          ∃ rows, sim.run steps = .ok rows ∧ rows.length = steps.length) := by
  have coherent := ofReachable.coherent
  obtain ⟨order, ordered⟩ := coherent.exists_orderedGates acyclic
  have interpreted : v.Interpreted := fun id mem g found _ => customFree id mem g found
  have compiled := coherent.compile_eq interpreted ordered h.inside
  refine ⟨_, _, compiled, coherent.compile_eq interpreted ordered ?_, fun steps => ⟨?_, fun widths => ?_⟩⟩
  · exact fun id mem => (h.output_inside coherent mem).imp_right (List.mem_append_left memory)
  · cases steps with
    | nil => rfl
    | cons words rest =>
      have later := h.resume_eq coherent acyclic timed ordered rest
      have first := h.iterate_cons coherent acyclic timed ordered later (@size_zeros v pins outputs order) words
      rw [readSlots_zeros] at first
      rw [Simulator.run_cons]
      exact first
  · obtain ⟨sim, env, same, _, run⟩ := coherent.run_history interpreted acyclic h.distinct h.inside widths
    rw [compiled] at same
    cases same
    exact ⟨_, run, by simp [rowsOf]⟩

/-- A flip-flop, a latch behind it, and a resettable flip-flop that reads both, with the parity of all. -/
def memoryChain : Netlist := .made [⟨.input, []⟩, ⟨.input, []⟩, ⟨.flipFlop, [.plain ⟨0⟩, ⟨.rising, ⟨1⟩⟩]⟩,
  ⟨.latch, [.plain ⟨2⟩, ⟨.high, ⟨0⟩⟩]⟩, ⟨.flipFlopRS, [.plain ⟨3⟩, ⟨.rising, ⟨1⟩⟩, .plain ⟨0⟩, .plain ⟨2⟩]⟩,
  .nary .xor [⟨2⟩, ⟨3⟩, ⟨4⟩], .nary .output [⟨5⟩]]

theorem memoryChain_iterates : ∃ sim cut, memoryChain.view.compile [⟨0⟩, ⟨1⟩] [⟨6⟩] = .ok sim ∧
    memoryChain.view.compile [⟨0⟩, ⟨1⟩, ⟨2⟩, ⟨3⟩, ⟨4⟩] [⟨6⟩, ⟨0⟩, ⟨1⟩, ⟨2⟩, ⟨0⟩, ⟨3⟩, ⟨1⟩, ⟨0⟩, ⟨2⟩] = .ok cut ∧
    memoryChain.view.iterate cut [⟨6⟩] [⟨2⟩, ⟨3⟩, ⟨4⟩] [⟨0⟩, ⟨1⟩, ⟨2⟩, ⟨0⟩, ⟨3⟩, ⟨1⟩, ⟨0⟩, ⟨2⟩] [0, 0, 0]
      [[3, 0], [1, 0], [6, 0], [5, 0]] = sim.run [[3, 0], [1, 0], [6, 0], [5, 0]] ∧
    sim.run [[3, 0], [1, 0], [6, 0], [5, 0]] = .ok [[0], [3], [2], [6]] := by
  have sources : memoryChain.top.sources.toList.map Link.source = [⟨0⟩, ⟨1⟩] := by decide +kernel
  have triggers : memoryChain.top.triggers.toList = [⟨2⟩, ⟨3⟩, ⟨4⟩] := by decide +kernel
  have drivers : ([⟨2⟩, ⟨3⟩, ⟨4⟩] : List GateId).flatMap (fun t => (memoryChain.gate? t).toList.flatMap fun g =>
      g.inputs.map (·.driver)) = [⟨0⟩, ⟨1⟩, ⟨2⟩, ⟨0⟩, ⟨3⟩, ⟨1⟩, ⟨0⟩, ⟨2⟩] := by decide +kernel
  have listed : ∀ id, id ∈ [⟨2⟩, ⟨3⟩, ⟨4⟩] ↔ id ∈ memoryChain.view.part.triggers := by
    intro id
    rw [← triggers]
    exact Std.TreeSet.mem_toList
  have cutAt : memoryChain.view.CutAtMemory [⟨0⟩, ⟨1⟩] [⟨6⟩] [⟨2⟩, ⟨3⟩, ⟨4⟩]
      [⟨0⟩, ⟨1⟩, ⟨2⟩, ⟨0⟩, ⟨3⟩, ⟨1⟩, ⟨0⟩, ⟨2⟩] := by
    constructor
    case distinct => decide
    case complete =>
      rintro id ⟨l, mem, rfl⟩
      rw [← sources]
      exact List.mem_map_of_mem (Std.TreeSet.mem_toList.mpr mem)
    case apart =>
      intro id pinned
      rw [← listed]
      revert id
      decide
    case inside => exact fun id mem => .inl (by revert id; decide +kernel)
    case once => decide
    case triggers => exact listed
    case drivers =>
      intro id
      rw [← drivers]
      simp only [List.mem_flatMap, Option.mem_toList, List.mem_map]
      exact Iff.rfl
  have reachable : memoryChain.Reachable := Netlist.reachable_made _
  obtain ⟨sim, cut, compiled, cutCompiled, runs⟩ := run_iterates ⟨reachable, .inl rfl⟩
    (customFree_of_all (by decide +kernel)) (acyclic_of_all (by decide +kernel)) (timed_of_all (by decide +kernel)) cutAt
  refine ⟨sim, cut, compiled, cutCompiled, (runs _).1.symm, ?_⟩
  obtain ⟨sim', compiled', ran⟩ : ∃ sim, memoryChain.view.compile [⟨0⟩, ⟨1⟩] [⟨6⟩] = .ok sim ∧
      (sim.run [[3, 0], [1, 0], [6, 0], [5, 0]]).toOption.any (· == [[0], [3], [2], [6]]) = true :=
    Result.exists_ok_of_any (by decide +kernel)
  rw [compiled] at compiled'
  cases compiled'
  obtain ⟨rows, run, same⟩ := Result.exists_ok_of_any ran
  rw [run, eq_of_beq same]

end View

end LogicNet
