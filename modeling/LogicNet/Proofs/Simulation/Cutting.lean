import LogicNet.Proofs.Simulation.Runs

/-!
# Cut views

A pin is never evaluated, whatever its function, so the equations that a single step solves are those of
the view CUT at its pins. Where the pins are sources and memory only, no equation is cut, and what a
step solves is a valuation.

What no equation determines is OPEN: sources, triggered gates, and drivers outside the view. When all of
these are pinned the pins determine the view (`View.Solves.unique`), and a single step finds its values
(`View.Determined.runOnce_spec`).
-/

namespace LogicNet

/-- Equal values on each of some pairs. -/
def Together {α : Type} (pairs : List (GateId × GateId)) (left right : GateId → α) : Prop :=
  ∀ x ∈ pairs, left x.1 = right x.2

namespace View

variable {v : View} {pins outputs order : List GateId}

/-! ## Equations -/

/-- No equation gives the value: a source or a triggered gate of the view, or a driver outside it. -/
def Open (v : View) (id : GateId) : Prop :=
  (id ∈ v.part.gates ∧ ∃ g, v.net.gate? id = some g ∧ (g.isSource = true ∨ g.isTrigger = true)) ∨
    (id ∉ v.part.gates ∧ ∃ t ∈ v.part.gates, ∃ g, v.net.gate? t = some g ∧ ∃ s ∈ g.inputs, s.driver = id)

theorem Coherent.open_iff (h : v.Coherent) {id : GateId} :
    v.Open id ↔ v.IsSourceDriver id ∨ id ∈ v.part.triggers := by
  rw [h.isSourceDriver_iff, h.covers.accounts.triggers, Open]
  simp only [and_or_left, exists_or]
  exact or_right_comm

/-- Apart from the pins, every gate of the view that is neither a source nor triggered has the value of
its function. -/
def Solves (v : View) (pins : List GateId) (val : GateId → Bool) : Prop :=
  ∀ id ∈ v.part.gates, id ∉ pins → ∀ g, v.net.gate? id = some g → g.isSource = false → g.isTrigger = false →
    val id = g.fn.evalBit false (g.inputs.map fun s => val s.driver)

/-- Memory samples some input. -/
def Timed (v : View) : Prop :=
  ∀ id ∈ v.part.gates, ∀ g, v.net.gate? id = some g → g.fn.isTriggered = true → g.isTrigger = true

theorem Timed.stateless (timed : v.Timed) {id : GateId} (mem : id ∈ v.part.gates) {g : Gate}
    (found : v.net.gate? id = some g) (plain : g.isTrigger = false) : g.fn.isTriggered = false := by
  apply Bool.eq_false_iff.mpr
  intro triggered
  rw [timed id mem g found triggered] at plain
  cases plain

/-- A valuation solves the equations that a cut leaves. -/
theorem Valuation.solves {val : GateId → Bool} (h : v.Valuation val) (coherent : v.Coherent) (timed : v.Timed) :
    v.Solves pins val := by
  intro id mem _ g found notSource plain
  rcases h id mem g found with free | value
  · rw [Shape.isFree, notSource, timed.stateless mem found plain] at free
    cases free
  · rw [coherent.wired.keyed found] at value
    exact value

/-- A cut at what is given leaves all equations of a view of logic. -/
theorem Pinnable.valuation {val : GateId → Bool} (pinnable : v.Pinnable pins) (coherent : v.Coherent)
    (logical : v.Logical) (h : v.Solves pins val) : v.Valuation val := by
  intro id mem g found
  by_cases free : g.isFree = true
  · exact .inl free
  obtain ⟨_, plain⟩ := (logical id mem g found).resolve_left free
  have unpinned : id ∉ pins := fun pinned => free (pinnable.2 id pinned mem g found)
  have notSource : g.isSource = false := by
    cases source : g.isSource with
    | false => rfl
    | true => exact absurd (by simp [Shape.isFree, source]) free
  refine .inr ?_
  rw [coherent.wired.keyed found]
  exact h id mem unpinned g found notSource plain

/-- Solutions that agree on the pins and on what is open agree on the whole view. -/
theorem Solves.unique {val val' : GateId → Bool} (h : v.Solves pins val) (h' : v.Solves pins val')
    (coherent : v.Coherent) (acyclic : v.Acyclic) (agree : ∀ id, id ∈ pins ∨ v.Open id → val id = val' id) :
    ∀ id ∈ v.part.gates, val id = val' id := by
  obtain ⟨order, found⟩ := coherent.exists_orderedGates acyclic
  obtain ⟨perm, ordered⟩ := coherent.orderedGates_spec found
  suffices all : ∀ id ∈ order, val id = val' id from fun id mem => all id (perm.mem_iff.mpr mem)
  refine ordered_induction ordered (fun id mem => acyclic.not_feeds_self (perm.mem_iff.mp mem)) ?_
  intro id mem ih
  have mem := perm.mem_iff.mp mem
  obtain ⟨g, here, _⟩ := coherent.known mem
  by_cases given : id ∈ pins ∨ v.Open id
  · exact agree id given
  obtain ⟨unpinned, closed⟩ := not_or.mp given
  have notSource : g.isSource = false := Bool.eq_false_iff.mpr fun source => closed (.inl ⟨mem, g, here, .inl source⟩)
  have plain : g.isTrigger = false := Bool.eq_false_iff.mpr fun trigger => closed (.inl ⟨mem, g, here, .inr trigger⟩)
  rw [h id mem unpinned g here notSource plain, h' id mem unpinned g here notSource plain]
  congr 1
  refine List.map_congr_left fun s read => ?_
  by_cases inside : s.driver ∈ v.part.gates
  · exact ih _ (perm.mem_iff.mpr inside) ⟨g, here, plain, s, read, rfl⟩
  · exact agree _ (.inr (.inr ⟨inside, id, mem, g, here, s, read, rfl⟩))

theorem timed_of_all (all : v.allGates (fun _ g => !g.fn.isTriggered || g.isTrigger) = true) : v.Timed := by
  intro id mem g found triggered
  have := of_allGates all mem found
  rw [triggered] at this
  exact this

/-! ## Single steps -/

/-- The pins name all that is open, each once, and the rest can be computed. -/
structure Determined (v : View) (pins : List GateId) : Prop where
  coherent : v.Coherent
  interpreted : v.Interpreted
  acyclic : v.Acyclic
  nodup : pins.Nodup
  complete : ∀ id, v.Open id → id ∈ pins

theorem Determined.unique (h : v.Determined pins) {val val' : GateId → Bool} (solves : v.Solves pins val)
    (solves' : v.Solves pins val') (agree : ∀ id ∈ pins, val id = val' id) {id : GateId}
    (mem : id ∈ v.part.gates ∨ id ∈ pins) : val id = val' id := by
  rcases mem with inside | pinned
  · refine solves.unique solves' h.coherent h.acyclic ?_ id inside
    rintro x (pinned | isOpen)
    · exact agree x pinned
    · exact agree x (h.complete x isOpen)
  · exact agree id pinned

/-- A single step from the zero state solves the equations in every lane. -/
theorem Determined.runOnce_spec (h : v.Determined pins) (inside : ∀ id ∈ outputs, id ∈ v.part.gates ∨ id ∈ pins) :
    ∃ sim, v.compile pins outputs = .ok sim ∧ ∀ words : List Word, words.length = pins.length →
      ∃ env : GateId → Word, sim.runOnce words = .ok (outputs.map env) ∧
        ∀ p < 64, v.Solves pins (fun id => lane (env id) p) ∧
          pins.map (fun id => lane (env id) p) = words.map (lane · p) := by
  obtain ⟨order, ordered⟩ := h.coherent.exists_orderedGates h.acyclic
  refine ⟨_, h.coherent.compile_eq h.interpreted ordered inside, fun words width => ?_⟩
  obtain ⟨after, _, run, stepped⟩ := @Coherent.step_spec v pins outputs order h.coherent h.acyclic
    h.nodup ordered _ size_zeros words width
  refine ⟨readSlots (v.valued pins order) after, ?_, fun p lt => ⟨?_, ?_⟩⟩
  · rw [Simulator.runOnce_eq, run]
    rfl
  · intro id mem unpinned g found notSource plain
    beta_reduce
    rw [stepped.computed id mem unpinned g found notSource plain, readSlots_zeros, lane_evalWord _ _ _ lt,
      lane_zero, List.map_map]
    rfl
  · refine List.ext_getElem (by simp [width]) fun i hi hi' => ?_
    rw [List.length_map] at hi hi'
    rw [List.getElem_map, List.getElem_map,
      stepped.fed i _ _ (List.getElem?_eq_getElem hi) (List.getElem?_eq_getElem hi')]

/-- Every assignment of the pins has a solution. -/
theorem Determined.exists_solution (h : v.Determined pins) {bits : List Bool} (length : bits.length = pins.length) :
    ∃ val, v.Solves pins val ∧ pins.map val = bits := by
  obtain ⟨sim, _, run⟩ := @Determined.runOnce_spec v pins [] h (by simp)
  obtain ⟨env, _, solves⟩ := run (bits.map spread) (by simpa using length)
  have lanes : (bits.map spread).map (lane · 0) = bits := by
    rw [List.map_map]
    exact (List.map_congr_left fun b _ => lane_spread (by omega) b).trans (List.map_id bits)
  have := solves 0 (by omega)
  rw [lanes] at this
  exact ⟨_, this⟩

/-! ## Steps that cut nothing -/

/-- All that the view does not determine is pinned, and nothing else. -/
structure Simulable (v : View) (pins : List GateId) : Prop where
  coherent : v.Coherent
  logical : v.Logical
  acyclic : v.Acyclic
  pinnable : v.Pinnable pins
  complete : ∀ id, v.Given id → id ∈ pins

theorem Simulable.determined (h : v.Simulable pins) : v.Determined pins where
  coherent := h.coherent
  interpreted := h.logical.interpreted
  acyclic := h.acyclic
  nodup := h.pinnable.1
  complete := by
    rintro id (⟨mem, g, found, source | trigger⟩ | outside)
    · exact h.complete id (.inl ⟨mem, g, found, by simp [Shape.isFree, source]⟩)
    · rcases h.logical id mem g found with free | ⟨_, plain⟩
      · exact h.complete id (.inl ⟨mem, g, found, free⟩)
      · rw [trigger] at plain
        cases plain
    · exact h.complete id (.inr outside)

/-- What a solution gives a gate, the view evaluates to. -/
theorem Simulable.evaluates (h : v.Simulable pins) {val : GateId → Bool} (solves : v.Solves pins val) {id : GateId}
    (mem : id ∈ v.part.gates) : v.Evaluates (pins.zip (pins.map val)) id (val id) := by
  have valuation := h.pinnable.valuation h.coherent h.logical solves
  have zipped : pins.zip (pins.map val) = pins.map fun id => (id, val id) := by
    rw [List.zip_map_right, List.zip_eq_zipWith, List.zipWith_self, List.map_map]
    rfl
  rw [zipped]
  refine ⟨⟨val, valuation, List.forall_mem_map.mpr fun _ _ => rfl⟩, fun val' valuation' agree => ?_⟩
  rw [List.forall_mem_map] at agree
  refine valuation'.unique h.coherent h.logical h.acyclic valuation ?_ id mem
  exact fun x given => agree x (h.complete x given)

/-- Every assignment of the pins gives every gate of the view a value. -/
theorem Simulable.exists_evaluates (h : v.Simulable pins) {bits : List Bool} (length : bits.length = pins.length)
    {id : GateId} (mem : id ∈ v.part.gates) : ∃ b, v.Evaluates (pins.zip bits) id b := by
  obtain ⟨val, solves, rfl⟩ := h.determined.exists_solution length
  exact ⟨val id, h.evaluates solves mem⟩

end View

end LogicNet
