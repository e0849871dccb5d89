import LogicNet.Proofs.Cnf.Range
import LogicNet.Proofs.Simulation.History

/-!
# Unrolled netlists

A netlist unrolled over cycles is one formula about the values of its gates at all versions. Fixing the
states before the first cycle and the sources at each cycle leaves one solution, and this is the run of the
netlist: what a gate has at step `k` is the value of its variable at version `k + 1`, or at version `k` if
the gate is triggered, because whoever reads a triggered gate reads it one version before.

Both directions go through traces (`View.Trace`). The values of a model, read at the versions of a step, are
a trace, and a trace written to these versions meets the formula.
-/

namespace LogicNet

open Std

namespace Formula

variable {f f' : Formula}

/-! ## Fixed values -/

/-- Fix the values of gates at moments, by unit clauses. -/
def fixAll (f : Formula) : List (Moment × Bool) → Formula
  | [] => f
  | (m, b) :: rest => ((f.var m.site m.version).2.fix (f.var m.site m.version).1 b).fixAll rest

theorem fixAll_adds (fit : f.Fit) (fixes : List (Moment × Bool)) :
    Adds f (f.fixAll fixes) fun val _ => ∀ x ∈ fixes, val ⟨f.connected x.1.site, x.1.version⟩ = x.2 := by
  induction fixes generalizing f with
  | nil => exact Encode.adds_nothing fit (by simp)
  | cons x fixes ih =>
    have head := fix_var_adds fit x.1 x.2
    have tail := ih head.fit
    rw [connected_congr head.reconnection_eq] at tail
    exact (head.both tail).congr fun val _ => by rw [List.forall_mem_cons]

theorem knows_fixAll (fit : f.Fit) {fixes : List (Moment × Bool)} :
    ∀ x ∈ fixes, (f.fixAll fixes).Knows ⟨f.connected x.1.site, x.1.version⟩ := by
  induction fixes generalizing f with
  | nil => simp
  | cons x fixes ih =>
    have head := fix_var_adds fit x.1 x.2
    have tail := ih head.fit
    rw [connected_congr head.reconnection_eq] at tail
    refine List.forall_mem_cons.mpr ⟨?_, tail⟩
    -- A clause more does not change the variables.
    have here : ((f.var x.1.site x.1.version).2.fix (f.var x.1.site x.1.version).1 x.2).Knows
        ⟨f.connected x.1.site, x.1.version⟩ := knows_var f x.1.site x.1.version
    exact (fixAll_adds head.fit fixes).knows here

end Formula

namespace Encode

open Formula

variable {f f' : Formula}

/-- After version zero the equation of a gate that is not a source relates it to what it held and reads. -/
theorem holdsAt_succ {g : Gate} {net : Netlist} {val : Moment → Bool} {k : Nat} :
    g.HoldsAt net id val 0 (k + 1) ↔ (g.isSource = false → val ⟨⟨0, g.id⟩, k + 1⟩ = g.fn.evalBit (val ⟨⟨0, g.id⟩, k⟩)
      (g.inputs.map fun s => val ⟨⟨0, s.driver⟩, readVersion net s.driver (k + 1)⟩)) := by
  unfold Gate.HoldsAt GateFn.Relates
  rw [operands_iff]
  simp

end Encode

namespace Unrolling

open Formula

variable {net : Netlist} {u u' : Unrolling} {n : Nat}

/-! ## Cycles -/

theorem tick_eq_ok : u.tick = .ok u' ↔ u.cycle < Encode.lastVersion ∧ u' = { u with cycle := u.cycle + 1 } := by
  unfold tick
  split
  · next lt => exact ⟨fun same => ⟨lt, (Except.ok.inj same).symm⟩, fun h => congrArg Except.ok h.2.symm⟩
  · next ge => exact ⟨nofun, fun h => absurd h.1 ge⟩

/-- Within the versions there are, cycles are views encoded one after the other. -/
theorem encodeCycles_eq (few : u.cycle + n ≤ Encode.lastVersion) :
    u.encodeCycles net n = ((List.range' u.cycle n).foldlM (fun f k => Encode.view net.view 0 k f) u.formula).map
      (Unrolling.mk (u.cycle + n)) := by
  induction n generalizing u with
  | zero => rfl
  | succ n ih =>
    rw [List.range'_succ, List.foldlM_cons]
    cases encoded : Encode.view net.view 0 u.cycle u.formula with
    | error e => simp only [encodeCycles, encode, encoded, Result.error_bind, Except.map]
    | ok f =>
      have ticked : (Unrolling.mk u.cycle f).tick = .ok ⟨u.cycle + 1, f⟩ := tick_eq_ok.mpr ⟨by show u.cycle < _; omega, rfl⟩
      have rest := @ih ⟨u.cycle + 1, f⟩ (by show u.cycle + 1 + n ≤ _; omega)
      rw [show u.cycle + (n + 1) = u.cycle + 1 + n by omega]
      simp only [encodeCycles, encode, encoded, Result.ok_bind, pure_bind, ticked, rest]

/-- The formula with all gates of a netlist at several versions, whether or not its literals can be made. -/
def draftVersions (net : Netlist) (f : Formula) (ks : List Nat) : Result Formula :=
  ks.foldlM (fun f k => Encode.draftView net.view 0 k f) f

/-- The equations of all gates at each of the versions are added, and each gate gets a variable at each version. -/
theorem draftVersions_spec {f f' : Formula} {ks : List Nat} (coherent : net.view.Coherent) (fit : f.Fit)
    (drafted : draftVersions net f ks = .ok f') :
    Adds f f' (fun val _ => ∀ k ∈ ks, ∀ id ∈ net.view.part.gates, ∀ g, net.gate? id = some g →
      g.HoldsAt net f.connected val 0 k) ∧
    (∀ k ∈ ks, ∀ id ∈ net.view.part.gates, f'.Knows ⟨f.connected ⟨0, id⟩, k⟩) ∧
    f'.size ≤ f.size + ks.length * net.view.demand := by
  induction ks generalizing f with
  | nil =>
    cases drafted
    exact ⟨Encode.adds_nothing fit (by simp), by simp, by simp⟩
  | cons k ks ih =>
    obtain ⟨f₁, first, rest⟩ := Result.bind_eq_ok.mp drafted
    have head := Encode.draftView_adds fit coherent first
    obtain ⟨tail, later, size⟩ := ih head.fit rest
    simp only [connected_congr head.reconnection_eq] at tail later
    refine ⟨(head.both tail).congr fun val _ => ?_, ?_, ?_⟩
    · rw [List.forall_mem_cons]
      exact Iff.rfl
    · refine List.forall_mem_cons.mpr ⟨fun id mem => ?_, later⟩
      exact tail.knows (Encode.draftView_knows fit coherent first id mem)
    · have view := Encode.size_draftView_le coherent first
      rw [List.length_cons, Nat.succ_mul]
      omega

/-- Ordered gates that all have a meaning can be drafted at any versions. -/
theorem exists_draftVersions (coherent : net.view.Coherent) (customFree : net.view.CustomFree)
    {order : List GateId} (ordered : net.view.orderedGates = .ok order) (f : Formula) (ks : List Nat) :
    ∃ f', draftVersions net f ks = .ok f' :=
  Result.exists_foldlM (fun k _ f => Encode.exists_draftView coherent customFree ordered 0 k f) f

/-- ENCODING CYCLES STOPS ONLY FOR WANT OF LITERALS, as long as there are versions for them. -/
theorem encodeCycles_of_draft {f : Formula} (few : u.cycle + n ≤ Encode.lastVersion)
    (drafted : draftVersions net u.formula (List.range' u.cycle n) = .ok f) :
    u.encodeCycles net n = if f.isNumberedFrom u.formula.clauses.size then .ok ⟨u.cycle + n, f⟩
      else .error (.breach .unnumberedVariable) := by
  have limits := Limits.foldlM (fun f k => Encode.limits_view net.view 0 k f) u.formula (List.range' u.cycle n)
  rw [encodeCycles_eq few, limits.limited_of f drafted, requireNumberedFrom_eq]
  split <;> rfl

/-! ## Traces -/

/-- What an assignment says about each step: the equations hold, memory is off before the first cycle, and
the pins have their bits. -/
structure Unrolls (net : Netlist) (pins : List GateId) (steps : List (List Bool)) (val : Moment → Bool) : Prop where
  holds : ∀ k < steps.length, ∀ x ∈ net.view.part.gates, ∀ g, net.gate? x = some g → g.HoldsAt net id val 0 (k + 1)
  off : ∀ x ∈ net.top.triggers, val ⟨⟨0, x⟩, 0⟩ = false
  fed : ∀ k bits, steps[k]? = some bits → pins.map (fun x => val ⟨⟨0, x⟩, k + 1⟩) = bits

variable {pins : List GateId} {steps : List (List Bool)}

theorem readVersion_of_trigger {id : GateId} {g : Gate} (found : net.gate? id = some g) (trigger : g.isTrigger = true)
    (k : Nat) : Encode.readVersion net id (k + 1) = k := by
  simp [Encode.readVersion, found, trigger]

theorem readVersion_of_plain {id : GateId} (plain : ∀ g, net.gate? id = some g → g.isTrigger = false) (k : Nat) :
    Encode.readVersion net id (k + 1) = k + 1 := by
  unfold Encode.readVersion
  rw [if_neg]
  cases found : net.gate? id with
  | none => simp
  | some g => simp [plain g found]

section Traces

variable (consistent : net.Consistent) (sources : ∀ id ∈ pins, net.view.IsSourceDriver id)
include consistent sources

theorem isSource_of_pin {id : GateId} (pin : id ∈ pins) {g : Gate} (found : net.gate? id = some g) :
    g.isSource = true := by
  rcases consistent.coherent_view.isSourceDriver_iff.mp (sources id pin) with ⟨_, g', here, source⟩ | ⟨outside, _⟩
  · obtain rfl : g = g' := Option.some.inj (found.symm.trans here)
    exact source
  · exact absurd (consistent.mem_view_gates.mpr ⟨g, found⟩) outside

theorem not_pin_of_trigger {id : GateId} {g : Gate} (found : net.gate? id = some g) (trigger : g.isTrigger = true) :
    id ∉ pins := by
  intro pin
  rw [Shape.isTrigger_of_isSource (isSource_of_pin consistent sources pin found)] at trigger
  cases trigger

/-- Read at the versions of each step, an assignment is a trace. -/
theorem Unrolls.trace (timed : net.view.Timed) {val : Moment → Bool} (h : Unrolls net pins steps val) :
    net.view.Trace pins steps fun k id => val ⟨⟨0, id⟩, Encode.readVersion net id (k + 1)⟩ := by
  have keyed : ∀ {id g}, net.gate? id = some g → g.id = id := consistent.wired.keyed
  constructor
  case fed =>
    intro k bits found
    rw [← h.fed k bits found]
    refine List.map_congr_left fun id pin => ?_
    rw [readVersion_of_plain]
    exact fun g here => Shape.isTrigger_of_isSource (isSource_of_pin consistent sources pin here)
  case solves =>
    intro k lt id mem _ g found notSource plain
    have stateless := timed.stateless mem found plain
    have equation := Encode.holdsAt_succ.mp (h.holds k lt id mem g found) notSource
    rw [keyed found, GateFn.evalBit_held stateless _ false] at equation
    beta_reduce
    have alone : ∀ g', net.gate? id = some g' → g'.isTrigger = false := by
      intro g' here
      rw [← Option.some.inj (found.symm.trans here)]
      exact plain
    rw [readVersion_of_plain alone]
    exact equation
  case off =>
    intro _ id mem _ g found trigger
    change net.gate? id = some g at found
    rw [readVersion_of_trigger found trigger]
    exact h.off id ((consistent.top.accounts.triggers id).mpr ⟨mem, g, found, trigger⟩)
  case next =>
    intro k lt id mem _ g found trigger
    have notSource : g.isSource = false := by
      apply Bool.eq_false_iff.mpr
      intro source
      rw [Shape.isTrigger_of_isSource source] at trigger
      cases trigger
    have equation := Encode.holdsAt_succ.mp (h.holds k (by omega) id mem g found) notSource
    rw [keyed found] at equation
    change net.gate? id = some g at found
    rw [readVersion_of_trigger found trigger, readVersion_of_trigger found trigger]
    exact equation

/-- The values of a trace at moments. A triggered gate has a value at one version more, the one it computes
at the last step. -/
def unrolled (net : Netlist) (val : Nat → GateId → Bool) (m : Moment) : Bool :=
  match net.gate? m.site.gate with
  | none => val (m.version - 1) m.site.gate
  | some g =>
    if g.isTrigger then
      match m.version with
      | 0 => false
      | k + 1 => g.fn.evalBit (val k g.id) (g.inputs.map fun s => val k s.driver)
    else val (m.version - 1) m.site.gate

omit consistent sources in
theorem unrolled_of_plain {val : Nat → GateId → Bool} {id : GateId}
    (plain : ∀ g, net.gate? id = some g → g.isTrigger = false) (k : Nat) :
    unrolled net val ⟨⟨0, id⟩, k + 1⟩ = val k id := by
  cases found : net.gate? id with
  | none => simp [unrolled, found]
  | some g => simp [unrolled, found, plain g found]

omit sources in
theorem unrolled_of_trigger {val : Nat → GateId → Bool} {id : GateId} {g : Gate} (found : net.gate? id = some g)
    (trigger : g.isTrigger = true) (k : Nat) :
    unrolled net val ⟨⟨0, id⟩, k + 1⟩ = g.fn.evalBit (val k id) (g.inputs.map fun s => val k s.driver) := by
  simp [unrolled, found, trigger, consistent.wired.keyed found]

/-- At the versions of a step there are the values of the step. -/
theorem unrolled_readVersion {val : Nat → GateId → Bool} (h : net.view.Trace pins steps val) {k : Nat}
    (lt : k < steps.length) (id : GateId) :
    unrolled net val ⟨⟨0, id⟩, Encode.readVersion net id (k + 1)⟩ = val k id := by
  by_cases isTrigger : ∃ g, net.gate? id = some g ∧ g.isTrigger = true
  · obtain ⟨g, found, trigger⟩ := isTrigger
    have mem := consistent.mem_view_gates.mpr ⟨g, found⟩
    have unpinned := not_pin_of_trigger consistent sources found trigger
    rw [readVersion_of_trigger found trigger]
    cases k with
    | zero =>
      rw [h.off lt id mem unpinned g found trigger]
      simp [unrolled, found, trigger]
    | succ k => rw [unrolled_of_trigger consistent found trigger, h.next k lt id mem unpinned g found trigger]
  · have plain : ∀ g, net.gate? id = some g → g.isTrigger = false :=
      fun g found => Bool.eq_false_iff.mpr fun trigger => isTrigger ⟨g, found, trigger⟩
    rw [readVersion_of_plain plain, unrolled_of_plain plain]

/-- Written to the versions of each step, a trace meets what is asked. -/
theorem unrolls_unrolled (timed : net.view.Timed) {val : Nat → GateId → Bool} (h : net.view.Trace pins steps val) :
    Unrolls net pins steps (unrolled net val) := by
  have keyed : ∀ {id g}, net.gate? id = some g → g.id = id := consistent.wired.keyed
  constructor
  case holds =>
    intro k lt id mem g found
    refine Encode.holdsAt_succ.mpr fun notSource => ?_
    have operands : (g.inputs.map fun s => unrolled net val ⟨⟨0, s.driver⟩, Encode.readVersion net s.driver (k + 1)⟩) =
        g.inputs.map fun s => val k s.driver :=
      List.map_congr_left fun s _ => unrolled_readVersion consistent sources h lt s.driver
    rw [operands, keyed found]
    cases trigger : g.isTrigger with
    | true =>
      have held := unrolled_readVersion consistent sources h lt id
      rw [readVersion_of_trigger found trigger] at held
      rw [unrolled_of_trigger consistent found trigger, held]
    | false =>
      have unpinned : id ∉ pins := by
        intro pin
        rw [isSource_of_pin consistent sources pin found] at notSource
        cases notSource
      have stateless := timed.stateless mem found trigger
      have plain : ∀ g', net.gate? id = some g' → g'.isTrigger = false := by
        intro g' here
        rw [← Option.some.inj (found.symm.trans here)]
        exact trigger
      rw [unrolled_of_plain plain, GateFn.evalBit_held stateless _ false]
      exact h.solves k lt id mem unpinned g found notSource trigger
  case off =>
    intro id mem
    obtain ⟨_, g, found, trigger⟩ := (consistent.top.accounts.triggers id).mp mem
    simp [unrolled, found, trigger]
  case fed =>
    intro k bits found
    rw [← h.fed k bits found]
    refine List.map_congr_left fun id pin => unrolled_of_plain ?_ k
    exact fun g here => Shape.isTrigger_of_isSource (isSource_of_pin consistent sources pin here)

end Traces

/-! ## Runs -/

/-- Memory is off before the first cycle, and at each cycle the pins have their bits. -/
def runFixes (net : Netlist) (pins : List GateId) (steps : List (List Bool)) : List (Moment × Bool) :=
  net.top.triggers.toList.map (fun id => (⟨⟨0, id⟩, 0⟩, false)) ++
    steps.zipIdx.flatMap fun x => (pins.zip x.1).map fun y => (⟨⟨0, y.1⟩, x.2 + 1⟩, y.2)

theorem map_eq_iff_zip {α β : Type} {f : α → β} {xs : List α} {ys : List β} (length : ys.length = xs.length) :
    xs.map f = ys ↔ ∀ x ∈ xs.zip ys, f x.1 = x.2 := by
  induction xs generalizing ys with
  | nil =>
    obtain rfl := List.eq_nil_of_length_eq_zero length
    simp
  | cons x xs ih =>
    cases ys with
    | nil => cases length
    | cons y ys => simp [ih (Nat.succ.inj length)]

/-- The unit clauses are met exactly if memory is off and the pins have their bits. -/
theorem runFixes_iff {val : Moment → Bool} (widths : ∀ bits ∈ steps, bits.length = pins.length) :
    (∀ x ∈ runFixes net pins steps, val x.1 = x.2) ↔ (∀ id ∈ net.top.triggers, val ⟨⟨0, id⟩, 0⟩ = false) ∧
      ∀ k bits, steps[k]? = some bits → pins.map (fun id => val ⟨⟨0, id⟩, k + 1⟩) = bits := by
  unfold runFixes
  simp only [List.forall_mem_append, List.forall_mem_map, List.forall_mem_flatMap, TreeSet.mem_toList]
  refine and_congr_right fun _ => ⟨fun each k bits found => ?_, fun each x mem => ?_⟩
  · rw [map_eq_iff_zip (widths bits (List.mem_of_getElem? found))]
    exact each (bits, k) (List.mk_mem_zipIdx_iff_getElem?.mpr found)
  · have found := List.mem_zipIdx_iff_getElem?.mp mem
    exact (map_eq_iff_zip (widths x.1 (List.mem_of_getElem? found))).mp (each x.2 x.1 found)

section Encoded

variable {f : Formula} (consistent : net.Consistent)
  (drafted : draftVersions net (withReconnection {}) (List.range' 1 steps.length) = .ok f)
include consistent drafted

/-- The formula with its unit clauses says what `Unrolls` says. -/
theorem unrolls_adds (widths : ∀ bits ∈ steps, bits.length = pins.length) :
    Adds (withReconnection {}) (f.fixAll (runFixes net pins steps)) fun val _ => Unrolls net pins steps val := by
  have encoded := (draftVersions_spec consistent.coherent_view (fit_withReconnection {}) drafted).1
  have fixed := fixAll_adds encoded.fit (runFixes net pins steps)
  rw [connected_congr encoded.reconnection_eq] at fixed
  refine (encoded.both fixed).congr fun val _ => ?_
  simp only [connected_empty, List.mem_range'_1]
  rw [show (∀ x ∈ runFixes net pins steps, val ⟨id x.1.site, x.1.version⟩ = x.2) ↔ _ from runFixes_iff widths]
  constructor
  · intro h
    exact ⟨fun k lt => h.1 (k + 1) (by omega), h.2.1, h.2.2⟩
  · intro h
    refine ⟨fun k range => ?_, h.off, h.fed⟩
    obtain ⟨j, rfl⟩ := Nat.exists_eq_add_of_le' range.1
    exact h.holds j (by omega)

/-- Every gate has a variable at the version of every step. -/
theorem knows_step {k : Nat} (lt : k < steps.length) {x : GateId} {g : Gate} (found : net.gate? x = some g) :
    (f.fixAll (runFixes net pins steps)).Knows ⟨⟨0, x⟩, if g.isTrigger then k else k + 1⟩ := by
  obtain ⟨encoded, known, _⟩ := draftVersions_spec consistent.coherent_view (fit_withReconnection {}) drafted
  have same : (withReconnection {}).connected = id := connected_empty
  have fixed := fixAll_adds encoded.fit (runFixes net pins steps)
  have mem := consistent.mem_view_gates.mpr ⟨g, found⟩
  have cycle : ∀ j < steps.length, (f.fixAll (runFixes net pins steps)).Knows ⟨⟨0, x⟩, j + 1⟩ := by
    intro j lt
    have here := known (j + 1) (List.mem_range'_1.mpr (by omega)) x mem
    rw [same] at here
    exact fixed.knows here
  cases trigger : g.isTrigger with
  | false => exact cycle k lt
  | true =>
    cases k with
    | succ k => exact cycle k (by omega)
    | zero =>
      have isTrigger := (consistent.top.accounts.triggers x).mpr ⟨mem, g, found, trigger⟩
      have isFixed : ((⟨⟨0, x⟩, 0⟩ : Moment), false) ∈ runFixes net pins steps :=
        List.mem_append_left _ (List.mem_map.mpr ⟨x, TreeSet.mem_toList.mpr isTrigger, rfl⟩)
      have := knows_fixAll encoded.fit _ isFixed
      rw [connected_congr encoded.reconnection_eq, same] at this
      exact this

end Encoded

/-- Some assignment makes the clauses true, and every one that does gives each gate, at the version of each
step, the bit in lane `p` of its word in the run. -/
def Simulates (f : Formula) (net : Netlist) (outputs : List GateId) (rows : List (List Word)) (p : Nat) : Prop :=
  (∃ value, ∀ c ∈ f.clauses, Clause.holds value c = true) ∧
    ∀ value, (∀ c ∈ f.clauses, Clause.holds value c = true) →
      ∀ (k : Nat) (row : List Word), rows[k]? = some row →
        ∀ (j : Nat) (id : GateId) (g : Gate), outputs[j]? = some id → net.gate? id = some g →
          ∃ v w, f.vars[(⟨⟨0, id⟩, if g.isTrigger then k else k + 1⟩ : Moment)]? = some v ∧ row[j]? = some w ∧
            value v = lane w p

/-- AN UNROLLED NETLIST HAS ONE SOLUTION, THE RUN. The formula of as many cycles as there are steps is returned while
its size is in the range of literals, which it is if all cycles together demand no more, and encoding it stops exactly if
a literal cannot be made. With memory off at the start and the source drivers fixed at every cycle, it can be met, and
whatever meets it has the simulated values. -/
theorem encodeCycles_simulates {net : Netlist} (reachable : net.Reachable) (customFree : net.view.CustomFree)
    (timed : net.view.Timed) (acyclic : net.view.Acyclic) {pins : List GateId} (nodup : pins.Nodup)
    (sources : ∀ id, id ∈ pins ↔ net.view.IsSourceDriver id) {outputs : List GateId}
    (inside : ∀ id ∈ outputs, net.contains id = true) {steps : List (List Word)}
    (widths : ∀ words ∈ steps, words.length = pins.length) (few : steps.length ≤ 65534) :
    ∃ u sim rows,
      ({} : Unrolling).encodeCycles net steps.length =
        (if u.formula.isNumbered then .ok u else .error (.breach .unnumberedVariable)) ∧
      (u.formula.size ≤ Lit.largestVar + 1 → ({} : Unrolling).encodeCycles net steps.length = .ok u) ∧
      u.formula.size ≤ steps.length * net.view.demand ∧
      net.view.compile pins outputs = .ok sim ∧ sim.run steps = .ok rows ∧ rows.length = steps.length ∧
      ∀ p < 64, Simulates (u.formula.fixAll (runFixes net pins (View.laneSteps steps p))) net outputs rows p := by
  have consistent := reachable.consistent
  have coherent := consistent.coherent_view
  have drivers : ∀ id ∈ pins, net.view.IsSourceDriver id := fun id pin => (sources id).mp pin
  obtain ⟨order, ordered⟩ := coherent.exists_orderedGates acyclic
  obtain ⟨f, drafted⟩ :=
    exists_draftVersions coherent customFree ordered (withReconnection {}) (List.range' 1 steps.length)
  obtain ⟨encoded, _, size⟩ := draftVersions_spec coherent (fit_withReconnection {}) drafted
  have limited := @encodeCycles_of_draft net {} steps.length f (by show 1 + steps.length ≤ 65535; omega) drafted
  have gates : ∀ id ∈ outputs, id ∈ net.view.part.gates := by
    intro id mem
    exact consistent.mem_view_gates.mpr (Netlist.contains_iff.mp (inside id mem))
  obtain ⟨sim, env, compiled, history, run⟩ := @View.Coherent.run_history net.view pins outputs coherent
    (fun id mem g found _ => customFree id mem g found) acyclic nodup (fun id mem => .inl (gates id mem)) steps widths
  refine ⟨⟨_, f⟩, sim, _, limited, fun small => ?_, ?_, compiled, run, by simp [View.rowsOf], fun p lt => ?_⟩
  · rw [limited, if_pos]
    exact encoded.fit.isNumberedFrom small 0
  · rw [List.length_range', show (withReconnection {}).size = 0 from rfl, Nat.zero_add] at size
    exact size
  have count : (View.laneSteps steps p).length = steps.length := List.length_map ..
  have trace := history.trace coherent timed widths lt
  rw [← count] at drafted
  have adds := unrolls_adds consistent drafted (View.length_of_mem_laneSteps widths)
  constructor
  · have unrolls := unrolls_unrolled consistent drivers timed trace
    obtain ⟨value, _, met⟩ := adds.complete _ (fun _ => false) (meets_withReconnection {} _ _) unrolls
    exact ⟨value, met.clauses⟩
  · intro value holds k row found j id g output gate
    obtain ⟨inRange, rfl⟩ := View.getElem?_rowsOf found
    obtain ⟨val, met⟩ := exists_meets holds
    have unrolls := (adds.sound val value met).2
    have same := trace.unique coherent acyclic (fun x source => (sources x).mpr source)
      (unrolls.trace consistent drivers timed) (by rwa [count]) id (.inl (consistent.mem_view_gates.mpr ⟨g, gate⟩))
    obtain ⟨v, known⟩ := knows_step consistent drafted (by rwa [count]) gate
    refine ⟨v, env k id, known, by simp [output], ?_⟩
    rw [met.interned known, same, Encode.readVersion, gate]
    rfl

/-- A latch behind a flip-flop, and the parity of what both hold and an input. -/
def latchedParity : Netlist := .made [⟨.input, []⟩, ⟨.input, []⟩, ⟨.flipFlop, [.plain ⟨0⟩, ⟨.rising, ⟨1⟩⟩]⟩,
  ⟨.latch, [.plain ⟨2⟩, ⟨.high, ⟨0⟩⟩]⟩, .nary .xor [⟨0⟩, ⟨2⟩, ⟨3⟩], .nary .output [⟨4⟩]]

theorem latchedParity_simulates :
    let steps : List (List Word) := [[3, 0], [1, 0], [5, 0]]
    ∃ u sim rows, ({} : Unrolling).encodeCycles latchedParity steps.length = .ok u ∧
      latchedParity.view.compile [⟨0⟩, ⟨1⟩] [⟨3⟩, ⟨4⟩] = .ok sim ∧ sim.run steps = .ok rows ∧
      rows.length = steps.length ∧
      ∀ p < 64, Simulates (u.formula.fixAll (runFixes latchedParity [⟨0⟩, ⟨1⟩] (View.laneSteps steps p)))
        latchedParity [⟨3⟩, ⟨4⟩] rows p := by
  intro steps
  have customFree : latchedParity.view.CustomFree := View.customFree_of_all (by decide +kernel)
  have timed : latchedParity.view.Timed := View.timed_of_all (by decide +kernel)
  have acyclic : latchedParity.view.Acyclic := View.acyclic_of_all (by decide +kernel)
  have sources : latchedParity.top.sources.toList.map Link.source = [⟨0⟩, ⟨1⟩] := by decide +kernel
  have drivers : ∀ id, id ∈ [⟨0⟩, ⟨1⟩] ↔ latchedParity.view.IsSourceDriver id := by
    intro id
    rw [← sources, List.mem_map]
    simp only [TreeSet.mem_toList]
    rfl
  obtain ⟨u, sim, rows, _, returned, size, rest⟩ := @encodeCycles_simulates latchedParity (Netlist.reachable_made _)
    customFree timed acyclic [⟨0⟩, ⟨1⟩] (by decide) drivers [⟨3⟩, ⟨4⟩] (by decide +kernel) steps (by decide) (by decide)
  have small : steps.length * latchedParity.view.demand ≤ Lit.largestVar + 1 := by decide +kernel
  exact ⟨u, sim, rows, returned (Nat.le_trans size small), rest⟩

end Unrolling

end LogicNet
