import LogicNet.Proofs.Valuation

/-!
# Origins

A value comes from somewhere. Walking backwards from a gate along its drivers, one goes on until there is no driver, or
the driver is not a member, or the gate is triggered and has its value from the step before. Where the walk ends is an
ORIGIN (`View.Origin`), and each of its kinds leaves a trace in the boundary or the classes of the part.

**The law** (`bare_iff_without_gates`): without combinational loops a netlist or a part that has a gate has a source
link, a constant or a triggered gate. So the boundary and the classes are all empty only where there is no gate.

The walk ends because there is no loop. On a loop that is closed in itself it would not: `closedLoop` is a gate with
nothing around it.
-/

namespace LogicNet

open Std

/-! ## Parts without a trace -/

namespace Part

/-- Nothing enters or leaves the part, nothing in it is constant, and nothing is triggered. -/
def isBare (p : Part) : Bool :=
  p.sources.isEmpty && p.targets.isEmpty && p.constants.isEmpty && p.triggers.isEmpty

/-- Something enters the part, or some gate of it is constant or triggered. -/
def Supplied (p : Part) : Prop := (∃ l, l ∈ p.sources) ∨ (∃ id, id ∈ p.constants) ∨ ∃ id, id ∈ p.triggers

theorem isBare_iff {p : Part} : p.isBare = true ↔
    (∀ l, l ∉ p.sources) ∧ (∀ l, l ∉ p.targets) ∧ (∀ id, id ∉ p.constants) ∧ ∀ id, id ∉ p.triggers := by
  simp only [isBare, Bool.and_eq_true, TreeSet.isEmpty_iff_forall_not_mem, and_assoc]

theorem Supplied.not_isBare {p : Part} (h : p.Supplied) : p.isBare = false := by
  refine Bool.eq_false_iff.mpr fun bare => ?_
  obtain ⟨sources, _, constants, triggers⟩ := isBare_iff.mp bare
  rcases h with ⟨l, mem⟩ | ⟨id, mem⟩ | ⟨id, mem⟩
  · exact sources l mem
  · exact constants id mem
  · exact triggers id mem

end Part

/-- A part that covers no gates has neither a boundary nor classes. -/
theorem Covers.isBare_of_nil {gate? : GateId → Option Gate} {member : GateId → Bool} {p : Part}
    (h : Covers gate? member p) (empty : p.gates = []) : p.isBare = true := by
  have none : ∀ id, ¬member id = true := by
    intro id inside
    have listed := (h.members id).mp inside
    rw [empty] at listed
    cases listed
  refine Part.isBare_iff.mpr ⟨fun l mem => ?_, fun l mem => ?_, fun id mem => ?_, fun id mem => ?_⟩
  · rcases (h.bounds.sources l).mp mem with ⟨_, _, inside, _⟩ | ⟨_, crosses⟩
    · exact none _ inside
    · exact none _ (Bool.and_eq_true_iff.mp crosses).1
  · rcases (h.bounds.targets l).mp mem with ⟨_, _, inside, _⟩ | ⟨_, crosses⟩
    · exact none _ inside
    · exact none _ (Bool.and_eq_true_iff.mp crosses).1
  · exact none id ((h.members id).mpr ((h.accounts.constants id).mp mem).1)
  · exact none id ((h.members id).mpr ((h.accounts.triggers id).mp mem).1)

/-! ## Walking backwards -/

namespace View

variable {v : View}

/-- A gate whose value does not come from a gate of the view within the same step. -/
inductive Origin (v : View) (id : GateId) : Prop
  | port (mem : .port id ∈ v.part.sources)
  | entry {d : GateId} {i : Nat} (mem : .edge d id i ∈ v.part.sources)
  | constant (mem : id ∈ v.part.constants)
  | trigger (mem : id ∈ v.part.triggers)

theorem Origin.supplied {id : GateId} (h : v.Origin id) : v.part.Supplied := by
  cases h with
  | port mem => exact .inl ⟨_, mem⟩
  | entry mem => exact .inl ⟨_, mem⟩
  | constant mem => exact .inr (.inl ⟨_, mem⟩)
  | trigger mem => exact .inr (.inr ⟨_, mem⟩)

/-- ONE STEP BACK. A gate is an origin, or a gate of the view feeds it. -/
theorem Coherent.origin_or_fed (h : v.Coherent) {id : GateId} (mem : id ∈ v.part.gates) :
    v.Origin id ∨ ∃ d ∈ v.part.gates, Feeds v.net.gate? d id := by
  obtain ⟨g, found, _⟩ := h.known mem
  cases trigger : g.isTrigger with
  | true => exact .inl (.trigger ((h.covers.accounts.triggers id).mpr ⟨mem, g, found, trigger⟩))
  | false =>
    cases inputs : g.inputs with
    | nil =>
      cases constant : g.isConstant with
      | true => exact .inl (.constant ((h.covers.accounts.constants id).mpr ⟨mem, g, found, constant⟩))
      | false =>
        have source : g.isSource = true := by
          have notConstant : g.fn.isConstant = false := constant
          rw [Shape.isSource, inputs, notConstant]
          rfl
        refine .inl (.port ((h.covers.bounds.sources _).mpr (onBoundary_port.mpr ?_)))
        exact ⟨g, found, (h.covers.members id).mpr mem, source⟩
    | cons s rest =>
      have read : s ∈ g.inputs := by rw [inputs]; exact List.mem_cons_self
      by_cases inside : s.driver ∈ v.part.gates
      · exact .inr ⟨s.driver, inside, g, found, trigger, s, read, rfl⟩
      · have link : IsEdge v.net.gate? (.edge s.driver id 0) :=
          ⟨g, found, Shape.mem_inputLinks.mpr ⟨0, s, by rw [inputs]; rfl, rfl⟩⟩
        have outside : v.part.contains s.driver = false := by
          rw [← Bool.not_eq_true, h.covers.members]
          exact inside
        refine .inl (.entry (d := s.driver) (i := 0) ((h.covers.bounds.sources _).mpr (.inr ⟨link, ?_⟩)))
        exact Bool.and_eq_true_iff.mpr ⟨(h.covers.members id).mpr mem, by rw [Link.edge, outside]; rfl⟩

/-- EVERY GATE HAS AN ORIGIN, from which a path of the view leads to it. -/
theorem Coherent.exists_origin (h : v.Coherent) (acyclic : v.Acyclic) {id : GateId} (mem : id ∈ v.part.gates) :
    ∃ origin, v.Origin origin ∧ Relation.ReflTransGen
      (fun a b => a ∈ v.part.gates ∧ b ∈ v.part.gates ∧ Feeds v.net.gate? a b) origin id := by
  obtain ⟨order, found⟩ := h.exists_orderedGates acyclic
  obtain ⟨perm, ordered⟩ := h.orderedGates_spec found
  refine ordered_induction (P := fun id => ∃ origin, v.Origin origin ∧ Relation.ReflTransGen
    (fun a b => a ∈ v.part.gates ∧ b ∈ v.part.gates ∧ Feeds v.net.gate? a b) origin id) ordered
    (fun id mem => acyclic.not_feeds_self (perm.mem_iff.mp mem)) ?_ id (perm.mem_iff.mpr mem)
  intro id mem ih
  have inside := perm.mem_iff.mp mem
  rcases h.origin_or_fed inside with origin | ⟨d, driver, feeds⟩
  · exact ⟨id, origin, .refl⟩
  · obtain ⟨origin, isOrigin, path⟩ := ih d (perm.mem_iff.mpr driver) feeds
    exact ⟨origin, isOrigin, path.tail ⟨driver, inside, feeds⟩⟩

theorem Coherent.supplied (h : v.Coherent) (acyclic : v.Acyclic) (some : 0 < v.part.size) : v.part.Supplied := by
  obtain ⟨id, mem⟩ := List.exists_mem_of_length_pos some
  obtain ⟨origin, isOrigin, _⟩ := h.exists_origin acyclic mem
  exact isOrigin.supplied

theorem Coherent.isBare_iff (h : v.Coherent) (acyclic : v.Acyclic) : v.part.isBare = true ↔ v.part.size = 0 := by
  constructor
  · intro bare
    by_contra some
    rw [(h.supplied acyclic (Nat.pos_of_ne_zero some)).not_isBare] at bare
    cases bare
  · intro none
    exact h.covers.isBare_of_nil (List.length_eq_zero_iff.mp none)

end View

namespace Netlist

/-- BARE ONLY WITHOUT GATES. In a netlist without combinational loops, the boundary and the classes of the whole and of
each part are all empty exactly if there is no gate. More precisely, where there is a gate, something enters or is
constant or triggered. -/
theorem bare_iff_without_gates {net : Netlist} (h : net.Reachable) (acyclic : net.view.Acyclic) :
    ((net.top.isBare = true ↔ net.size = 0) ∧ (0 < net.size → net.top.Supplied)) ∧
      ∀ p ∈ net.parts, (p.isBare = true ↔ p.size = 0) ∧ (0 < p.size → p.Supplied) := by
  have consistent := h.consistent
  refine ⟨?_, fun p mem => ?_⟩
  · have coherent := consistent.coherent_view
    rw [← consistent.size_gates]
    exact ⟨coherent.isBare_iff acyclic, coherent.supplied acyclic⟩
  · obtain ⟨n, found⟩ := List.mem_iff_getElem?.mp mem
    have coherent : (View.mk net p false).Coherent := ⟨consistent.wired, (consistent.parts n p found).contains⟩
    have acyclic := View.acyclic_part consistent acyclic found
    exact ⟨coherent.isBare_iff acyclic, coherent.supplied acyclic⟩

/-- A flip-flop that inverts itself at each edge of its own inverse. The inverter is a part of its own. -/
def oscillator : Result Netlist := do
  let (q, net) ← Netlist.empty.addPlaceholder
  let (n, net) ← net.addNot q
  let net ← net.setGate q ⟨.flipFlop, [.plain n, ⟨.rising, n⟩]⟩
  let (part, net) := net.addPart
  net.moveGate n (some part)

/-- Nothing enters or leaves the whole, and still it is not bare; nor is its part. -/
theorem oscillator_not_bare : ∃ net, oscillator = .ok net ∧ net.sources.isEmpty = true ∧ net.targets.isEmpty = true ∧
    net.top.constants.isEmpty = true ∧ (∃ id, id ∈ net.top.triggers) ∧ net.parts.length = 1 ∧
    ∀ p ∈ net.parts, p.isBare = false := by
  obtain ⟨net, run, facts⟩ : ∃ net, oscillator = .ok net ∧ (net.sources.isEmpty && net.targets.isEmpty &&
      net.top.constants.isEmpty && decide (0 < net.size) && net.parts.length == 1 &&
      net.parts.all (fun p => decide (0 < p.size)) && (net.view.allGates fun id g => g.isTrigger ||
        g.inputs.all fun s => s.driver.index < id.index)) = true := Result.exists_ok_of_any (by decide +kernel)
  simp only [Bool.and_eq_true, decide_eq_true_eq, beq_iff_eq, List.all_eq_true] at facts
  obtain ⟨⟨⟨⟨⟨⟨sources, targets⟩, constants⟩, gates⟩, one⟩, members⟩, forward⟩ := facts
  have reachable : net.Reachable := by
    obtain ⟨⟨q, net₁⟩, first, run⟩ := Result.bind_eq_ok.mp run
    obtain ⟨⟨n, net₂⟩, second, run⟩ := Result.bind_eq_ok.mp run
    obtain ⟨net₃, set, moved⟩ := Result.bind_eq_ok.mp run
    have changed : net₃.Reachable := .setGate _ _ (.addGate (.nary .not [q]) (.addPlaceholder .empty first) second) set
    exact .moveGate _ _ changed.addPart moved
  obtain ⟨⟨_, supplied⟩, parts⟩ := bare_iff_without_gates reachable (View.acyclic_of_all forward)
  refine ⟨net, run, sources, targets, constants, ?_, one, fun p mem => ((parts p mem).2 (members p mem)).not_isBare⟩
  rcases supplied gates with ⟨l, mem⟩ | ⟨id, mem⟩ | trigger
  · exact absurd mem (TreeSet.isEmpty_iff_forall_not_mem.mp sources l)
  · exact absurd mem (TreeSet.isEmpty_iff_forall_not_mem.mp constants id)
  · exact trigger

/-- A buffer that is made to read itself. -/
def closedLoop : Result Netlist := do
  let (x, net) ← Netlist.empty.addPlaceholder
  net.setGate x (.nary .buffer [x])

-- On a loop that nothing enters no gate is an origin.
example : (closedLoop.toOption.any fun net => net.size == 1 && net.top.isBare) = true := by decide +kernel

end Netlist

end LogicNet
